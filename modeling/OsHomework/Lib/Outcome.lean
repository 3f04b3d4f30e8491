import Mathlib.Data.Nat.Basic

/-!
# Outcomes of C calls

A call of a C function either returns, ends the process with `exit`, does something to which the
language gives no meaning, or is still running when the loop bound of the model is used up.

* `Outcome`, its bind, and the inversion lemma `bind_eq_ret`;
* `Returns f a`: with enough fuel, `f` returns `a`. A model whose loops take fuel says with
  `Returns` that the code terminates, and not only what it computes if it does;
* `Settles f`: more fuel does not change an outcome. Then one fuel that is enough will do
  (`Settles.returns`).
-/

set_option autoImplicit false

namespace OsHomework

/-- What a call of a C function comes to. -/
inductive Outcome (α : Type) where
  | ret (a : α)
  | exit (code : ℕ)
  | ub
  | fuel
  deriving DecidableEq, Repr

namespace Outcome

variable {α β : Type}

/-- Run `f` on the value returned; anything else ends the computation. -/
def bind (x : Outcome α) (f : α → Outcome β) : Outcome β :=
  match x with
  | ret a => f a
  | exit c => exit c
  | ub => ub
  | fuel => fuel

instance : Monad Outcome where
  pure := ret
  bind := bind

@[simp] theorem pure_eq (a : α) : (pure a : Outcome α) = ret a := rfl
@[simp] theorem ret_bind (a : α) (f : α → Outcome β) : (ret a >>= f) = f a := rfl
@[simp] theorem exit_bind (c : ℕ) (f : α → Outcome β) : (exit c >>= f) = exit c := rfl
@[simp] theorem ub_bind (f : α → Outcome β) : ((ub : Outcome α) >>= f) = ub := rfl
@[simp] theorem fuel_bind (f : α → Outcome β) : ((fuel : Outcome α) >>= f) = fuel := rfl

/-- **Inversion**: a sequence returns only if its first part does. -/
theorem bind_eq_ret {x : Outcome α} {f : α → Outcome β} {b : β} :
    (x >>= f) = ret b ↔ ∃ a, x = ret a ∧ f a = ret b := by
  cases x <;> simp

/-- A continuation may be given more fuel. -/
theorem bind_of_ne_fuel {x : Outcome α} {f g : α → Outcome β} (h : ∀ a, f a ≠ fuel → g a = f a)
    (hne : (x >>= f) ≠ fuel) : (x >>= g) = (x >>= f) := by
  cases x with
  | ret a => exact h a hne
  | exit c => rfl
  | ub => rfl
  | fuel => rfl

end Outcome

/-! ## Calls with enough fuel -/

section Fuel

variable {α β : Type}

/-- With enough fuel, the call returns `a`. -/
def Returns (f : ℕ → Outcome α) (a : α) : Prop := ∃ N, ∀ n, N ≤ n → f n = .ret a

theorem Returns.const {x : Outcome α} {a : α} (h : x = .ret a) : Returns (fun _ => x) a :=
  ⟨0, fun _ _ => h⟩

theorem Returns.unique {f : ℕ → Outcome α} {a b : α} (ha : Returns f a) (hb : Returns f b) :
    a = b := by
  obtain ⟨N, hN⟩ := ha
  obtain ⟨N', hN'⟩ := hb
  have h := (hN (max N N') (le_max_left _ _)).symm.trans (hN' (max N N') (le_max_right _ _))
  exact Outcome.ret.inj h

theorem returns_succ {f : ℕ → Outcome α} {a : α} : Returns (fun n => f (n + 1)) a ↔ Returns f a := by
  constructor
  · rintro ⟨N, hN⟩
    refine ⟨N + 1, fun n hn => ?_⟩
    obtain ⟨n, rfl⟩ : ∃ m, n = m + 1 := ⟨n - 1, by omega⟩
    exact hN n (by omega)
  · rintro ⟨N, hN⟩
    exact ⟨N, fun n hn => hN (n + 1) (by omega)⟩

theorem Returns.bind {f : ℕ → Outcome α} {g : ℕ → α → Outcome β} {a : α} {b : β}
    (hf : Returns f a) (hg : Returns (fun n => g n a) b) : Returns (fun n => f n >>= g n) b := by
  obtain ⟨N, hN⟩ := hf
  obtain ⟨N', hN'⟩ := hg
  refine ⟨max N N', fun n hn => ?_⟩
  show (f n >>= g n) = _
  rw [hN n (le_trans (le_max_left _ _) hn), Outcome.ret_bind]
  exact hN' n (le_trans (le_max_right _ _) hn)

theorem returns_const {x : Outcome α} {a : α} : Returns (fun _ => x) a ↔ x = .ret a :=
  ⟨fun ⟨N, hN⟩ => hN N le_rfl, Returns.const⟩

/-- More fuel does not change the outcome, once there is one. -/
def Settles (f : ℕ → Outcome α) : Prop := ∀ n, f n ≠ .fuel → f (n + 1) = f n

theorem Settles.const (x : Outcome α) : Settles fun _ => x := fun _ _ => rfl

theorem Settles.bind {f : ℕ → Outcome α} {g : ℕ → α → Outcome β} (hf : Settles f)
    (hg : ∀ a, Settles fun n => g n a) : Settles fun n => f n >>= g n := by
  intro n hne
  have hf' : f n ≠ .fuel := fun h => hne (by show (f n >>= g n) = _; rw [h]; rfl)
  show (f (n + 1) >>= g (n + 1)) = (f n >>= g n)
  rw [hf n hf']
  exact Outcome.bind_of_ne_fuel (fun a ha => hg a n ha) hne

theorem Settles.of_le {f : ℕ → Outcome α} (h : Settles f) {n m : ℕ} (hnm : n ≤ m)
    (hn : f n ≠ .fuel) : f m = f n := by
  induction m, hnm using Nat.le_induction with
  | base => rfl
  | succ m _ ih => rw [h m (by rw [ih]; exact hn), ih]

theorem Settles.returns {f : ℕ → Outcome α} (h : Settles f) {n : ℕ} {a : α} (hn : f n = .ret a) :
    Returns f a :=
  ⟨n, fun m hm => by rw [h.of_le hm (by rw [hn]; simp), hn]⟩

theorem Settles.returns_then {f : ℕ → Outcome α} {x : Outcome β} {b : β} (h : Settles f) :
    Returns (fun n => f n >>= fun _ => x) b ↔ (∃ a, Returns f a) ∧ x = .ret b := by
  constructor
  · rintro ⟨N, hN⟩
    obtain ⟨a, ha, hb⟩ := Outcome.bind_eq_ret.mp (hN N le_rfl)
    exact ⟨⟨a, h.returns ha⟩, hb⟩
  · rintro ⟨⟨a, ha⟩, hb⟩
    exact ha.bind (.const hb)

end Fuel

end OsHomework
