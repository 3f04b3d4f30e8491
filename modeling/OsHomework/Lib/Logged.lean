import OsHomework.Lib.Outcome

/-!
# Calls that keep a log

A call together with the events it logs on its way, also when it does not return. Running a function in
`Logged` instead of `Outcome` makes visible what the outcome alone does not show, such as the arguments of
an inner function.

* `Logged ε α`, its bind, and `Logged.lift`;
* `out_bind`: forgetting the log gives back the computation in `Outcome`;
* `Within P x`: every event logged satisfies `P`. **`Within.bind`** is the rule for sequences: the second
  part need only be looked at for the values that the first can return.
-/

set_option autoImplicit false

namespace OsHomework

/-- What a call logs, and what it comes to. -/
structure Logged (ε α : Type) where
  log : List ε
  out : Outcome α

namespace Logged

variable {ε α β : Type}

/-- The log of a continuation, if it is run. -/
def rest (x : Outcome α) (f : α → Logged ε β) : List ε :=
  match x with
  | .ret a => (f a).log
  | _ => []

def bind (x : Logged ε α) (f : α → Logged ε β) : Logged ε β :=
  ⟨x.log ++ rest x.out f, x.out >>= fun a => (f a).out⟩

instance : Monad (Logged ε) where
  pure a := ⟨[], .ret a⟩
  bind := bind

/-- A call that logs nothing. -/
def lift (x : Outcome α) : Logged ε α := ⟨[], x⟩

@[simp] theorem out_pure (a : α) : (pure a : Logged ε α).out = .ret a := rfl
@[simp] theorem log_pure (a : α) : (pure a : Logged ε α).log = [] := rfl
@[simp] theorem out_lift (x : Outcome α) : (lift x : Logged ε α).out = x := rfl
@[simp] theorem log_lift (x : Outcome α) : (lift x : Logged ε α).log = [] := rfl

@[simp] theorem out_bind (x : Logged ε α) (f : α → Logged ε β) :
    (x >>= f).out = (x.out >>= fun a => (f a).out) := rfl

@[simp] theorem lift_ret_bind (a : α) (f : α → Logged ε β) : (lift (.ret a) >>= f) = f a := rfl

@[simp] theorem lift_exit_bind (c : ℕ) (f : α → Logged ε β) : (lift (.exit c) >>= f) = lift (.exit c) := rfl

@[simp] theorem out_ite {p : Prop} [Decidable p] (x y : Logged ε α) :
    (if p then x else y).out = if p then x.out else y.out := apply_ite _ _ _ _

theorem log_bind_silent {x : Logged ε α} {f : α → Logged ε β} (hf : ∀ a, (f a).log = []) :
    (x >>= f).log = x.log := by
  show x.log ++ rest x.out f = x.log
  cases x.out <;> simp [rest, hf]

theorem mem_log_bind {x : Logged ε α} {f : α → Logged ε β} {e : ε} :
    e ∈ (x >>= f).log ↔ e ∈ x.log ∨ ∃ a, x.out = .ret a ∧ e ∈ (f a).log := by
  show e ∈ x.log ++ rest x.out f ↔ _
  rw [List.mem_append]
  cases hx : x.out <;> simp [rest]

@[simp] theorem bind_pure (x : Logged ε α) : x >>= pure = x := by
  obtain ⟨log, out⟩ := x
  cases out <;> simp [Bind.bind, Pure.pure, Logged.bind, rest, Outcome.bind]

theorem bind_assoc {γ : Type} (x : Logged ε α) (f : α → Logged ε β) (g : β → Logged ε γ) :
    x >>= f >>= g = x >>= fun a => f a >>= g := by
  obtain ⟨log, out⟩ := x
  cases out with
  | ret a =>
    show Logged.mk ((log ++ (f a).log) ++ rest (f a).out g) _ = Logged.mk (log ++ ((f a).log ++ rest (f a).out g)) _
    rw [List.append_assoc]
    rfl
  | _ => simp [Bind.bind, Logged.bind, rest, Outcome.bind]

/-- Every event logged satisfies `P`. -/
def Within (P : ε → Prop) (x : Logged ε α) : Prop := ∀ e ∈ x.log, P e

section Within

variable {P : ε → Prop}

theorem Within.pure (a : α) : Within P (pure a : Logged ε α) := by
  intro e he
  cases he

theorem Within.lift (x : Outcome α) : Within P (Logged.lift x) := by
  intro e he
  cases he

/-- **The rule for sequences.** -/
theorem Within.bind {x : Logged ε α} {f : α → Logged ε β} (hx : Within P x)
    (hf : ∀ a, x.out = .ret a → Within P (f a)) : Within P (x >>= f) := by
  intro e he
  rcases mem_log_bind.mp he with h | ⟨a, ha, h⟩
  · exact hx e h
  · exact hf a ha e h

theorem within_bind_iff {x : Logged ε α} {f : α → Logged ε β} :
    Within P (x >>= f) ↔ Within P x ∧ ∀ a, x.out = .ret a → Within P (f a) := by
  refine ⟨fun h => ⟨fun e he => ?_, fun a ha e he => ?_⟩, fun h => h.1.bind h.2⟩
  · exact h e (mem_log_bind.mpr (.inl he))
  · exact h e (mem_log_bind.mpr (.inr ⟨a, ha, he⟩))

@[simp] theorem within_pure {a : α} : Within P (Pure.pure a : Logged ε α) := Within.pure a

@[simp] theorem within_lift {x : Outcome α} : Within P (Logged.lift x : Logged ε α) := Within.lift x

theorem Within.ite {p : Prop} [Decidable p] {x y : Logged ε α} (hx : p → Within P x)
    (hy : ¬ p → Within P y) : Within P (if p then x else y) := by
  split_ifs with h
  · exact hx h
  · exact hy h

end Within

end Logged

end OsHomework
