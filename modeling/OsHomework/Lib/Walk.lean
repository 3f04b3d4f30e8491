import Mathlib.Data.Nat.Cast.Basic
import OsHomework.Lib.Linked
import OsHomework.Lib.Outcome

/-!
# Walking through a linked list

The loop `for (curr = head; curr != NULL; curr = curr->next)`, and what it comes to when its body counts or
adds up.

* `walk next body n curr acc`, and **`walk_spec`**: the loop is a fold over the list;
* `walk_keeps`: what the body keeps holds in the end;
* `foldlM_add`, `foldlM_add_if`: sums of machine words that do not overflow; `foldlM_add_mod`: one that may;
* `foldlM_count_int`: a count in a type with a largest value, which overflows on a list that is too long.
-/

set_option autoImplicit false

namespace OsHomework

/-- `body` on every node from `curr` on. -/
def walk {σ : Type} (next : ℕ → ℕ) (body : σ → ℕ → Outcome σ) : ℕ → ℕ → σ → Outcome σ
  | 0, _, _ => .fuel
  | n + 1, curr, acc =>
    if curr = 0 then .ret acc
    else do
      let acc ← body acc curr
      walk next body n (next curr) acc

/-- **The loop is a fold over the list.** -/
theorem walk_spec {σ : Type} {next : ℕ → ℕ} {body : σ → ℕ → Outcome σ} {l : List ℕ} {n curr : ℕ} {acc : σ}
    (h : Seg next curr l 0) (hn : l.length < n) : walk next body n curr acc = l.foldlM body acc := by
  induction l generalizing n curr acc with
  | nil =>
    obtain ⟨n, rfl⟩ := Nat.exists_eq_succ_of_ne_zero (Nat.ne_zero_of_lt hn)
    rw [walk, if_pos (show curr = 0 from h)]
    rfl
  | cons a l ih =>
    obtain ⟨n, rfl⟩ := Nat.exists_eq_succ_of_ne_zero (Nat.ne_zero_of_lt hn)
    obtain ⟨rfl, ha, hs⟩ := h
    rw [walk, if_neg ha, List.foldlM_cons]
    congr 1
    funext acc'
    exact ih hs (by simpa using hn)

theorem walk_keeps {σ : Type} {next : ℕ → ℕ} {body : σ → ℕ → Outcome σ} {P : σ → Prop} {n curr : ℕ}
    {acc r : σ} (hbody : ∀ acc a acc', P acc → body acc a = .ret acc' → P acc') (hacc : P acc)
    (h : walk next body n curr acc = .ret r) : P r := by
  induction n generalizing curr acc with
  | zero => cases h
  | succ n ih =>
    rw [walk] at h
    split_ifs at h with h₀
    · cases h
      exact hacc
    · obtain ⟨acc', h₁, h⟩ := Outcome.bind_eq_ret.mp h
      exact ih (hbody _ _ _ hacc h₁) h

section Fold

variable {α : Type} {l : List α} {c : ℕ}

theorem foldlM_add {f : α → ℕ} {w : ℕ} (h : c + (l.map f).sum < w) :
    l.foldlM (fun acc a => Outcome.ret ((acc + f a) % w)) c = .ret (c + (l.map f).sum) := by
  induction l generalizing c with
  | nil => rfl
  | cons a l ih =>
    rw [List.map_cons, List.sum_cons] at h ⊢
    rw [List.foldlM_cons, Outcome.ret_bind, Nat.mod_eq_of_lt (by omega), ih (by omega), add_assoc]

theorem foldlM_add_if {f : α → ℕ} {p : α → Bool} {w : ℕ} (h : c + ((l.filter p).map f).sum < w) :
    l.foldlM (fun acc a => Outcome.ret (if p a then (acc + f a) % w else acc)) c =
      .ret (c + ((l.filter p).map f).sum) := by
  induction l generalizing c with
  | nil => rfl
  | cons a l ih =>
    rw [List.foldlM_cons, Outcome.ret_bind]
    by_cases hp : p a = true
    · rw [List.filter_cons_of_pos hp, List.map_cons, List.sum_cons] at h ⊢
      rw [if_pos hp, Nat.mod_eq_of_lt (by omega), ih (by omega), add_assoc]
    · rw [List.filter_cons_of_neg hp] at h ⊢
      rw [if_neg hp, ih h]

/-- A sum of machine words that may overflow. -/
theorem foldlM_add_mod {f : α → ℕ} {w : ℕ} (h : c < w) :
    l.foldlM (fun acc a => Outcome.ret ((acc + f a) % w)) c = .ret ((c + (l.map f).sum) % w) := by
  induction l generalizing c with
  | nil => rw [List.map_nil, List.sum_nil, add_zero, Nat.mod_eq_of_lt h]; rfl
  | cons a l ih =>
    rw [List.map_cons, List.sum_cons, List.foldlM_cons, Outcome.ret_bind, ih (Nat.mod_lt _ (by omega)),
      Nat.mod_add_mod, add_assoc]

theorem sum_map_one (l : List α) : (l.map fun _ => 1).sum = l.length := by
  simp [List.map_const']

theorem foldlM_count {w : ℕ} (h : c + l.length < w) :
    l.foldlM (fun acc _ => Outcome.ret ((acc + 1) % w)) c = .ret (c + l.length) := by
  rw [← sum_map_one l] at h ⊢
  exact foldlM_add h

theorem foldlM_count_if {p : α → Bool} {w : ℕ} (h : c + (l.filter p).length < w) :
    l.foldlM (fun acc a => Outcome.ret (if p a then (acc + 1) % w else acc)) c =
      .ret (c + (l.filter p).length) := by
  rw [← sum_map_one (l.filter p)] at h ⊢
  exact foldlM_add_if h

/-- **A count up to `M`**, together with the last element, overflows on a list that is too long. -/
theorem foldlM_count_int {last : α} {M : ℕ} (hc : c ≤ M) :
    l.foldlM (fun (acc : ℕ × α) a => if acc.1 < M then Outcome.ret (acc.1 + 1, a) else .ub) (c, last) =
      if c + l.length ≤ M then .ret (c + l.length, l.getLastD last) else .ub := by
  induction l generalizing c last with
  | nil =>
    rw [if_pos (by simpa using hc)]
    rfl
  | cons a l ih =>
    rw [List.foldlM_cons, List.length_cons]
    by_cases hlt : c < M
    · rw [if_pos hlt, Outcome.ret_bind, ih (by omega : c + 1 ≤ M),
        show c + 1 + l.length = c + (l.length + 1) by omega, List.getLastD_cons]
    · rw [if_neg hlt, if_neg (by omega)]
      rfl

end Fold

end OsHomework
