import Mathlib.Algebra.BigOperators.Fin
import Mathlib.Algebra.BigOperators.Group.Finset.Basic
import Mathlib.Tactic.Abel

/-!
# Quantities summed over threads

Every thread is at a program point, and a step moves one of them.

* **`sum_update`**: how a sum over the threads changes when one of them moves;
* `sum_update_of_eq`: it does not, if the old and the new point count the same.
-/

set_option autoImplicit false

namespace OsHomework

open Finset

section Threads

variable {ι P M : Type} [Fintype ι] [DecidableEq ι] [AddCommMonoid M] (f : P → M) (pc : ι → P)

/-- **One thread moves**: its old contribution is exchanged for the new one. -/
theorem sum_update (i : ι) (x : P) :
    ∑ j, f (Function.update pc i x j) + f (pc i) = ∑ j, f (pc j) + f x := by
  have hrest : ∑ j ∈ univ.erase i, f (Function.update pc i x j) = ∑ j ∈ univ.erase i, f (pc j) :=
    sum_congr rfl fun j hj => by rw [Function.update_of_ne (ne_of_mem_erase hj)]
  rw [← add_sum_erase univ (fun j => f (Function.update pc i x j)) (mem_univ i),
    ← add_sum_erase univ (fun j => f (pc j)) (mem_univ i), hrest, Function.update_self]
  abel

variable {f pc}

theorem sum_update_of_eq {i : ι} {x : P} (h : f x = f (pc i)) :
    ∑ j, f (Function.update pc i x j) = ∑ j, f (pc j) := by
  apply sum_congr rfl
  intro j _
  by_cases hj : j = i
  · rw [hj, Function.update_self, h]
  · rw [Function.update_of_ne hj]

theorem sum_exchange {F G : ι → M} {i : ι} (h : ∀ j, j ≠ i → F j = G j) :
    ∑ j, F j + G i = ∑ j, G j + F i := by
  have hF : F = Function.update G i (F i) := by
    funext j
    by_cases hj : j = i
    · rw [hj, Function.update_self]
    · rw [Function.update_of_ne hj, h j hj]
  have := sum_update (id : M → M) G i (F i)
  rwa [← hF] at this

end Threads

end OsHomework
