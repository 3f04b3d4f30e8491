import Mathlib.Tactic.Common
import OsHomework.Lib.Run

/-!
# Runs that come to an end

* `Final step t`: no step leads on from `t`;
* **`Run.length_add_le`**: if every step lowers a measure, a run has no more steps than the measure allows;
* **`exists_run_final`**: and every run can be carried on to a final state;
* **`Run.countP_add_le`**: a potential bounds the number of the steps that it pays for by the number of those that pay
  in.

For the first two, the steps need to lower the measure in the states of an invariant only.
-/

set_option autoImplicit false

namespace OsHomework

variable {S L : Type} {step : S → L → S → Prop} {I : S → Prop} {μ : S → ℕ} {s t : S} {ls : List L}

/-- No step leads on from `t`. -/
def Final (step : S → L → S → Prop) (t : S) : Prop := ∀ l u, ¬ step t l u

/-- **Every step costs something**: a run is no longer than the measure at its start. -/
theorem Run.length_add_le (h : Run step s ls t) (hs : I s)
    (hstep : ∀ t l u, I t → step t l u → I u ∧ μ u < μ t) : ls.length + μ t ≤ μ s := by
  have hboth : I t ∧ ls.length + μ t ≤ μ s := by
    induction h with
    | nil => exact ⟨hs, by simp⟩
    | snoc _ hl ih =>
      obtain ⟨hi, hle⟩ := ih
      obtain ⟨hi', hlt⟩ := hstep _ _ _ hi hl
      refine ⟨hi', ?_⟩
      rw [List.length_append, List.length_singleton]
      omega
  exact hboth.2

/-- **Every run can be carried on to its end.** The induction is on the measure. -/
theorem exists_run_final (hs : I s) (hstep : ∀ t l u, I t → step t l u → I u ∧ μ u < μ t) :
    ∃ ls t, Run step s ls t ∧ Final step t := by
  induction hn : μ s using Nat.strongRecOn generalizing s with
  | ind n ih =>
    by_cases hfinal : Final step s
    · exact ⟨[], s, .nil s, hfinal⟩
    · unfold Final at hfinal
      push Not at hfinal
      obtain ⟨l, u, hl⟩ := hfinal
      obtain ⟨hi, hlt⟩ := hstep s l u hs hl
      obtain ⟨ls, t, hrun, ht⟩ := ih (μ u) (hn ▸ hlt) hi rfl
      exact ⟨l :: ls, t, hrun.cons hl, ht⟩

/-- **The potential rule**: the labels in `q` pay `c` into the potential, those in `p` take one out, and no step raises
it otherwise. -/
theorem Run.countP_add_le {p q : L → Bool} {c : ℕ} (h : Run step s ls t)
    (hstep : ∀ t l u, step t l u → (p l).toNat + μ u ≤ μ t + c * (q l).toNat) :
    ls.countP p + μ t ≤ μ s + c * ls.countP q := by
  have hcount : ∀ (r : L → Bool) (l : L), [l].countP r = (r l).toNat := by
    intro r l
    rw [List.countP_singleton]
    cases r l <;> rfl
  induction h with
  | nil => simp
  | snoc _ hl ih =>
    have hone := hstep _ _ _ hl
    rw [List.countP_append, List.countP_append, hcount, hcount, Nat.mul_add]
    omega

end OsHomework
