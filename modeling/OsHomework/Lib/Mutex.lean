import Mathlib.Tactic.Common

/-!
# Locks

A lock has an owner or none, and threads are at program points where they hold it or do not.

* `Owned owner holds`: the owner of the lock is exactly the thread that is where the lock is held;
* **`Owned.exclusive`**: at most one thread is there;
* `Turn`: a step of one thread leaves the lock alone, locks it when it is free, or unlocks it;
* **`Owned.turn`**: the rule for such a step.
-/

set_option autoImplicit false

namespace OsHomework

variable {τ : Type} {owner : Option τ} {holds holds' : τ → Bool} {t u : τ}

/-- The owner of the lock is the one thread that is where the lock is held. -/
def Owned (owner : Option τ) (holds : τ → Bool) : Prop := ∀ t, holds t = true ↔ owner = some t

/-- **Mutual exclusion.** -/
theorem Owned.exclusive (h : Owned owner holds) (ht : holds t = true) (hu : holds u = true) : t = u :=
  Option.some.inj (((h t).mp ht).symm.trans ((h u).mp hu))

theorem Owned.not_holds (h : Owned none holds) (t : τ) : holds t = false :=
  Bool.eq_false_iff.mpr fun ht => Option.some_ne_none t ((h t).mp ht).symm

/-- What a step of `t` does with the lock: its owner and whether `t` holds it, before and after. -/
inductive Turn (t : τ) : Option τ → Bool → Option τ → Bool → Prop
  | keep (owner : Option τ) (b : Bool) : Turn t owner b owner b
  | acquire (b : Bool) : Turn t none b (some t) true
  | release (owner : Option τ) : Turn t owner true none false

/-- **A step of one thread.** -/
theorem Owned.turn {owner' : Option τ} (h : Owned owner holds)
    (hturn : Turn t owner (holds t) owner' (holds' t)) (hother : ∀ u, u ≠ t → holds' u = holds u) :
    Owned owner' holds' := by
  intro u
  generalize hb : holds t = b at hturn
  generalize hb' : holds' t = b' at hturn
  cases hturn with
  | keep =>
    by_cases hu : u = t
    · rw [hu, hb', ← hb, h t]
    · rw [hother u hu, h u]
  | acquire =>
    by_cases hu : u = t
    · rw [hu, hb']
      exact iff_of_true rfl rfl
    · rw [hother u hu, h.not_holds u]
      exact iff_of_false Bool.false_ne_true fun heq => hu (Option.some.inj heq).symm
  | release =>
    refine iff_of_false (fun hu => ?_) (Option.some_ne_none u).symm
    by_cases hut : u = t
    · rw [hut, hb'] at hu
      exact Bool.false_ne_true hu
    · rw [hother u hut] at hu
      exact hut (h.exclusive hu hb)

end OsHomework
