import Mathlib.Algebra.BigOperators.Group.Finset.Basic
import Mathlib.Algebra.BigOperators.Group.Finset.Piecewise
import Mathlib.Data.Finset.Lattice.Fold
import Mathlib.Tactic.Abel

/-!
# Trees of parent pointers

A finite set on which a function leads from every element to one root.

* `Rooted s parent root`, with **`Rooted.induction`**, from the root down, and **`Rooted.induction_up`**, from the
  children to their parent;
* `Above parent root a b`: `a` is `b` or one of its ancestors. `above_iff`: one step from below,
  `Rooted.above_iff_child`: one step from above;
* `sumAbove s parent root f b`: the sum over `b` and its ancestors. **`Rooted.sumAbove_step`**: what one step adds;
  **`sumAbove_update`**: what a change of one value adds.
-/

set_option autoImplicit false

namespace OsHomework

variable {α : Type} {s : Finset α} {parent : α → α} {root a b c : α}

/-- `s` is a tree: from each of its elements the parents lead to the root. -/
structure Rooted (s : Finset α) (parent : α → α) (root : α) : Prop where
  root_mem : root ∈ s
  parent_mem : ∀ a ∈ s, a ≠ root → parent a ∈ s
  exists_depth : ∃ depth : α → ℕ, ∀ a ∈ s, a ≠ root → depth (parent a) < depth a

/-- `a` is `b` or one of its ancestors. -/
inductive Above (parent : α → α) (root a : α) : α → Prop where
  | refl : Above parent root a a
  | up {b : α} (hb : b ≠ root) (h : Above parent root a (parent b)) : Above parent root a b

section Above

theorem above_root_iff : Above parent root a root ↔ a = root := by
  constructor
  · intro h
    cases h with
    | refl => rfl
    | up hb _ => exact absurd rfl hb
  · rintro rfl
    exact .refl

theorem above_iff (hb : b ≠ root) : Above parent root a b ↔ a = b ∨ Above parent root a (parent b) := by
  constructor
  · intro h
    cases h with
    | refl => exact .inl rfl
    | up _ h => exact .inr h
  · rintro (rfl | h)
    · exact .refl
    · exact .up hb h

theorem Above.trans (hab : Above parent root a b) (hbc : Above parent root b c) : Above parent root a c := by
  induction hbc with
  | refl => exact hab
  | up hb _ ih => exact .up hb ih

theorem above_iff_child : Above parent root a b ↔
    a = b ∨ ∃ c, c ≠ root ∧ parent c = a ∧ Above parent root c b := by
  constructor
  · intro h
    induction h with
    | refl => exact .inl rfl
    | @up b hb h ih =>
      rcases ih with rfl | ⟨c, hc, hca, hcb⟩
      · exact .inr ⟨b, hb, rfl, .refl⟩
      · exact .inr ⟨c, hc, hca, .up hb hcb⟩
  · rintro (rfl | ⟨c, hc, rfl, hcb⟩)
    · exact .refl
    · exact Above.trans (.up hc .refl) hcb

end Above

namespace Rooted

variable (h : Rooted s parent root)
include h

/-- **From the root down.** -/
theorem induction {P : α → Prop} (hroot : P root) (hstep : ∀ a ∈ s, a ≠ root → P (parent a) → P a) :
    ∀ a ∈ s, P a := by
  obtain ⟨depth, hdepth⟩ := h.exists_depth
  intro a
  induction hn : depth a using Nat.strong_induction_on generalizing a with
  | _ n ih =>
    intro ha
    by_cases hr : a = root
    · rwa [hr]
    · exact hstep a ha hr (ih _ (hn ▸ hdepth a ha hr) _ rfl (h.parent_mem a ha hr))

/-- **From the children to their parent.** -/
theorem induction_up {P : α → Prop} (hstep : ∀ a ∈ s, (∀ c ∈ s, c ≠ root → parent c = a → P c) → P a) :
    ∀ a ∈ s, P a := by
  obtain ⟨depth, hdepth⟩ := h.exists_depth
  have hbound : ∀ a ∈ s, depth a ≤ s.sup depth := fun a ha => Finset.le_sup ha
  intro a
  induction hn : s.sup depth - depth a using Nat.strong_induction_on generalizing a with
  | _ n ih =>
    intro ha
    refine hstep a ha fun c hc hr hca => ih _ ?_ c rfl hc
    have hlt := hdepth c hc hr
    rw [hca] at hlt
    have := hbound c hc
    omega

theorem mem_of_above (hab : Above parent root a b) (hb : b ∈ s) : a ∈ s := by
  induction hab with
  | refl => exact hb
  | up hr _ ih => exact ih (h.parent_mem _ hb hr)

theorem not_above_parent (hb : b ∈ s) (hr : b ≠ root) : ¬ Above parent root b (parent b) := by
  obtain ⟨depth, hdepth⟩ := h.exists_depth
  have hle : ∀ a c, Above parent root a c → c ∈ s → depth a ≤ depth c := by
    intro a c hac
    induction hac with
    | refl => exact fun _ => le_rfl
    | up hc _ ih => exact fun hcs => (ih (h.parent_mem _ hcs hc)).trans (hdepth _ hcs hc).le
  intro hab
  exact (hle b (parent b) hab (h.parent_mem b hb hr)).not_gt (hdepth b hb hr)

end Rooted

/-! ## Sums -/

section Sums

variable {M : Type} [AddCommMonoid M] {f : α → M}

open Classical in
/-- The sum over an element and its ancestors. -/
noncomputable def sumAbove (s : Finset α) (parent : α → α) (root : α) (f : α → M) (b : α) : M :=
  ∑ a ∈ s with Above parent root a b, f a

theorem Rooted.sumAbove_root (h : Rooted s parent root) : sumAbove s parent root f root = f root := by
  classical
  have hset : s.filter (fun a => Above parent root a root) = {root} := by
    ext a
    simp only [Finset.mem_filter, Finset.mem_singleton, above_root_iff, and_iff_right_iff_imp]
    rintro rfl
    exact h.root_mem
  unfold sumAbove
  rw [Finset.filter_congr_decidable, hset, Finset.sum_singleton]

/-- **One step down** adds the value there. -/
theorem Rooted.sumAbove_step (h : Rooted s parent root) (hb : b ∈ s) (hr : b ≠ root) :
    sumAbove s parent root f b = f b + sumAbove s parent root f (parent b) := by
  classical
  have hset : s.filter (fun a => Above parent root a b) =
      insert b (s.filter fun a => Above parent root a (parent b)) := by
    ext a
    simp only [Finset.mem_filter, Finset.mem_insert, above_iff hr]
    constructor
    · rintro ⟨ha, rfl | hab⟩
      · exact .inl rfl
      · exact .inr ⟨ha, hab⟩
    · rintro (rfl | ⟨ha, hab⟩)
      · exact ⟨hb, .inl rfl⟩
      · exact ⟨ha, .inr hab⟩
  have hnot : b ∉ s.filter fun a => Above parent root a (parent b) :=
    fun hmem => h.not_above_parent hb hr (Finset.mem_filter.mp hmem).2
  unfold sumAbove
  rw [Finset.filter_congr_decidable, hset, Finset.sum_insert hnot]

end Sums

open Classical in
/-- **A change of one value** changes the sums below it, by the difference. -/
theorem sumAbove_update [DecidableEq α] {M : Type} [AddCommGroup M] {f : α → M} (ha : a ∈ s) (v : M) (b : α) :
    sumAbove s parent root (Function.update f a v) b =
      sumAbove s parent root f b + if Above parent root a b then v - f a else 0 := by
  unfold sumAbove
  split_ifs with hab
  · have hmem : a ∈ s.filter fun c => Above parent root c b := Finset.mem_filter.mpr ⟨ha, hab⟩
    rw [Finset.sum_update_of_mem hmem, Finset.sum_eq_add_sum_sdiff_singleton_of_mem hmem f]
    abel
  · have hmem : a ∉ s.filter fun c => Above parent root c b := fun h => hab (Finset.mem_filter.mp h).2
    rw [Finset.sum_update_of_notMem hmem, add_zero]

end OsHomework
