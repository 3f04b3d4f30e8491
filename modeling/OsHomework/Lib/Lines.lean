import Mathlib.Data.List.TakeWhile
import Mathlib.Tactic.Ring

/-!
# Lines of bounded length

A sequence is read line by line: a line ends with the first separator, or after `k` elements.

* `cutLine sep k l`: the first line of `l`, with its separator, and what follows it;
* `Complete sep k a`: a line that has not been cut off by the end of the sequence;
* `StartsLine sep k pre`: a line begins after `pre`. Beyond the last separator the lines are `k` long;
* **`isLineOf_iff`**: the lines of a sequence are its first line and the lines of what follows;
* `linesOf sep k l`: all of them, in order.
-/

set_option autoImplicit false

namespace OsHomework

variable {α : Type} [DecidableEq α] (sep : α) (k : ℕ)

/-- The first line of a sequence, and what follows it. -/
def cutLine : ℕ → List α → List α × List α
  | 0, l => ([], l)
  | _ + 1, [] => ([], [])
  | k + 1, a :: l => if a = sep then ([a], l) else (a :: (cutLine k l).1, (cutLine k l).2)

/-- The line ends with a separator, or it is as long as a line may be. -/
def Complete (a : List α) : Prop := a.getLast? = some sep ∨ a.length = k

/-- A line begins after `pre`. -/
def StartsLine (pre : List α) : Prop := k ∣ (pre.reverse.takeWhile (· ≠ sep)).length

instance (a : List α) : Decidable (Complete sep k a) := by unfold Complete; infer_instance

instance (pre : List α) : Decidable (StartsLine sep k pre) := by unfold StartsLine; infer_instance

section Cut

variable {sep k} {a b l : List α}

omit [DecidableEq α] in
theorem complete_cons {c : α} (hc : c ≠ sep) : Complete sep (k + 1) (c :: a) ↔ Complete sep k a := by
  unfold Complete
  rw [List.length_cons, Nat.add_right_cancel_iff]
  cases a with
  | nil => simp [hc]
  | cons d a => rw [List.getLast?_cons_cons]

theorem cutLine_append (sep : α) (k : ℕ) (l : List α) : (cutLine sep k l).1 ++ (cutLine sep k l).2 = l := by
  induction l generalizing k with
  | nil => cases k <;> rfl
  | cons c l ih =>
    cases k with
    | zero => rfl
    | succ k =>
      rw [cutLine]
      split_ifs
      · rfl
      · rw [List.cons_append, ih]

theorem length_cutLine_le (sep : α) (k : ℕ) (l : List α) : (cutLine sep k l).1.length ≤ k := by
  induction l generalizing k with
  | nil => cases k <;> simp [cutLine]
  | cons c l ih =>
    cases k with
    | zero => rfl
    | succ k =>
      rw [cutLine]
      split_ifs
      · simp
      · simpa using ih k

theorem cutLine_ne_nil (hk : 0 < k) (hl : l ≠ []) : (cutLine sep k l).1 ≠ [] := by
  obtain ⟨k, rfl⟩ : ∃ j, k = j + 1 := ⟨k - 1, by omega⟩
  cases l with
  | nil => exact absurd rfl hl
  | cons c l =>
    rw [cutLine]
    split_ifs <;> simp

theorem notMem_dropLast_cutLine (sep : α) (k : ℕ) (l : List α) : sep ∉ (cutLine sep k l).1.dropLast := by
  induction l generalizing k with
  | nil => cases k <;> simp [cutLine]
  | cons c l ih =>
    cases k with
    | zero => simp [cutLine]
    | succ k =>
      rw [cutLine]
      split_ifs with hc
      · simp
      · cases hline : (cutLine sep k l).1 with
        | nil => simp
        | cons d r =>
          have := ih k
          rw [hline] at this
          simp only [List.dropLast_cons_cons, List.mem_cons, not_or]
          exact ⟨fun e => hc e.symm, this⟩

theorem cutLine_of_not_complete (h : ¬ Complete sep k (cutLine sep k l).1) :
    (cutLine sep k l).1 = l ∧ (cutLine sep k l).2 = [] ∧ sep ∉ l := by
  induction l generalizing k with
  | nil =>
    cases k with
    | zero => exact absurd (.inr rfl) h
    | succ k => exact ⟨rfl, rfl, List.not_mem_nil⟩
  | cons c l ih =>
    cases k with
    | zero => exact absurd (.inr rfl) h
    | succ k =>
      rw [cutLine] at h ⊢
      split_ifs at h ⊢ with hc
      · exact absurd (.inl (by rw [hc]; rfl)) h
      · obtain ⟨h₁, h₂, h₃⟩ := ih fun hrest => h ((complete_cons hc).mpr hrest)
        refine ⟨by rw [h₁], h₂, ?_⟩
        simp only [List.mem_cons, not_or]
        exact ⟨fun e => hc e.symm, h₃⟩

/-- A line that is there in full is the first line. -/
theorem cutLine_of_complete (hlen : a.length ≤ k) (hc : Complete sep k a) (hs : sep ∉ a.dropLast) :
    cutLine sep k (a ++ b) = (a, b) := by
  induction a generalizing k with
  | nil =>
    rcases hc with hc | hc
    · cases hc
    · obtain rfl : k = 0 := hc.symm
      rfl
  | cons c a ih =>
    obtain ⟨k, rfl⟩ : ∃ j, k = j + 1 := ⟨k - 1, by simp at hlen; omega⟩
    rw [List.cons_append, cutLine]
    cases a with
    | nil =>
      split_ifs with hcs
      · rfl
      · rcases (complete_cons hcs).mp hc with hc | hc
        · cases hc
        · obtain rfl : k = 0 := hc.symm
          rfl
    | cons d a =>
      simp only [List.dropLast_cons_cons, List.mem_cons, not_or] at hs
      have hcs : c ≠ sep := Ne.symm hs.1
      rw [if_neg hcs, ih (by simpa using hlen) ((complete_cons hcs).mp hc) hs.2]

theorem cutLine_line (sep : α) (k : ℕ) (l : List α) :
    cutLine sep k (cutLine sep k l).1 = ((cutLine sep k l).1, []) := by
  by_cases hc : Complete sep k (cutLine sep k l).1
  · have h := cutLine_of_complete (b := []) (length_cutLine_le sep k l) hc (notMem_dropLast_cutLine sep k l)
    rwa [List.append_nil] at h
  · obtain ⟨h₁, h₂, -⟩ := cutLine_of_not_complete hc
    rw [h₁]
    exact Prod.ext h₁ h₂

end Cut

section Starts

variable {sep k} {a b l pre w : List α}

theorem startsLine_nil : StartsLine sep k [] := by
  simp [StartsLine]

theorem takeWhile_reverse_of_notMem (h : sep ∉ a) : a.reverse.takeWhile (· ≠ sep) = a.reverse := by
  rw [List.takeWhile_eq_self_iff]
  intro c hc
  simp only [ne_eq, decide_not, Bool.not_eq_true', decide_eq_false_iff_not]
  rintro rfl
  exact h (List.mem_reverse.mp hc)

theorem tail_append (a b : List α) : (a ++ b).reverse.takeWhile (· ≠ sep) =
    if sep ∈ b then b.reverse.takeWhile (· ≠ sep) else b.reverse ++ a.reverse.takeWhile (· ≠ sep) := by
  rw [List.reverse_append, List.takeWhile_append]
  split_ifs with h₁ h₂ h₂
  · have hall := List.takeWhile_eq_self_iff.mp
      ((List.takeWhile_prefix _).eq_of_length h₁) sep (List.mem_reverse.mpr h₂)
    simp at hall
  · rfl
  · rfl
  · exact absurd (by rw [takeWhile_reverse_of_notMem h₂]) h₁

/-- **After a complete line, the count starts again.** -/
theorem startsLine_append (ha : Complete sep k a) (hs : sep ∉ a.dropLast) :
    StartsLine sep k (a ++ pre) ↔ StartsLine sep k pre := by
  unfold StartsLine
  rw [tail_append]
  split_ifs with hpre
  · rfl
  · rw [takeWhile_reverse_of_notMem hpre, List.length_append]
    by_cases hlast : a.getLast? = some sep
    · -- the line ends with the separator
      obtain ⟨r, rfl⟩ := List.getLast?_eq_some_iff.mp hlast
      simp
    · have hlen := ha.resolve_left hlast
      have hno : sep ∉ a := by
        intro hmem
        rw [← List.dropLast_concat_getLast (List.ne_nil_of_mem hmem), List.mem_append,
          List.mem_singleton] at hmem
        rcases hmem with hmem | hmem
        · exact hs hmem
        · exact hlast (by rw [hmem]; exact List.getLast?_eq_some_getLast _)
      rw [takeWhile_reverse_of_notMem hno, List.length_reverse, List.length_reverse, hlen, Nat.dvd_add_self_right]

/-- `w` is a line of `l`: it ends with its separator and begins where a line begins. -/
def IsLineOf (sep : α) (k : ℕ) (w l : List α) : Prop := ∃ pre post, l = pre ++ w ++ post ∧ StartsLine sep k pre

/-- **The lines of a sequence**: its first line, and the lines of what follows. -/
theorem isLineOf_iff (hw : w.getLast? = some sep) (hlen : w.length ≤ k) (hs : sep ∉ w.dropLast) :
    IsLineOf sep k w l ↔ (cutLine sep k l).1 = w ∨
      Complete sep k (cutLine sep k l).1 ∧ IsLineOf sep k w (cutLine sep k l).2 := by
  have happ := cutLine_append sep k l
  have hdrop := notMem_dropLast_cutLine sep k l
  have hle := length_cutLine_le sep k l
  constructor
  · rintro ⟨pre, post, rfl, hpre⟩
    by_cases hnil : pre = []
    · subst hnil
      refine .inl ?_
      rw [List.nil_append, cutLine_of_complete hlen (.inl hw) hs]
    · have hsep : sep ∈ pre ++ w ++ post := by simp [List.mem_of_getLast? hw]
      have hc : Complete sep k (cutLine sep k (pre ++ w ++ post)).1 := by
        by_contra hc
        exact (cutLine_of_not_complete hc).2.2 hsep
      generalize cutLine sep k (pre ++ w ++ post) = c at happ hdrop hle hc ⊢
      obtain ⟨a, b⟩ := c
      dsimp only at happ hdrop hle hc ⊢
      rw [List.append_assoc] at happ
      rcases List.append_eq_append_iff.mp happ with ⟨m, hm, hb⟩ | ⟨m, hm, hb⟩
      · -- the first line lies before `w`
        refine .inr ⟨hc, m, post, by rw [hb, List.append_assoc], ?_⟩
        rw [hm] at hpre
        exact (startsLine_append hc hdrop).mp hpre
      · by_cases hm0 : m = []
        · rw [hm0, List.append_nil] at hm
          rw [hm0, List.nil_append] at hb
          refine .inr ⟨hc, [], post, by rw [← hb, List.nil_append], startsLine_nil⟩
        · -- `w` would begin inside the first line
          have hno : sep ∉ pre := by
            intro hmem
            rw [hm, List.dropLast_append_of_ne_nil hm0] at hdrop
            exact hdrop (List.mem_append_left _ hmem)
          unfold StartsLine at hpre
          rw [takeWhile_reverse_of_notMem hno, List.length_reverse] at hpre
          have hpos := List.length_pos_iff.mpr hm0
          have hkle := Nat.le_of_dvd (List.length_pos_iff.mpr hnil) hpre
          rw [hm, List.length_append] at hle
          omega
  · rintro (h | ⟨hc, pre, post, hl, hpre⟩)
    · exact ⟨[], (cutLine sep k l).2, by rw [List.nil_append, ← h, happ], startsLine_nil⟩
    · refine ⟨(cutLine sep k l).1 ++ pre, post, ?_, (startsLine_append hc hdrop).mpr hpre⟩
      rw [List.append_assoc, List.append_assoc, ← List.append_assoc pre, ← hl, happ]

end Starts

/-! ## All lines -/

section LinesOf

variable {sep k} {a l : List α}

theorem length_rest_lt (hk : 0 < k) (hl : l ≠ []) : (cutLine sep k l).2.length < l.length := by
  have happ := congrArg List.length (cutLine_append sep k l)
  have hpos := List.length_pos_iff.mpr (cutLine_ne_nil hk hl : (cutLine sep k l).1 ≠ [])
  rw [List.length_append] at happ
  omega

variable (sep k) in
/-- The lines of a sequence, in order. -/
def linesOf (l : List α) : List (List α) :=
  if _ : 0 < k ∧ l ≠ [] then (cutLine sep k l).1 :: linesOf (cutLine sep k l).2 else []
termination_by l.length
decreasing_by next h => exact length_rest_lt h.1 h.2

theorem linesOf_nil : linesOf sep k [] = [] := by
  rw [linesOf, dif_neg fun h => h.2 rfl]

theorem linesOf_of_ne_nil (hk : 0 < k) (hl : l ≠ []) :
    linesOf sep k l = (cutLine sep k l).1 :: linesOf sep k (cutLine sep k l).2 := by
  rw [linesOf, dif_pos ⟨hk, hl⟩]

theorem linesOf_append (hne : a ≠ []) (hlen : a.length ≤ k) (hc : Complete sep k a) (hs : sep ∉ a.dropLast) :
    linesOf sep k (a ++ l) = a :: linesOf sep k l := by
  have hk : 0 < k := (List.length_pos_iff.mpr hne).trans_le hlen
  rw [linesOf_of_ne_nil hk (List.append_ne_nil_of_left_ne_nil hne l), cutLine_of_complete hlen hc hs]

theorem flatten_linesOf (hk : 0 < k) (l : List α) : (linesOf sep k l).flatten = l := by
  induction hn : l.length using Nat.strong_induction_on generalizing l with
  | _ n ih =>
    by_cases hl : l = []
    · rw [hl, linesOf_nil]
      rfl
    · have hlt : (cutLine sep k l).2.length < n := by
        rw [← hn]
        exact length_rest_lt hk hl
      rw [linesOf_of_ne_nil hk hl, List.flatten_cons, ih _ hlt _ rfl, cutLine_append]

end LinesOf

end OsHomework
