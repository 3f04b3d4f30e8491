import Mathlib.Data.List.TakeWhile

/-!
# The words of a sequence

A word is a maximal piece without a separator that is not empty.

* `wordsBy p l`: the words of `l`, in order; `p` tells the separators;
* **`wordsBy_append_cons`**: a separator ends a word;
* `wordsBy_append_seps`: separators at the end are in no word;
* **`head?_wordsBy`**: the first word of a sequence that begins with one.
-/

set_option autoImplicit false

namespace OsHomework

variable {α : Type} {p : α → Bool} {l l' w : List α} {a : α}

/-- The words of a sequence. -/
def wordsBy (p : α → Bool) (l : List α) : List (List α) := (l.splitOnP p).filter fun w => !w.isEmpty

@[simp] theorem wordsBy_nil : wordsBy p [] = [] := by
  rw [wordsBy, List.splitOnP_nil]
  rfl

/-- **A separator ends a word.** -/
theorem wordsBy_append_cons (ha : p a) (l l' : List α) : wordsBy p (l ++ a :: l') = wordsBy p l ++ wordsBy p l' := by
  unfold wordsBy
  rw [List.splitOnP_append_cons l l' ha, List.filter_append]

theorem wordsBy_word (hne : w ≠ []) (h : ∀ a ∈ w, p a = false) : wordsBy p w = [w] := by
  rw [wordsBy, List.splitOnP_eq_singleton h]
  exact List.filter_cons_of_pos (by simpa using hne)

theorem wordsBy_cons (ha : p a) (l : List α) : wordsBy p (a :: l) = wordsBy p l := by
  simpa using wordsBy_append_cons ha [] l

theorem wordsBy_seps (h : ∀ a ∈ l, p a) : wordsBy p l = [] := by
  induction l with
  | nil => exact wordsBy_nil
  | cons a l ih =>
    rw [wordsBy_cons (h a List.mem_cons_self)]
    exact ih fun b hb => h b (List.mem_cons_of_mem _ hb)

theorem wordsBy_append_seps (h : ∀ a ∈ l', p a) : wordsBy p (l ++ l') = wordsBy p l := by
  cases l' with
  | nil => rw [List.append_nil]
  | cons a l' =>
    rw [wordsBy_append_cons (h a List.mem_cons_self),
      wordsBy_seps fun b hb => h b (List.mem_cons_of_mem _ hb), List.append_nil]

/-- **The first word** of a sequence that begins with one. -/
theorem head?_wordsBy (h : p a = false) (l : List α) :
    (wordsBy p (a :: l)).head? = some ((a :: l).takeWhile fun b => !p b) := by
  have hsplit := List.takeWhile_append_dropWhile (p := fun b => !p b) (l := a :: l)
  have hword : ∀ b ∈ (a :: l).takeWhile fun b => !p b, p b = false := by
    intro b hb
    simpa using List.mem_takeWhile_imp hb
  have hne : (a :: l).takeWhile (fun b => !p b) ≠ [] := by
    rw [List.takeWhile_cons_of_pos (by simp [h])]
    exact List.cons_ne_nil _ _
  generalize (a :: l).takeWhile (fun b => !p b) = w at hsplit hword hne ⊢
  cases hrest : (a :: l).dropWhile fun b => !p b with
  | nil =>
    rw [hrest, List.append_nil] at hsplit
    rw [← hsplit, wordsBy_word hne hword]
    rfl
  | cons b rest =>
    have hb : p b := by
      have hhead := List.head?_dropWhile_not (fun b => !p b) (a :: l)
      rw [hrest] at hhead
      simpa using hhead
    rw [hrest] at hsplit
    rw [← hsplit, wordsBy_append_cons hb, wordsBy_word hne hword]
    rfl

end OsHomework
