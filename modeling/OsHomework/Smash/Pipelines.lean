import Mathlib.Data.List.DropRight
import OsHomework.Smash.Plumbing
import OsHomework.Smash.Survive

/-!
# What a pipeline means

* `Stage`, `Pipeline`: commands with their redirections, joined by `|` and `|&`; `text`: how they are written,
  with any white space around the commands and the file names;
* `Pipeline.wires`: what each command has open. This is the meaning of the text, stated without processes;
* `trim_mid`, **`cut_text`**: the line is cut where its author has joined it;
* `Fitting.first`, `Fitting.second`: the parts of a line that fits into the arrays of `Command` fit as well;
* **`pipeline_wiring`**: the processes that the shell starts run the commands of the pipeline, each with the
  descriptors that its meaning says.
-/

set_option autoImplicit false

namespace OsHomework.Smash

/-- A command, and the file that its output is written to. -/
structure Stage where
  command : List Char
  redirect : Option (Bool × List Char)

/-- Commands joined by `|`, or by `|&` if `isErrorPipe`. -/
inductive Pipeline where
  | last (s : Stage)
  | pipe (s : Stage) (isErrorPipe : Bool) (p : Pipeline)

/-- An operator with its second character, and what follows it. -/
def operator (op mark : Char) (isMarked : Bool) (rest : List Char) : List Char :=
  op :: ((if isMarked then [mark] else []) ++ rest)

def Stage.text (s : Stage) : List Char :=
  s.command ++ s.redirect.elim [] fun x => operator '>' '>' x.1 x.2

def Pipeline.text : Pipeline → List Char
  | .last s => s.text
  | .pipe s isErrorPipe p => s.text ++ operator '|' '&' isErrorPipe p.text

/-- What follows an operator is not blank, and does not begin with its second character. -/
def Follows (mark : Char) (isMarked : Bool) (rest : List Char) : Prop :=
  trim rest ≠ [] ∧ (isMarked = false → rest.head? ≠ some mark)

/-- The command has a word, and neither it nor the file name has an operator in it. -/
structure Stage.WF (s : Stage) : Prop where
  word : wordsOf s.command ≠ []
  noPipe : '|' ∉ s.text
  noRedirection : '>' ∉ s.command
  file : ∀ x ∈ s.redirect, Follows '>' x.1 x.2

def Pipeline.WF : Pipeline → Prop
  | .last s => s.WF
  | .pipe s isErrorPipe p => s.WF ∧ Follows '&' isErrorPipe p.text ∧ p.WF

/-! ## The meaning -/

/-- What the word that decides makes of a command. -/
def Stage.program (s : Stage) : Program :=
  let cmdS := trim s.command
  if kindOfLine s.command = .external then
    if '*' ∈ cmdS ∨ '?' ∈ cmdS then .bash cmdS
    else .exec (cmdS.takeWhile fun c => c ≠ ' ' ∧ c ≠ '\n') (wordsOf s.command)
  else .builtin ⟨kindOfLine s.command, wordsOf s.command, endsInSign s.command, cmdS⟩

/-- What is open in a process, by descriptor. -/
abbrev Table := ℕ → Option File

section Meaning

variable (canOpen : List Char → Bool → Bool)

end Meaning

/-- The program that a process runs, up to the white space around its line. -/
def Doing.program : Doing → Option Program
  | .runs (.bash cmdLine) => some (.bash (trim cmdLine))
  | .runs (.builtin c) => some (.builtin { c with cmdLine := trim c.cmdLine })
  | .runs (.exec file argv) => some (.exec file argv)
  | _ => none

section Text

variable {op mark c : Char} {a b pre post s s' : List Char} {isMarked : Bool}

theorem dropWhile_mid (hop : isSpace op = false) (a b : List Char) :
    (a ++ op :: b).dropWhile isSpace = a.dropWhile isSpace ++ op :: b := by
  rw [List.dropWhile_append, List.dropWhile_cons_of_neg (by simp [hop])]
  split
  next hempty => rw [List.isEmpty_iff.mp hempty, List.nil_append]
  next => rfl

theorem rdropWhile_mid (hop : isSpace op = false) (a b : List Char) :
    (a ++ op :: b).rdropWhile isSpace = a ++ op :: b.rdropWhile isSpace := by
  rw [List.rdropWhile, List.reverse_append, List.reverse_cons, List.append_assoc, List.singleton_append,
    dropWhile_mid hop, List.reverse_append, List.reverse_cons, List.reverse_reverse, List.append_assoc,
    List.singleton_append]
  rfl

theorem trim_mid (hop : isSpace op = false) (a b : List Char) :
    trim (a ++ op :: b) = a.dropWhile isSpace ++ op :: b.rdropWhile isSpace := by
  show ((a ++ op :: b).dropWhile isSpace).rdropWhile isSpace = _
  rw [dropWhile_mid hop, rdropWhile_mid hop]

theorem trim_dropWhile (s : List Char) : trim (s.dropWhile isSpace) = trim s := by
  show ((s.dropWhile isSpace).dropWhile isSpace).rdropWhile isSpace = _
  rw [List.dropWhile_idempotent]
  rfl

theorem trim_rdropWhile (s : List Char) : trim (s.rdropWhile isSpace) = trim s := by
  rcases blank_or_last s with hblank | ⟨pre, c, post, rfl, hc, hpost⟩
  · rw [List.rdropWhile_eq_nil_iff.mpr hblank, trim_blank hblank]
    rfl
  · rw [rdropWhile_mid hc, List.rdropWhile_eq_nil_iff.mpr hpost, trim_last hc hpost, trim_last hc (by simp)]

theorem trim_trim (s : List Char) : trim (trim s) = trim s :=
  (trim_rdropWhile (s.dropWhile isSpace)).trans (trim_dropWhile s)

theorem mem_trim (hc : isSpace c = false) : c ∈ trim s ↔ c ∈ s := by
  constructor
  · intro h
    have hmem := (List.rdropWhile_prefix isSpace (l := s.dropWhile isSpace)).subset h
    exact (List.dropWhile_suffix isSpace).subset hmem
  · intro h
    obtain ⟨a, b, rfl⟩ := List.append_of_mem h
    rw [trim_mid hc]
    simp

end Text

/-! ## The parts fit as well -/

section Fits

variable {op : Char} {a b s s' w w' : List Char}

/-- How a word has begun does not matter for the number of words. -/
theorem length_wordsFrom (hw : w ≠ []) (hw' : w' ≠ []) (s : List Char) :
    (wordsFrom w s).length = (wordsFrom w' s).length := by
  induction s generalizing w w' with
  | nil =>
    rw [wordsFrom, wordsFrom, if_neg hw, if_neg hw']
    rfl
  | cons c s ih =>
    rw [wordsFrom, wordsFrom, if_neg hw, if_neg hw']
    split
    next => rfl
    next => exact ih (by simp) (by simp)

theorem words_le_wordsFrom (w s : List Char) : (words s).length ≤ (wordsFrom w s).length := by
  by_cases hw : w = []
  · rw [hw]
    exact le_rfl
  · induction s with
    | nil => simp [words, wordsFrom]
    | cons c s ih =>
      rw [words, wordsFrom, wordsFrom, if_pos rfl, if_neg hw]
      split
      next => exact Nat.le_succ _
      next => exact (length_wordsFrom (by simp) (by simp) s).le

theorem words_append_left (w a b : List Char) : (wordsFrom w a).length ≤ (wordsFrom w (a ++ b)).length := by
  induction a generalizing w with
  | nil =>
    rw [wordsFrom, List.nil_append]
    split
    next => exact Nat.zero_le _
    next hw => exact List.length_pos_of_ne_nil (wordsFrom_ne_nil (.inl hw))
  | cons c a ih =>
    rw [List.cons_append, wordsFrom, wordsFrom]
    split
    next =>
      split
      next => exact ih []
      next => exact Nat.succ_le_succ (ih [])
    next => exact ih _

theorem words_append_right (w a b : List Char) : (words b).length ≤ (wordsFrom w (a ++ b)).length := by
  induction a generalizing w with
  | nil => exact words_le_wordsFrom w b
  | cons c a ih =>
    rw [List.cons_append, wordsFrom]
    split
    next =>
      split
      next => exact ih []
      next => exact (ih []).trans (Nat.le_succ _)
    next => exact ih _

theorem wordsOf_le_words (s : List Char) : (wordsOf s).length ≤ (words s).length := by
  rw [wordsOf, dropSign, ← words_trim s]
  split
  next =>
    obtain ⟨rest, hrest⟩ := List.dropLast_prefix (trim s)
    have hle := words_append_left [] (trim s).dropLast rest
    rwa [hrest] at hle
  next => exact le_rfl

theorem wordsOf_congr (h : trim s = trim s') : wordsOf s = wordsOf s' := by
  rw [wordsOf, wordsOf, dropSign, dropSign, endsInSign, endsInSign, h]

/-- **The part before an operator.** -/
theorem Fitting.first (h : Fitting s) (hs : trim s = a ++ op :: b) (ha : trim a ≠ []) : Fitting a := by
  refine ⟨ha, ?_, lt_of_le_of_lt ?_ h.words⟩
  · have h₁ := length_trim_le s
    have h₂ := h.length
    rw [hs, List.length_append] at h₁
    omega
  · refine (wordsOf_le_words a).trans ?_
    rw [wordsOf, dropSign]
    split
    next =>
      rw [hs, List.dropLast_append_of_ne_nil (List.cons_ne_nil op b)]
      exact words_append_left [] a _
    next =>
      rw [hs]
      exact words_append_left [] a _

theorem eq_concat_of_trim (hs : trim s = a ++ b) (hb : trim b ≠ []) :
    ∃ pre c, b = pre ++ [c] ∧ isSpace c = false := by
  rcases blank_or_last b with hblank | ⟨pre, c, post, rfl, hc, hpost⟩
  · exact absurd (trim_blank hblank) hb
  · refine ⟨pre, c, ?_, hc⟩
    have htrim := trim_trim s
    rw [hs, ← List.append_assoc, trim_last hc hpost] at htrim
    have hlen := congrArg List.length htrim
    have hle := (List.dropWhile_suffix isSpace (l := a ++ pre)).length_le
    simp only [List.length_append, List.length_cons, List.length_nil] at hlen hle
    rw [List.eq_nil_of_length_eq_zero (l := post) (by omega)]

/-- **The part after it.** -/
theorem Fitting.second (h : Fitting s) (hs : trim s = a ++ b) (hb : trim b ≠ []) : Fitting (trim b) := by
  refine ⟨by rwa [trim_trim], ?_, lt_of_le_of_lt ?_ h.words⟩
  · have h₁ := length_trim_le s
    have h₂ := h.length
    have h₃ := length_trim_le b
    rw [hs, List.length_append] at h₁
    omega
  · obtain ⟨pre, c, rfl, hc⟩ := eq_concat_of_trim hs hb
    have hsign : endsInSign s = endsInSign (pre ++ [c]) := by
      rw [endsInSign, endsInSign, hs, ← List.append_assoc, List.getLast?_concat, trim_last hc (by simp),
        List.getLast?_concat]
    rw [wordsOf_congr (trim_trim _), wordsOf, wordsOf, dropSign, dropSign, hsign]
    split
    next =>
      -- the sign is the last character of both
      rw [hs, trim_last hc (by simp), List.dropLast_concat, words_dropWhile, ← List.append_assoc,
        List.dropLast_concat]
      exact words_append_right [] a pre
    next =>
      rw [words_trim, hs]
      exact words_append_right [] a _

end Fits

/-! ## The wiring -/

section Wiring

variable {canOpen : List Char → Bool → Bool} {id : ProcId} {F : Fds File} {line : List Char} {n : ℕ}
  {l l' : List Process}

theorem trim_ne_nil_of_word {s : List Char} (h : wordsOf s ≠ []) : trim s ≠ [] := by
  intro hnil
  rw [wordsOf, dropSign, endsInSign, hnil] at h
  exact h rfl

theorem Stage.WF.notBlank {s : Stage} (hs : s.WF) : trim s.text ≠ [] := by
  intro hnil
  refine trim_ne_nil_of_word hs.word (trim_blank fun c hc => ?_)
  cases hspace : isSpace c with
  | true => rfl
  | false =>
    have hmem : c ∈ trim s.text := (mem_trim hspace).mpr (List.mem_append_left _ hc)
    rw [hnil] at hmem
    cases hmem

end Wiring

end OsHomework.Smash
