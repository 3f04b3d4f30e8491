import Mathlib.Data.List.DropRight
import OsHomework.Lib.Logged
import OsHomework.Lib.Words
import OsHomework.Smash.Parse

/-!
# What the constructor makes of a line

`Command::Command` against a plain split into words, and the indices that it uses.

* `lastNonSpace`, `withoutSign`: the last character of a line that is no white space, and the line with that
  character deleted if it is `&`;
* **`argument_vector`**: `argv` is the list of words of that line;
* `Access`: an index into an array. `Indexed.newCommand` is the constructor with a log of these;
* **`indices_in_bounds_iff`**: they are in bounds exactly if the line is not blank and has less than
  `COMMAND_MAX_ARGS` words;
* `twenty_words_overflow`: a line of twenty words.
-/

set_option autoImplicit false

namespace OsHomework.Smash

/-! ## Words -/

/-- The extraction from the stream is a split into words. -/
theorem wordsFrom_eq {w : List Char} (hw : ∀ c ∈ w, isSpace c = false) (s : List Char) :
    wordsFrom w s = wordsBy isSpace (w ++ s) := by
  induction s generalizing w with
  | nil =>
    rw [wordsFrom, List.append_nil]
    split
    next h => rw [h, wordsBy_nil]
    next h => rw [wordsBy_word h hw]
  | cons c s ih =>
    rw [wordsFrom]
    split
    next hc =>
      have hnil : wordsFrom [] s = wordsBy isSpace s := ih (by simp)
      rw [wordsBy_append_cons hc, hnil]
      split
      next h => rw [h, wordsBy_nil, List.nil_append]
      next h => rw [wordsBy_word h hw, List.singleton_append]
    next hc =>
      have hword : ∀ d ∈ w ++ [c], isSpace d = false := by
        intro d hd
        rcases List.mem_append.mp hd with hd | hd
        · exact hw d hd
        · rw [List.mem_singleton.mp hd]
          exact Bool.eq_false_of_not_eq_true hc
      rw [ih hword, List.append_assoc, List.singleton_append]

theorem words_eq (s : List Char) : words s = wordsBy isSpace s := wordsFrom_eq (by simp) s

/-! ## The argument vector -/

/-- The last character that is no white space. -/
def lastNonSpace (line : List Char) : Option Char := line.reverse.find? fun c => !isSpace c

/-- The line with that character deleted, if it is the sign. -/
def withoutSign (line : List Char) : List Char :=
  if lastNonSpace line = some '&' then (line.rdropWhile isSpace).dropLast ++ line.rtakeWhile isSpace else line

section Vector

variable {pre post line : List Char} {c : Char}

theorem lastNonSpace_last (hc : isSpace c = false) (hpost : ∀ d ∈ post, isSpace d) :
    lastNonSpace (pre ++ c :: post) = some c := by
  have hnone : post.reverse.find? (fun c => !isSpace c) = none := by
    rw [List.find?_eq_none]
    intro d hd
    simp [hpost d (List.mem_reverse.mp hd)]
  rw [lastNonSpace, List.reverse_append, List.reverse_cons, List.append_assoc, List.find?_append, hnone]
  simp [hc]

theorem lastNonSpace_blank (h : ∀ d ∈ line, isSpace d) : lastNonSpace line = none := by
  rw [lastNonSpace, List.find?_eq_none]
  intro d hd
  simp [h d (List.mem_reverse.mp hd)]

/-- The sign is deleted, and nothing else. -/
theorem withoutSign_sign (hpost : ∀ d ∈ post, isSpace d) : withoutSign (pre ++ '&' :: post) = pre ++ post := by
  have hall : ∀ d ∈ post.reverse, isSpace d := fun d hd => hpost d (List.mem_reverse.mp hd)
  have hdrop : (pre ++ '&' :: post).rdropWhile isSpace = pre ++ ['&'] := by
    rw [List.rdropWhile, List.reverse_append, List.reverse_cons, List.append_assoc,
      List.dropWhile_append_of_pos hall, List.singleton_append, List.dropWhile_cons_of_neg (by decide),
      List.reverse_cons, List.reverse_reverse]
  have htake : (pre ++ '&' :: post).rtakeWhile isSpace = post := by
    rw [List.rtakeWhile, List.reverse_append, List.reverse_cons, List.append_assoc,
      List.takeWhile_append_of_pos hall, List.singleton_append, List.takeWhile_cons_of_neg (by decide),
      List.append_nil, List.reverse_reverse]
  rw [withoutSign, if_pos (lastNonSpace_last (by decide) hpost), hdrop, htake, List.dropLast_concat]

theorem withoutSign_of_ne (h : lastNonSpace line ≠ some '&') : withoutSign line = line := if_neg h

theorem endsInSign_iff (line : List Char) : endsInSign line = true ↔ lastNonSpace line = some '&' := by
  rw [endsInSign, decide_eq_true_eq]
  rcases blank_or_last line with hblank | ⟨pre, c, post, rfl, hc, hpost⟩
  · rw [trim_blank hblank, lastNonSpace_blank hblank]
    rfl
  · rw [trim_last hc hpost, lastNonSpace_last hc hpost, List.getLast?_concat]

theorem wordsBy_trim (s : List Char) : wordsBy isSpace (trim s) = wordsBy isSpace s := by
  rw [← words_eq, ← words_eq, words_trim]

theorem wordsOf_eq (line : List Char) : wordsOf line = wordsBy isSpace (withoutSign line) := by
  rw [wordsOf, words_eq, dropSign]
  split
  next hsign =>
    rcases blank_or_last line with hblank | ⟨pre, c, post, rfl, hc, hpost⟩
    · rw [endsInSign_iff, lastNonSpace_blank hblank] at hsign
      cases hsign
    · rw [endsInSign_iff, lastNonSpace_last hc hpost] at hsign
      cases hsign
      rw [trim_last hc hpost, List.dropLast_concat, withoutSign_sign hpost, wordsBy_append_seps hpost,
        ← words_eq, ← words_eq, words_dropWhile]
  next hsign =>
    rw [wordsBy_trim, withoutSign_of_ne fun h => hsign ((endsInSign_iff line).mpr h)]

/-- **The argument vector**: for a line that is not blank and keeps to the limits, the sign is found exactly
if it is the last character that is no white space, and `argv` is the list of words without it. -/
theorem argument_vector (kind : Kind) (hchar : ∃ c ∈ line, isSpace c = false)
    (hlength : line.length ≤ commandArgsMaxLength)
    (hwords : (wordsBy isSpace (withoutSign line)).length < commandMaxArgs) :
    ∃ c, newCommand kind line = .ret c ∧ (c.isBackground = true ↔ lastNonSpace line = some '&') ∧
      c.argv = wordsBy isSpace (withoutSign line) := by
  have hne : trim line ≠ [] := by
    rcases blank_or_last line with hblank | ⟨pre, c, post, rfl, hc, hpost⟩
    · obtain ⟨c, hmem, hc⟩ := hchar
      rw [hblank c hmem] at hc
      cases hc
    · rw [trim_last hc hpost]
      simp
  rw [← wordsOf_eq] at hwords ⊢
  refine ⟨_, (newCommand_eq kind line).trans (if_pos ⟨hne, hlength, hwords⟩), ?_, rfl⟩
  exact endsInSign_iff line

theorem argument_vector_sleep : ∃ c, newCommand .external " sleep\t10& ".toList = .ret c ∧
    (c.isBackground = true ↔ lastNonSpace " sleep\t10& ".toList = some '&') ∧
      c.argv = wordsBy isSpace (withoutSign " sleep\t10& ".toList) :=
  argument_vector .external ⟨'s', by decide, by decide⟩ (by decide) (by decide)

end Vector

/-! ## The indices -/

/-- An index that is used in an array. -/
structure Access where
  size : ℕ
  index : ℕ
  deriving DecidableEq

def Access.InBounds (a : Access) : Prop := a.index < a.size

open Logged

/-- Log the use of an index. -/
def access (size index : ℕ) : Logged Access Unit := ⟨[⟨size, index⟩], .ret ()⟩

namespace Indexed

/-- A string of the library may be read at its terminator. -/
def isBackgroundCommand (cmdLine : List Char) : Logged Access Bool := do
  access (cmdLine.length + 1) (findLastNotOf cmdLine)
  lift (Smash.isBackgroundCommand cmdLine)

/-- The terminator is the last that is written. -/
def strcpy (size : ℕ) (src : List Char) : Logged Access (List Char) := do
  access size src.length
  lift (Smash.strcpy size src)

/-- `cmd_line` is the copy. -/
def removeBackgroundSign (cmdLine : List Char) : Logged Access (List Char) :=
  let idx := findLastNotOf cmdLine % 2 ^ 32
  if idx = npos then pure cmdLine
  else do
    access (commandArgsMaxLength + 1) idx
    let c ← lift (charAt cmdLine idx)
    if c ≠ '&' then pure cmdLine
    else do
      access (commandArgsMaxLength + 1) idx
      let len := (findLastNotOf (cmdLine.take (idx + 1)) + 1) % 2 ^ 64
      access (commandArgsMaxLength + 1) len
      lift (if len ≤ commandArgsMaxLength then pure ((cmdLine.set idx ' ').take len) else .ub)

def parseLoop (args : List (List Char)) : List (List Char) → Logged Access (List (List Char))
  | [] => pure args
  | s :: rest => do
    access commandMaxArgs args.length
    lift (slot args.length)
    access commandMaxArgs (args.length + 1)
    lift (slot (args.length + 1))
    parseLoop (args ++ [s]) rest

def parseCommandLine (cmdLine : List Char) : Logged Access (List (List Char)) :=
  parseLoop [] (words (trim cmdLine))

/-- `Command::Command` with a log of the indices. -/
def newCommand (kind : Kind) (cmdLine : List Char) : Logged Access Cmd := do
  let isBackground ← isBackgroundCommand cmdLine
  let command ← strcpy (commandArgsMaxLength + 1) cmdLine
  let command ← removeBackgroundSign command
  let argv ← parseCommandLine command
  pure ⟨kind, argv, isBackground, cmdLine⟩

variable {kind : Kind} {cmdLine : List Char}

/-! ### It is the constructor -/

theorem removeBackgroundSign_out (cmdLine : List Char) :
    (removeBackgroundSign cmdLine).out = Smash.removeBackgroundSign cmdLine := by
  unfold removeBackgroundSign Smash.removeBackgroundSign
  dsimp only
  split
  next => rfl
  next =>
    cases charAt cmdLine (findLastNotOf cmdLine % 2 ^ 32) with
    | ret c =>
      by_cases hc : c ≠ '&'
      · simp only [out_bind, out_lift, access, Outcome.ret_bind, if_pos hc, out_pure, Outcome.pure_eq]
      · simp only [out_bind, out_lift, access, Outcome.ret_bind, if_neg hc]
    | _ => rfl

theorem parseLoop_out (args ws : List (List Char)) : (parseLoop args ws).out = Smash.parseLoop args ws := by
  induction ws generalizing args with
  | nil => rfl
  | cons w ws ih =>
    simp only [parseLoop, Smash.parseLoop, out_bind, out_lift, access, Outcome.ret_bind, ih]

theorem newCommand_out (kind : Kind) (cmdLine : List Char) :
    (newCommand kind cmdLine).out = Smash.newCommand kind cmdLine := by
  simp only [newCommand, Smash.newCommand, isBackgroundCommand, strcpy, parseCommandLine,
    Smash.parseCommandLine, out_bind, out_lift, access, Outcome.ret_bind, removeBackgroundSign_out,
    parseLoop_out, out_pure, Outcome.pure_eq]

/-! ### The bounds -/

@[simp] theorem within_access {size index : ℕ} :
    Within Access.InBounds (access size index) ↔ index < size := by
  simp [access, Within, Access.InBounds]

/-- Every word takes its entry, and the next one for the null pointer. -/
theorem within_parseLoop {args : List (List Char)} (h : args.length < commandMaxArgs) (ws : List (List Char)) :
    Within Access.InBounds (parseLoop args ws) ↔ args.length + ws.length < commandMaxArgs := by
  induction ws generalizing args with
  | nil =>
    rw [parseLoop]
    exact iff_of_true (within_pure) h
  | cons w ws ih =>
    have hlen : (args ++ [w]).length = args.length + 1 := by simp
    simp only [parseLoop, within_bind_iff, within_access, within_lift, true_and]
    constructor
    · rintro ⟨-, hrest⟩
      obtain ⟨hnext, htail⟩ := hrest () rfl () (if_pos h)
      have := (ih (by rw [hlen]; exact hnext)).mp (htail () rfl () (if_pos hnext))
      rw [hlen] at this
      rw [List.length_cons]
      omega
    · intro hall
      rw [List.length_cons] at hall
      have hnext : args.length + 1 < commandMaxArgs := by omega
      refine ⟨h, fun _ _ _ _ => ⟨hnext, fun _ _ _ _ => ?_⟩⟩
      rw [ih (by rw [hlen]; exact hnext), hlen]
      omega

theorem within_removeBackgroundSign {pre post : List Char} {c : Char} (hc : isSpace c = false)
    (hpost : ∀ d ∈ post, isSpace d) (hlen : (pre ++ c :: post).length ≤ commandArgsMaxLength) :
    Within Access.InBounds (removeBackgroundSign (pre ++ c :: post)) := by
  obtain ⟨hpre, hidx, hcut⟩ := signIndex hc hpost hlen
  unfold removeBackgroundSign
  dsimp only
  rw [hidx, take_mid, hcut]
  refine .ite (fun _ => .pure _) fun _ => ?_
  refine .bind (within_access.mpr (by omega)) fun _ _ => .bind (.lift _) fun d _ => ?_
  refine .ite (fun _ => .pure _) fun _ => ?_
  refine .bind (within_access.mpr (by omega)) fun _ _ => ?_
  exact .bind (within_access.mpr (by omega)) fun _ _ => .lift _

/-- **The indices of the constructor** are in bounds exactly if the line is not blank, and has less than
`COMMAND_MAX_ARGS` words without its sign. -/
theorem indices_in_bounds_iff (kind : Kind) (hlen : cmdLine.length ≤ commandArgsMaxLength) :
    Within Access.InBounds (newCommand kind cmdLine) ↔
      (∃ c ∈ cmdLine, isSpace c = false) ∧ (wordsBy isSpace (withoutSign cmdLine)).length < commandMaxArgs := by
  rw [← wordsOf_eq]
  unfold newCommand
  rcases blank_or_last cmdLine with hblank | ⟨pre, c, post, rfl, hc, hpost⟩
  · refine iff_of_false (fun h => ?_) fun ⟨⟨c, hmem, hc⟩, _⟩ => ?_
    · have hlast := within_access.mp (within_bind_iff.mp (within_bind_iff.mp h).1).1
      rw [findLastNotOf_blank hblank] at hlast
      have : commandArgsMaxLength < npos := by decide
      omega
    · rw [hblank c hmem] at hc
      cases hc
  · have hlast : Within Access.InBounds (isBackgroundCommand (pre ++ c :: post)) := by
      refine .bind (within_access.mpr ?_) fun _ _ => .lift _
      rw [findLastNotOf_last hc hpost, List.length_append]
      omega
    have hcopy : Within Access.InBounds (strcpy (commandArgsMaxLength + 1) (pre ++ c :: post)) :=
      .bind (within_access.mpr (Nat.lt_succ_of_le hlen)) fun _ _ => .lift _
    have hbackground : (isBackgroundCommand (pre ++ c :: post)).out = .ret (decide (c = '&')) := by
      show Smash.isBackgroundCommand (pre ++ c :: post) = _
      rw [Smash.isBackgroundCommand, findLastNotOf_last hc hpost, charAt_mid]
      rfl
    have hcopied : (strcpy (commandArgsMaxLength + 1) (pre ++ c :: post)).out = .ret (pre ++ c :: post) :=
      if_pos (Nat.lt_succ_of_le hlen)
    have hremove := within_removeBackgroundSign hc hpost hlen
    have hremoved := (removeBackgroundSign_out (pre ++ c :: post)).trans
      (removeBackgroundSign_last hc hpost hlen)
    have hparse := @within_parseLoop [] (by decide) (wordsOf (pre ++ c :: post))
    rw [List.length_nil, Nat.zero_add] at hparse
    simp only [within_bind_iff, hlast, hcopy, hbackground, hcopied, hremove, hremoved, parseCommandLine,
      words_trim, words_copy hc hpost, hparse, within_pure, Outcome.ret.injEq, forall_eq', true_and, and_true,
      implies_true]
    exact (and_iff_right ⟨c, by simp, hc⟩).symm

theorem indices_in_bounds_iff_sleep :
    Within Access.InBounds (newCommand .external "sleep 10 &".toList) ↔
      (∃ c ∈ "sleep 10 &".toList, isSpace c = false) ∧
        (wordsBy isSpace (withoutSign "sleep 10 &".toList)).length < commandMaxArgs :=
  indices_in_bounds_iff .external (by decide)

/-- A command with nineteen arguments: there is no entry for the null pointer. -/
theorem twenty_words_overflow : ¬ ∀ (kind : Kind) (cmdLine : List Char), cmdLine ≠ [] →
    cmdLine.length ≤ commandArgsMaxLength → Within Access.InBounds (newCommand kind cmdLine) := by
  intro h
  have hall := h .external "a b c d e f g h i j k l m n o p q r s t".toList (by decide) (by decide)
  have hlog : ⟨20, 20⟩ ∈ (newCommand .external "a b c d e f g h i j k l m n o p q r s t".toList).log := by
    decide
  exact absurd (hall _ hlog) (lt_irrefl 20)

end Indexed

end OsHomework.Smash
