import Mathlib.Data.List.TakeWhile
import OsHomework.Smash.Model

/-!
# From a line to a `Command`

The string functions of `Commands.cpp`, the constructor `Command::Command` and `SmallShell::CreateCommand`.
A line is a C string: the characters before its terminator.

* `findLastNotOf`, `charAt`: positions in a string, with `npos`;
* `isBackgroundCommand`, `removeBackgroundSign`, `parseCommandLine`: the steps of the constructor. The copy
  of the line has `COMMAND_ARGS_MAX_LENGTH + 1` bytes, and `argv` has `COMMAND_MAX_ARGS` entries;
* `createCommand`: the word that decides, and the object made;
* `wordsOf`: the words of a line without its last `&`;
* **`newCommand_eq`**: what the constructor does to every line;
* `wordsOf_ne_nil`: the name of a built-in command is a word of its own.
-/

set_option autoImplicit false

namespace OsHomework.Smash

/-- `COMMAND_ARGS_MAX_LENGTH`. -/
def commandArgsMaxLength : ℕ := 200

/-- `COMMAND_MAX_ARGS`. -/
def commandMaxArgs : ℕ := 20

/-- `string::npos`. -/
def npos : ℕ := 2 ^ 64 - 1

/-- `find_last_not_of(WHITESPACE)`. -/
def findLastNotOf (s : List Char) : ℕ :=
  match s.reverse.findIdx? fun c => !isSpace c with
  | some k => s.length - 1 - k
  | none => npos

/-- The character at a position of a string, the terminator included. -/
def charAt (s : List Char) (pos : ℕ) : Outcome Char :=
  if pos = s.length then .ret '\x00'
  else
    match s[pos]? with
    | some c => .ret c
    | none => .ub

/-- `_isBackgroundComamnd`. -/
def isBackgroundCommand (cmdLine : List Char) : Outcome Bool := do
  let c ← charAt cmdLine (findLastNotOf cmdLine)
  pure (c = '&')

/-- `strcpy` into a block of `size` bytes. -/
def strcpy (size : ℕ) (src : List Char) : Outcome (List Char) :=
  if src.length < size then .ret src else .ub

/-- `_removeBackgroundSign`. The position is kept as an `unsigned int`, and is never `npos`. -/
def removeBackgroundSign (cmdLine : List Char) : Outcome (List Char) :=
  let idx := findLastNotOf cmdLine % 2 ^ 32
  if idx = npos then .ret cmdLine
  else do
    let c ← charAt cmdLine idx
    if c ≠ '&' then pure cmdLine
    else
      -- the position is looked up in the copy that still has the sign
      let len := (findLastNotOf (cmdLine.take (idx + 1)) + 1) % 2 ^ 64
      if len ≤ commandArgsMaxLength then pure ((cmdLine.set idx ' ').take len) else .ub

/-- The words that `iss >> s` extracts; `w` is the one that has begun. -/
def wordsFrom : List Char → List Char → List (List Char)
  | w, [] => if w = [] then [] else [w]
  | w, c :: s =>
    if isSpace c then if w = [] then wordsFrom [] s else w :: wordsFrom [] s
    else wordsFrom (w ++ [c]) s

def words (s : List Char) : List (List Char) := wordsFrom [] s

/-- A write to an entry of `args`. -/
def slot (i : ℕ) : Outcome Unit := if i < commandMaxArgs then .ret () else .ub

/-- The loop of `_parseCommandLine`: `args[i] = ...; args[++i] = NULL`. -/
def parseLoop (args : List (List Char)) : List (List Char) → Outcome (List (List Char))
  | [] => .ret args
  | s :: rest => do
    slot args.length
    slot (args.length + 1)
    parseLoop (args ++ [s]) rest

/-- `_parseCommandLine`. -/
def parseCommandLine (cmdLine : List Char) : Outcome (List (List Char)) :=
  parseLoop [] (words (trim cmdLine))

/-- `Command::Command`. -/
def newCommand (kind : Kind) (cmdLine : List Char) : Outcome Cmd := do
  let isBackground ← isBackgroundCommand cmdLine
  let command ← strcpy (commandArgsMaxLength + 1) cmdLine
  let command ← removeBackgroundSign command
  let argv ← parseCommandLine command
  pure ⟨kind, argv, isBackground, cmdLine⟩

/-- `firstWord`, without its last `&`. -/
def dispatchWord (cmdS : List Char) : Outcome (List Char) :=
  let firstWord := cmdS.takeWhile fun c => c ≠ ' ' ∧ c ≠ '\n'
  match firstWord.getLast? with
  -- firstWord.back() of an empty string
  | none => .ub
  | some c => .ret (if c = '&' then firstWord.dropLast else firstWord)

/-- The class of the command. -/
def kindOf (cmdS firstWord : List Char) : Kind :=
  if '|' ∈ cmdS then .pipe
  else if '>' ∈ cmdS then .redirection
  else if firstWord = "setcore".toList then .setcore
  else if firstWord = "getfiletype".toList then .getfiletype
  else if firstWord = "chmod".toList then .chmod
  else if firstWord = "chprompt".toList then .chprompt
  else if firstWord = "showpid".toList then .showpid
  else if firstWord = "pwd".toList then .pwd
  else if firstWord = "cd".toList then .cd
  else if firstWord = "jobs".toList then .jobs
  else if firstWord = "fg".toList then .fg
  else if firstWord = "bg".toList then .bg
  else if firstWord = "quit".toList then .quit
  else if firstWord = "kill".toList then .kill
  else .external

/-- `SmallShell::CreateCommand`. -/
def createCommand (cmdLine : List Char) : Outcome Cmd := do
  let cmdS := trim cmdLine
  let firstWord ← dispatchWord cmdS
  newCommand (kindOf cmdS firstWord) cmdLine

/-! ## White space and words -/

section Words

theorem wordsFrom_spaces {post : List Char} (hpost : ∀ c ∈ post, isSpace c) (s w : List Char) :
    wordsFrom w (s ++ post) = wordsFrom w s := by
  induction s generalizing w with
  | nil =>
    have hnil : wordsFrom [] post = [] := by
      induction post with
      | nil => rfl
      | cons c post ih =>
        rw [wordsFrom, if_pos (hpost c List.mem_cons_self), if_pos rfl]
        exact ih fun d hd => hpost d (List.mem_cons_of_mem _ hd)
    cases post with
    | nil => rfl
    | cons c post =>
      rw [List.nil_append]
      by_cases hw : w = []
      · rw [hw, hnil]
        rfl
      · rw [wordsFrom, if_pos (hpost c List.mem_cons_self)] at hnil ⊢
        rw [if_pos rfl] at hnil
        rw [if_neg hw, hnil, wordsFrom, if_neg hw]
  | cons c s ih =>
    rw [List.cons_append, wordsFrom, wordsFrom]
    simp only [ih]

theorem words_spaces {pre : List Char} (hpre : ∀ c ∈ pre, isSpace c) (s : List Char) :
    words (pre ++ s) = words s := by
  induction pre with
  | nil => rfl
  | cons c pre ih =>
    unfold words at ih ⊢
    rw [List.cons_append, wordsFrom, if_pos (hpre c List.mem_cons_self), if_pos rfl]
    exact ih fun d hd => hpre d (List.mem_cons_of_mem _ hd)

theorem wordsFrom_ne_nil {w s : List Char} (h : w ≠ [] ∨ ∃ c ∈ s, ¬ isSpace c) : wordsFrom w s ≠ [] := by
  induction s generalizing w with
  | nil =>
    have hw := h.resolve_right (by simp)
    rw [wordsFrom, if_neg hw]
    exact List.cons_ne_nil _ _
  | cons c s ih =>
    rw [wordsFrom]
    by_cases hc : isSpace c
    · rw [if_pos hc]
      by_cases hw : w = []
      · obtain ⟨d, hd, hns⟩ := h.resolve_left (by simpa using hw)
        rw [if_pos hw]
        refine ih (.inr ⟨d, ?_, hns⟩)
        exact (List.mem_cons.mp hd).resolve_left fun heq => hns (heq ▸ hc)
      · rw [if_neg hw]
        exact List.cons_ne_nil _ _
    · rw [if_neg hc]
      exact ih (.inl (by simp))

theorem blank_or_last (s : List Char) : (∀ c ∈ s, isSpace c) ∨
    ∃ pre c post, s = pre ++ c :: post ∧ isSpace c = false ∧ ∀ d ∈ post, isSpace d := by
  induction s with
  | nil => exact .inl nofun
  | cons a s ih =>
    rcases ih with hblank | ⟨pre, c, post, rfl, hc, hpost⟩
    · cases ha : isSpace a with
      | true => exact .inl (by simpa [ha] using hblank)
      | false => exact .inr ⟨[], a, s, rfl, ha, hblank⟩
    · exact .inr ⟨a :: pre, c, post, rfl, hc, hpost⟩

variable {pre post s : List Char} {c : Char}

theorem findLastNotOf_blank (h : ∀ c ∈ s, isSpace c) : findLastNotOf s = npos := by
  unfold findLastNotOf
  have hnone : s.reverse.findIdx? (fun c => !isSpace c) = none := by
    rw [List.findIdx?_eq_none_iff]
    intro c hc
    simp [h c (List.mem_reverse.mp hc)]
  rw [hnone]

theorem findLastNotOf_last (hc : isSpace c = false) (hpost : ∀ d ∈ post, isSpace d) :
    findLastNotOf (pre ++ c :: post) = pre.length := by
  unfold findLastNotOf
  have hsome : (pre ++ c :: post).reverse.findIdx? (fun c => !isSpace c) = some post.length := by
    rw [List.reverse_append, List.reverse_cons, List.append_assoc, List.findIdx?_append]
    have hnone : post.reverse.findIdx? (fun c => !isSpace c) = none := by
      rw [List.findIdx?_eq_none_iff]
      intro d hd
      simp [hpost d (List.mem_reverse.mp hd)]
    have hfirst : (c :: pre.reverse).findIdx? (fun c => !isSpace c) = some 0 := by
      rw [List.findIdx?_cons, hc]
      rfl
    rw [hnone]
    simp [hfirst]
  rw [hsome]
  simp only [List.length_append, List.length_cons]
  omega

theorem trim_last (hc : isSpace c = false) (hpost : ∀ d ∈ post, isSpace d) :
    trim (pre ++ c :: post) = pre.dropWhile isSpace ++ [c] := by
  have hfront : (pre ++ c :: post).dropWhile isSpace = pre.dropWhile isSpace ++ c :: post := by
    rw [List.dropWhile_append, List.dropWhile_cons_of_neg (by simp [hc])]
    split
    next hempty => rw [List.isEmpty_iff.mp hempty, List.nil_append]
    next => rfl
  have hback : (pre.dropWhile isSpace ++ c :: post).reverse.dropWhile isSpace =
      c :: (pre.dropWhile isSpace).reverse := by
    rw [List.reverse_append, List.reverse_cons, List.append_assoc,
      List.dropWhile_append_of_pos fun d hd => hpost d (List.mem_reverse.mp hd)]
    exact List.dropWhile_cons_of_neg (by simp [hc])
  rw [trim, hfront, hback, List.reverse_cons, List.reverse_reverse]

theorem trim_blank (h : ∀ c ∈ s, isSpace c) : trim s = [] := by
  have hnil : s.dropWhile isSpace = [] := List.dropWhile_eq_nil_iff.mpr h
  rw [trim, hnil]
  rfl

theorem words_dropWhile (s : List Char) : words (s.dropWhile isSpace) = words s := by
  have hall : ∀ c ∈ s.takeWhile isSpace, isSpace c := fun c hc => List.mem_takeWhile_imp hc
  have hsplit := words_spaces hall (s.dropWhile isSpace)
  rw [List.takeWhile_append_dropWhile] at hsplit
  exact hsplit.symm

theorem words_trim (s : List Char) : words (trim s) = words s := by
  rw [← words_dropWhile s, trim]
  generalize s.dropWhile isSpace = t
  have hall : ∀ c ∈ (t.reverse.takeWhile isSpace).reverse, isSpace c :=
    fun c hc => List.mem_takeWhile_imp (List.mem_reverse.mp hc)
  have hsplit := wordsFrom_spaces hall (t.reverse.dropWhile isSpace).reverse []
  rw [← List.reverse_append, List.takeWhile_append_dropWhile, List.reverse_reverse] at hsplit
  exact hsplit.symm

end Words

/-! ## The constructor -/

/-- The last character that is no white space is the sign. -/
def endsInSign (cmdLine : List Char) : Bool := (trim cmdLine).getLast? = some '&'

/-- The line without the white space around it and without that sign. -/
def dropSign (cmdLine : List Char) : List Char :=
  if endsInSign cmdLine then (trim cmdLine).dropLast else trim cmdLine

def wordsOf (cmdLine : List Char) : List (List Char) := words (dropSign cmdLine)

section Constructor

variable {pre post cmdLine : List Char} {c : Char}

theorem charAt_mid : charAt (pre ++ c :: post) pre.length = .ret c := by
  rw [charAt, if_neg (by simp)]
  simp

theorem take_mid : (pre ++ c :: post).take (pre.length + 1) = pre ++ [c] := by
  rw [List.append_cons]
  exact List.take_left' (by simp)

theorem signIndex (hc : isSpace c = false) (hpost : ∀ d ∈ post, isSpace d)
    (hlen : (pre ++ c :: post).length ≤ commandArgsMaxLength) :
    pre.length < commandArgsMaxLength ∧ findLastNotOf (pre ++ c :: post) % 2 ^ 32 = pre.length ∧
      (findLastNotOf (pre ++ [c]) + 1) % 2 ^ 64 = pre.length + 1 := by
  rw [List.length_append, List.length_cons] at hlen
  rw [findLastNotOf_last hc hpost, @findLastNotOf_last pre [] c hc nofun]
  unfold commandArgsMaxLength at *
  exact ⟨by omega, Nat.mod_eq_of_lt (by omega), Nat.mod_eq_of_lt (by omega)⟩

/-- The last character is found, and the sign is cut off with what follows it. -/
theorem removeBackgroundSign_last (hc : isSpace c = false) (hpost : ∀ d ∈ post, isSpace d)
    (hlen : (pre ++ c :: post).length ≤ commandArgsMaxLength) :
    removeBackgroundSign (pre ++ c :: post) =
      .ret (if c = '&' then pre ++ [' '] else pre ++ c :: post) := by
  obtain ⟨hpre, hidx, hcut⟩ := signIndex hc hpost hlen
  have hnpos : pre.length ≠ npos := by
    unfold npos
    unfold commandArgsMaxLength at hpre
    omega
  unfold removeBackgroundSign
  rw [hidx, if_neg hnpos, charAt_mid, take_mid, hcut]
  simp only [Outcome.ret_bind, Outcome.pure_eq]
  by_cases hamp : c = '&'
  · rw [if_neg (not_not.mpr hamp), if_pos (by omega), if_pos hamp]
    congr 1
    rw [List.set_append_right _ _ le_rfl, Nat.sub_self, List.set_cons_zero, take_mid]
  · rw [if_pos hamp, if_neg hamp]

theorem words_copy (hc : isSpace c = false) (hpost : ∀ d ∈ post, isSpace d) :
    words (if c = '&' then pre ++ [' '] else pre ++ c :: post) = wordsOf (pre ++ c :: post) := by
  have htrim : trim (pre ++ c :: post) = pre.dropWhile isSpace ++ [c] := trim_last hc hpost
  have hsign : endsInSign (pre ++ c :: post) = decide (c = '&') := by simp [endsInSign, htrim]
  unfold wordsOf dropSign
  rw [hsign]
  by_cases hamp : c = '&'
  · have hspace : words (pre ++ [' ']) = words pre := wordsFrom_spaces (by simp [isSpace]) pre []
    rw [if_pos hamp, if_pos (by simpa using hamp), hspace, htrim, List.dropLast_concat, words_dropWhile]
  · rw [if_neg hamp, if_neg (by simpa using hamp), words_trim]

theorem parseLoop_eq {args : List (List Char)} (h : args.length < commandMaxArgs) (ws : List (List Char)) :
    parseLoop args ws =
      if args.length + ws.length < commandMaxArgs then .ret (args ++ ws) else .ub := by
  induction ws generalizing args with
  | nil => rw [parseLoop, List.length_nil, Nat.add_zero, if_pos h, List.append_nil]
  | cons w ws ih =>
    rw [parseLoop, slot, if_pos h, Outcome.ret_bind, slot]
    by_cases hnext : args.length + 1 < commandMaxArgs
    · have hlen : (args ++ [w]).length = args.length + 1 := by simp
      rw [if_pos hnext, Outcome.ret_bind, ih (by rw [hlen]; exact hnext), hlen, List.length_cons,
        List.append_assoc, List.singleton_append, Nat.add_assoc, Nat.add_comm 1]
    · rw [if_neg hnext, Outcome.ub_bind, if_neg]
      rw [List.length_cons]
      omega

theorem parseCommandLine_eq (s : List Char) :
    parseCommandLine s = if (words s).length < commandMaxArgs then .ret (words s) else .ub := by
  rw [parseCommandLine, parseLoop_eq (by decide), words_trim, List.length_nil, Nat.zero_add, List.nil_append]

/-- A lookup in a string never ends the process. -/
theorem charAt_cases (s : List Char) (pos : ℕ) : (∃ c, charAt s pos = .ret c) ∨ charAt s pos = .ub := by
  unfold charAt
  split
  next => exact .inl ⟨_, rfl⟩
  next =>
    cases s[pos]? with
    | some c => exact .inl ⟨c, rfl⟩
    | none => exact .inr rfl

/-- **The constructor**: a line that is not blank and fits is split into its words, without the last `&`;
every other line is beyond the bounds of an array. -/
theorem newCommand_eq (kind : Kind) (cmdLine : List Char) :
    newCommand kind cmdLine =
      if trim cmdLine ≠ [] ∧ cmdLine.length ≤ commandArgsMaxLength ∧
          (wordsOf cmdLine).length < commandMaxArgs then
        .ret ⟨kind, wordsOf cmdLine, endsInSign cmdLine, cmdLine⟩
      else .ub := by
  unfold newCommand isBackgroundCommand strcpy
  by_cases hlen : cmdLine.length ≤ commandArgsMaxLength
  · rw [if_pos (Nat.lt_succ_of_le hlen)]
    rcases blank_or_last cmdLine with hblank | ⟨pre, c, post, rfl, hc, hpost⟩
    · have hout : charAt cmdLine npos = .ub := by
        have hlt : cmdLine.length < npos := lt_of_le_of_lt hlen (by decide)
        rw [charAt, if_neg hlt.ne', List.getElem?_eq_none hlt.le]
      rw [findLastNotOf_blank hblank, hout, if_neg fun h => h.1 (trim_blank hblank)]
      rfl
    · have htrim : trim (pre ++ c :: post) = pre.dropWhile isSpace ++ [c] := trim_last hc hpost
      have hne : trim (pre ++ c :: post) ≠ [] := by simp [htrim]
      have hsign : endsInSign (pre ++ c :: post) = decide (c = '&') := by simp [endsInSign, htrim]
      rw [findLastNotOf_last hc hpost, charAt_mid, Outcome.ret_bind, Outcome.pure_eq, Outcome.ret_bind,
        Outcome.ret_bind, removeBackgroundSign_last hc hpost hlen, Outcome.ret_bind, parseCommandLine_eq,
        words_copy hc hpost, hsign]
      by_cases hw : (wordsOf (pre ++ c :: post)).length < commandMaxArgs
      · rw [if_pos hw, if_pos ⟨hne, hlen, hw⟩]
        rfl
      · rw [if_neg hw, if_neg fun h => hw h.2.2]
        rfl
  · rw [if_neg (by omega), if_neg fun h => hlen h.2.1]
    rcases charAt_cases cmdLine (findLastNotOf cmdLine) with ⟨c, hc⟩ | hub
    · rw [hc]
      rfl
    · rw [hub]
      rfl

end Constructor

/-! ## The class of a line -/

/-- The word that decides: up to the first blank, without its last `&`. -/
def firstWordOf (cmdS : List Char) : List Char :=
  let firstWord := cmdS.takeWhile fun c => c ≠ ' ' ∧ c ≠ '\n'
  if firstWord.getLast? = some '&' then firstWord.dropLast else firstWord

/-- The class of the command that a line makes. -/
def kindOfLine (cmdLine : List Char) : Kind := kindOf (trim cmdLine) (firstWordOf (trim cmdLine))

/-- The line is not blank, and fits into the arrays of `Command`. -/
structure Fitting (cmdLine : List Char) : Prop where
  notBlank : trim cmdLine ≠ []
  length : cmdLine.length ≤ commandArgsMaxLength
  words : (wordsOf cmdLine).length < commandMaxArgs

instance (cmdLine : List Char) : Decidable (Fitting cmdLine) :=
  decidable_of_iff (trim cmdLine ≠ [] ∧ cmdLine.length ≤ commandArgsMaxLength ∧
      (wordsOf cmdLine).length < commandMaxArgs)
    ⟨fun h => ⟨h.1, h.2.1, h.2.2⟩, fun h => ⟨h.notBlank, h.length, h.words⟩⟩

section Class

variable {cmdLine : List Char}

theorem trim_head (h : trim cmdLine ≠ []) : ∃ c rest, trim cmdLine = c :: rest ∧ isSpace c = false := by
  rcases blank_or_last cmdLine with hblank | ⟨pre, c, post, rfl, hc, hpost⟩
  · exact absurd (trim_blank hblank) h
  · rw [trim_last hc hpost]
    cases hpre : pre.dropWhile isSpace with
    | nil => exact ⟨c, [], rfl, hc⟩
    | cons d pre' =>
      refine ⟨d, pre' ++ [c], rfl, ?_⟩
      have hhead := List.head?_dropWhile_not isSpace pre
      rw [hpre] at hhead
      exact hhead

theorem dispatchWord_eq (h : trim cmdLine ≠ []) :
    dispatchWord (trim cmdLine) = .ret (firstWordOf (trim cmdLine)) := by
  obtain ⟨c, rest, heq, hc⟩ := trim_head h
  have hne : c ≠ ' ' ∧ c ≠ '\n' := by
    constructor
    · rintro rfl
      cases hc
    · rintro rfl
      cases hc
  have hword : (trim cmdLine).takeWhile (fun c => decide (c ≠ ' ' ∧ c ≠ '\n')) ≠ [] := by
    rw [heq, List.takeWhile_cons_of_pos (by simpa using hne)]
    exact List.cons_ne_nil _ _
  unfold dispatchWord firstWordOf
  dsimp only
  cases hlast : ((trim cmdLine).takeWhile fun c => decide (c ≠ ' ' ∧ c ≠ '\n')).getLast? with
  | none => exact absurd (List.getLast?_eq_none_iff.mp hlast) hword
  | some d => simp only [Option.some.injEq]

/-- **What becomes of a line.** -/
theorem createCommand_eq (cmdLine : List Char) :
    createCommand cmdLine =
      if Fitting cmdLine then
        .ret ⟨kindOfLine cmdLine, wordsOf cmdLine, endsInSign cmdLine, cmdLine⟩
      else .ub := by
  unfold createCommand
  by_cases hblank : trim cmdLine = []
  · rw [hblank, if_neg fun h => h.notBlank hblank]
    rfl
  · dsimp only
    rw [dispatchWord_eq hblank, Outcome.ret_bind, newCommand_eq]
    by_cases hfit : Fitting cmdLine
    · rw [if_pos ⟨hfit.notBlank, hfit.length, hfit.words⟩, if_pos hfit]
      rfl
    · rw [if_neg fun h => hfit ⟨h.1, h.2.1, h.2.2⟩, if_neg hfit]

/-- The name of a built-in command begins with a letter. -/
theorem kindOf_cases (cmdS firstWord : List Char) :
    kindOf cmdS firstWord = .pipe ∨ kindOf cmdS firstWord = .redirection ∨
      kindOf cmdS firstWord = .external ∨
      ∃ c rest, firstWord = c :: rest ∧ isSpace c = false ∧ c ≠ '&' := by
  generalize hP : (fun k : Kind => k = .pipe ∨ k = .redirection ∨ k = .external ∨
    ∃ c rest, firstWord = c :: rest ∧ isSpace c = false ∧ c ≠ '&') = P
  have hname : ∀ {name : List Char} {k k' : Kind},
      (name.head?.any fun c => !isSpace c && c ≠ '&') → P k' → P (if firstWord = name then k else k') := by
    intro name k k' hfirst hk'
    split
    next hword =>
      cases name with
      | nil => cases hfirst
      | cons c rest =>
        rw [← hP]
        exact .inr (.inr (.inr ⟨c, rest, hword, by simpa using hfirst⟩))
    next => exact hk'
  have hchar : ∀ {p : Prop} [Decidable p] {k k' : Kind}, P k → P k' → P (if p then k else k') := by
    intro p _ k k' hk hk'
    split
    next => exact hk
    next => exact hk'
  have hexternal : P .external := hP ▸ .inr (.inr (.inl rfl))
  suffices h : P (kindOf cmdS firstWord) by rwa [← hP] at h
  refine hchar (hP ▸ .inl rfl) (hchar (hP ▸ .inr (.inl rfl)) ?_)
  iterate 12 refine hname (by decide) ?_
  exact hexternal

end Class

end OsHomework.Smash
