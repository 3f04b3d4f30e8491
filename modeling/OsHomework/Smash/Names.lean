import OsHomework.Smash.Arguments

/-!
# The name of the command

A line is split three times: for the word that decides, for `argv`, and for the program of an external
command.

* `firstRun`: `cmd_s.substr(0, cmd_s.find_first_of(" \n"))`;
* `externalExec`: what the child of an external command executes;
* `NamesAgree`: the three words are the same;
* **`names_agree_iff`**: so they are exactly if the first of them has no other white space, and ends in the
  sign only if it is the whole line and the name of a built-in command;
* `sign_in_program_name`: `ls&` executes `ls&`.
-/

set_option autoImplicit false

namespace OsHomework.Smash

/-- What a child executes. -/
inductive Exec where
  /-- `execl("/bin/bash", "bash", "-c", cmd_line, NULL)`. -/
  | bash (cmdLine : List Char)
  | execvp (file : List Char) (argv : List (List Char))

/-- `cmd_s.substr(0, cmd_s.find_first_of(" \n"))`. -/
def firstRun (cmdS : List Char) : List Char := cmdS.takeWhile fun c => c ≠ ' ' ∧ c ≠ '\n'

/-- `ExternalCommand::execute` in the child. -/
def externalExec (c : Cmd) : Exec :=
  let cmdS := trim c.cmdLine
  let isComplex := cmdS.any fun c => c = '*' || c = '?'
  if isComplex then .bash c.cmdLine else .execvp (firstRun cmdS) c.argv

/-- The word that decides, `argv[0]`, and the program are the same string. -/
def NamesAgree (line : List Char) : Prop :=
  ∃ (c : Cmd) (word : List Char), dispatchWord (trim line) = .ret word ∧ createCommand line = .ret c ∧
    c.argv[0]? = some word ∧ (c.kind = .external → externalExec c = .execvp word c.argv)

/-- The name of the command is spaced in the ordinary way. -/
structure OrdinaryName (line : List Char) : Prop where
  noSpace : ∀ c ∈ firstRun (trim line), isSpace c = false
  sign : (firstRun (trim line)).getLast? = some '&' →
    firstRun (trim line) = trim line ∧ kindOfLine line ≠ .external

section Names

variable {line : List Char}

theorem firstWordOf_eq (cmdS : List Char) : firstWordOf cmdS =
    if (firstRun cmdS).getLast? = some '&' then (firstRun cmdS).dropLast else firstRun cmdS := rfl

theorem firstRun_cases (cmdS : List Char) :
    firstRun cmdS = cmdS ∨ ∃ b rest, cmdS = firstRun cmdS ++ b :: rest ∧ isSpace b := by
  have hsplit := List.takeWhile_append_dropWhile (p := fun c => decide (c ≠ ' ' ∧ c ≠ '\n')) (l := cmdS)
  cases hrest : cmdS.dropWhile fun c => decide (c ≠ ' ' ∧ c ≠ '\n') with
  | nil =>
    rw [hrest, List.append_nil] at hsplit
    exact .inl hsplit
  | cons b rest =>
    rw [hrest] at hsplit
    refine .inr ⟨b, rest, hsplit.symm, ?_⟩
    have hhead := List.head?_dropWhile_not (fun c => decide (c ≠ ' ' ∧ c ≠ '\n')) cmdS
    rw [hrest] at hhead
    by_cases hb : b = ' '
    · rw [hb]
      rfl
    · have hb' : b = '\n' := by simpa [hb] using hhead
      rw [hb']
      rfl

theorem firstRun_ne_nil (h : trim line ≠ []) : firstRun (trim line) ≠ [] := by
  obtain ⟨c, rest, heq, hc⟩ := trim_head h
  have hne : c ≠ ' ' ∧ c ≠ '\n' := by
    constructor <;> (rintro rfl; cases hc)
  rw [heq, firstRun, List.takeWhile_cons_of_pos (by simpa using hne)]
  exact List.cons_ne_nil _ _

/-- Followed by a blank, the first run is the first word. -/
theorem head_wordsOf_of_blank {b : Char} {rest : List Char} (hne : trim line ≠ [])
    (hspace : ∀ c ∈ firstRun (trim line), isSpace c = false) (hb : isSpace b)
    (heq : trim line = firstRun (trim line) ++ b :: rest) :
    (wordsOf line)[0]? = some (firstRun (trim line)) := by
  have hrun := firstRun_ne_nil hne
  have hfirst : ∀ rest', (wordsBy isSpace (firstRun (trim line) ++ b :: rest'))[0]? = some (firstRun (trim line)) := by
    intro rest'
    rw [wordsBy_append_cons hb, wordsBy_word hrun hspace]
    rfl
  rw [wordsOf, words_eq, dropSign]
  split
  next hsign =>
    have hrest : rest ≠ [] := by
      -- the blank is not the sign
      rintro rfl
      rw [endsInSign, heq, List.getLast?_concat, decide_eq_true_eq] at hsign
      cases Option.some.inj hsign
      cases hb
    have hdrop : (trim line).dropLast = firstRun (trim line) ++ b :: rest.dropLast := by
      have hcut := congrArg List.dropLast heq
      rwa [List.dropLast_append_of_ne_nil (List.cons_ne_nil b rest), List.dropLast_cons_of_ne_nil hrest] at hcut
    rw [hdrop]
    exact hfirst _
  next =>
    have := hfirst rest
    rwa [← heq] at this

theorem isSpace_of_head_wordsOf {word : List Char} (hne : trim line ≠ []) (h : (wordsOf line)[0]? = some word) :
    ∀ c ∈ word, isSpace c = false := by
  rw [wordsOf, words_eq] at h
  obtain ⟨a, rest, heq, ha⟩ := trim_head hne
  have hfirst : ∀ rest', (wordsBy isSpace (a :: rest'))[0]? = some word → ∀ c ∈ word, isSpace c = false := by
    intro rest' h' c hc
    rw [← List.head?_eq_getElem?, head?_wordsBy ha] at h'
    cases h'
    simpa using List.mem_takeWhile_imp hc
  rw [dropSign, heq] at h
  split at h
  next =>
    cases rest with
    | nil =>
      rw [List.dropLast_singleton, wordsBy_nil] at h
      cases h
    | cons b rest =>
      rw [List.dropLast_cons_of_ne_nil (List.cons_ne_nil b rest)] at h
      exact hfirst _ h
  next => exact hfirst _ h

/-- If the first run is the whole line, the sign at its end is cut off. -/
theorem wordsOf_of_run (hrun : firstRun (trim line) = trim line)
    (hspace : ∀ c ∈ firstRun (trim line), isSpace c = false) (hne : firstWordOf (trim line) ≠ []) :
    wordsOf line = [firstWordOf (trim line)] := by
  have hdrop : dropSign line = firstWordOf (trim line) := by
    rw [firstWordOf_eq, hrun, dropSign]
    simp only [endsInSign, decide_eq_true_eq]
  have hword : ∀ c ∈ firstWordOf (trim line), isSpace c = false := by
    intro c hc
    rw [firstWordOf_eq] at hc
    split at hc
    next => exact hspace c (List.dropLast_subset _ hc)
    next => exact hspace c hc
  rw [wordsOf, words_eq, hdrop, wordsBy_word hne hword]

theorem mem_of_mem_trim {s : List Char} {c : Char} (h : c ∈ trim s) : c ∈ s := by
  rw [trim, List.mem_reverse] at h
  have hback := (List.dropWhile_suffix isSpace).subset h
  exact (List.dropWhile_suffix isSpace).subset (List.mem_reverse.mp hback)

/-- In a line without wildcards the child of an external command executes the first run. -/
theorem externalExec_eq {c : Cmd} (hline : ∀ d ∈ c.cmdLine, d ≠ '*' ∧ d ≠ '?') :
    externalExec c = .execvp (firstRun (trim c.cmdLine)) c.argv := by
  have hsimple : ((trim c.cmdLine).any fun d => d = '*' || d = '?') = false := by
    rw [List.any_eq_false]
    intro d hd
    simpa using hline d (mem_of_mem_trim hd)
  unfold externalExec
  dsimp only
  rw [hsimple]
  rfl

theorem kindOfLine_ne_operator (hplain : ∀ c ∈ line, c ≠ '|' ∧ c ≠ '>') :
    kindOfLine line ≠ .pipe ∧ kindOfLine line ≠ .redirection := by
  have hpipe : '|' ∉ trim line := fun h => (hplain _ (mem_of_mem_trim h)).1 rfl
  have hred : '>' ∉ trim line := fun h => (hplain _ (mem_of_mem_trim h)).2 rfl
  have hite : ∀ {p : Prop} [Decidable p] {k k' : Kind}, k ≠ .pipe ∧ k ≠ .redirection →
      k' ≠ .pipe ∧ k' ≠ .redirection → (if p then k else k') ≠ .pipe ∧ (if p then k else k') ≠ .redirection := by
    intro p _ k k' hk hk'
    split
    next => exact hk
    next => exact hk'
  unfold kindOfLine kindOf
  rw [if_neg hpipe, if_neg hred]
  iterate 12 refine hite (by decide) ?_
  decide

/-- If the word that decides is the first word, the first run has no white space. -/
theorem noSpace_of_head (hne : trim line ≠ []) (h : (wordsOf line)[0]? = some (firstWordOf (trim line))) :
    ∀ c ∈ firstRun (trim line), isSpace c = false := by
  intro c hc
  have hhead := isSpace_of_head_wordsOf hne h
  rw [firstWordOf_eq] at hhead
  split at hhead
  next hsign =>
    rw [← List.dropLast_append_getLast? _ hsign] at hc
    rcases List.mem_append.mp hc with hc | hc
    · exact hhead c hc
    · rw [List.mem_singleton.mp hc]
      rfl
  next => exact hhead c hc

/-- The sign is not in the word that decides. -/
theorem firstWordOf_ne (hne : trim line ≠ []) (hsign : (firstRun (trim line)).getLast? = some '&') :
    firstWordOf (trim line) ≠ firstRun (trim line) := by
  rw [firstWordOf_eq, if_pos hsign]
  intro heq
  have hlen := congrArg List.length heq
  rw [List.length_dropLast] at hlen
  have := List.length_pos_iff.mpr (firstRun_ne_nil hne)
  omega

theorem OrdinaryName.head (h : OrdinaryName line) (hne : trim line ≠ []) (hplain : ∀ c ∈ line, c ≠ '|' ∧ c ≠ '>') :
    (wordsOf line)[0]? = some (firstWordOf (trim line)) := by
  rcases firstRun_cases (trim line) with hrun | ⟨b, rest, heq, hb⟩
  · have hword : firstWordOf (trim line) ≠ [] := by
      by_cases hsign : (firstRun (trim line)).getLast? = some '&'
      · -- it is then the name of a built-in command
        obtain ⟨hpipe, hred⟩ := kindOfLine_ne_operator hplain
        obtain ⟨c, rest, hcons, -⟩ :=
          (((kindOf_cases _ _).resolve_left hpipe).resolve_left hred).resolve_left (h.sign hsign).2
        rw [hcons]
        exact List.cons_ne_nil c rest
      · rw [firstWordOf_eq, if_neg hsign]
        exact firstRun_ne_nil hne
    rw [wordsOf_of_run hrun h.noSpace hword]
    rfl
  · have hsign : (firstRun (trim line)).getLast? ≠ some '&' := by
      intro hsign
      rw [(h.sign hsign).1] at heq
      have := congrArg List.length heq
      simp at this
    rw [head_wordsOf_of_blank hne h.noSpace hb heq, firstWordOf_eq, if_neg hsign]

/-- **The three readings of the name agree** exactly if the line fits and its name is an ordinary one. -/
theorem names_agree_iff (hplain : ∀ c ∈ line, c ≠ '|' ∧ c ≠ '>' ∧ c ≠ '*' ∧ c ≠ '?') :
    NamesAgree line ↔ Fitting line ∧ OrdinaryName line := by
  have hexec : ∀ c : Cmd, c.cmdLine = line → externalExec c = .execvp (firstRun (trim line)) c.argv := by
    rintro c rfl
    exact externalExec_eq fun d hd => (hplain d hd).2.2
  by_cases hfit : Fitting line
  · have hne := hfit.notBlank
    have hword := dispatchWord_eq hne
    have hcommand := (createCommand_eq line).trans (if_pos hfit)
    rw [and_iff_right hfit]
    constructor
    · rintro ⟨c, word, hw, hc, hargv, hprogram⟩
      rw [hword] at hw
      rw [hcommand] at hc
      cases hw
      cases hc
      have hspace := noSpace_of_head hne hargv
      refine ⟨hspace, fun hsign => ⟨?_, fun hkind => ?_⟩⟩
      · refine (firstRun_cases (trim line)).resolve_right fun ⟨b, rest, heq, hb⟩ => firstWordOf_ne hne hsign ?_
        rw [head_wordsOf_of_blank hne hspace hb heq] at hargv
        exact (Option.some.inj hargv).symm
      · have hrun := (hexec _ rfl).symm.trans (hprogram hkind)
        exact firstWordOf_ne hne hsign (Exec.execvp.inj hrun).1.symm
    · intro hname
      have hhead := hname.head hne fun d hd => ⟨(hplain d hd).1, (hplain d hd).2.1⟩
      refine ⟨_, _, hword, hcommand, hhead, fun hkind => ?_⟩
      rw [hexec _ rfl, firstWordOf_eq, if_neg fun hsign => (hname.sign hsign).2 hkind]
  · refine iff_of_false ?_ fun h => hfit h.1
    rintro ⟨c, word, -, hc, -⟩
    rw [createCommand_eq, if_neg hfit] at hc
    cases hc

end Names

theorem names_agree_iff_ls : NamesAgree "ls -l &".toList ↔ Fitting "ls -l &".toList ∧ OrdinaryName "ls -l &".toList :=
  names_agree_iff (by simp)

/-- The child looks for a program `ls&`. -/
theorem sign_in_program_name : ¬ ∀ line : List Char, (∀ c ∈ line, c ≠ '|' ∧ c ≠ '>' ∧ c ≠ '*' ∧ c ≠ '?') →
    NamesAgree line := by
  intro h
  obtain ⟨c, word, hword, hcommand, -, hprogram⟩ := h "ls&".toList (by simp)
  have hw : dispatchWord (trim "ls&".toList) = .ret "ls".toList := rfl
  have hc : createCommand "ls&".toList = .ret ⟨.external, ["ls".toList], true, "ls&".toList⟩ := rfl
  rw [hw] at hword
  rw [hc] at hcommand
  cases hword
  cases hcommand
  have hrun := (Exec.execvp.inj (hprogram rfl)).1
  exact absurd hrun (by decide)

end OsHomework.Smash
