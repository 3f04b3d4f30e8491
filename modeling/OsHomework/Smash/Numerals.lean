import OsHomework.Smash.Signals

/-!
# Numbers as arguments

What `fg`, `bg` and `kill` take for a number.

* `numeral`: the number of a decimal numeral, with or without a minus sign;
* `number`: what the commands read with `atoi`, where 0 means that there is no number;
* `ReadsRight`: both are the same, by **`number_eq_numeral_iff`**;
* `fgOn`, `bgOn`, `killOn`: what the commands do with the numbers, and without;
* **`takes_numerals_iff`**: the commands take the numerals, and nothing else, exactly if they read their arguments
  right;
* `kill_job_1abc`: a word that begins with a digit.
-/

set_option autoImplicit false

namespace OsHomework.Smash

/-- The number of a row of digits. -/
def digits (t : List Char) : Option ℤ := if t ≠ [] ∧ t.all Char.isDigit then some (natPart t) else none

/-- The number of a decimal numeral. -/
def numeral : List Char → Option ℤ
  | '-' :: t => (digits t).map fun n => -n
  | t => digits t

/-- `atoi`, and the check that follows it. -/
def number (arg : List Char) : Option ℤ := if atoi arg = 0 then none else some (atoi arg)

/-- A numeral is that of an `int` other than 0. Of another word, the number at its front becomes 0. -/
def ReadsRight (arg : List Char) : Prop :=
  match numeral arg with
  | some n => n ≠ 0 ∧ -2 ^ 31 ≤ n ∧ n < 2 ^ 31
  | none => 2 ^ 32 ∣ strtol arg

/-! ## Reading a numeral -/

section Reading

variable {arg t : List Char} {n : ℤ}

theorem natPart_nonneg (s : List Char) : 0 ≤ natPart s := by
  have hfold : ∀ (l : List Char) (n : ℤ), 0 ≤ n →
      0 ≤ l.foldl (fun (n : ℤ) c => 10 * n + (c.toNat - '0'.toNat : ℕ)) n := by
    intro l
    induction l with
    | nil => exact fun _ h => h
    | cons c l ih => exact fun n h => ih _ (by dsimp only; omega)
  exact hfold _ 0 le_rfl

theorem head_of_digits (h : digits t = some n) : ∃ c rest, t = c :: rest ∧ c.isDigit ∧ n = natPart t := by
  unfold digits at h
  split at h
  next hall =>
    cases h
    obtain ⟨c, rest, rfl⟩ := List.exists_cons_of_ne_nil hall.1
    exact ⟨c, rest, rfl, List.all_eq_true.mp hall.2 c List.mem_cons_self, rfl⟩
  next => cases h

theorem not_space_of_digit {c : Char} (h : c.isDigit) : isSpace c = false ∧ c ≠ '-' ∧ c ≠ '+' := by
  refine ⟨?_, ?_, ?_⟩
  · by_contra hspace
    simp only [isSpace, Bool.not_eq_false, Bool.or_eq_true, decide_eq_true_eq] at hspace
    rcases hspace with ((((rfl | rfl) | rfl) | rfl) | rfl) | rfl <;> cases h
  · rintro rfl
    cases h
  · rintro rfl
    cases h

/-- `strtol` reads a numeral as far as its range goes. -/
theorem strtol_of_numeral (h : numeral arg = some n) : strtol arg = max (-2 ^ 63) (min (2 ^ 63 - 1) n) := by
  unfold numeral at h
  split at h
  next t =>
    obtain ⟨m, hm, rfl⟩ := Option.map_eq_some_iff.mp h
    obtain ⟨c, rest, -, -, rfl⟩ := head_of_digits hm
    have := natPart_nonneg t
    have hval : strtol ('-' :: t) = max (-2 ^ 63) (-natPart t) := rfl
    rw [hval]
    omega
  next =>
    obtain ⟨c, rest, rfl, hc, rfl⟩ := head_of_digits h
    obtain ⟨hspace, hminus, hplus⟩ := not_space_of_digit hc
    have := natPart_nonneg (c :: rest)
    have hval : strtol (c :: rest) = min (2 ^ 63 - 1) (natPart (c :: rest)) := by
      rw [strtol, List.dropWhile_cons_of_neg (by simp [hspace])]
      split
      next heq => exact absurd (List.cons.inj heq).1 hminus
      next heq => exact absurd (List.cons.inj heq).1 hplus
      next => rfl
    rw [hval]
    omega

theorem atoi_range (arg : List Char) : -2 ^ 31 ≤ atoi arg ∧ atoi arg < 2 ^ 31 := by
  have hlo := Int.le_bmod (x := strtol arg) (m := 2 ^ 32) (by decide)
  have hhi := Int.bmod_lt (x := strtol arg) (m := 2 ^ 32) (by decide)
  unfold atoi
  omega

theorem number_eq_some_iff : number arg = some n ↔ n ≠ 0 ∧ atoi arg = n := by
  unfold number
  split
  next h =>
    rw [h]
    exact iff_of_false nofun fun h => h.1 h.2.symm
  next h =>
    rw [Option.some_inj]
    refine ⟨?_, fun h => h.2⟩
    rintro rfl
    exact ⟨h, rfl⟩

theorem number_eq_none_iff : number arg = none ↔ 2 ^ 32 ∣ strtol arg := by
  have hzero : number arg = none ↔ atoi arg = 0 := by
    unfold number
    split
    next h => exact iff_of_true rfl h
    next h => exact iff_of_false nofun h
  rw [hzero, atoi]
  exact Int.dvd_iff_bmod_eq_zero.symm

/-- **The commands read an argument right** if and only if it keeps to the range, or is no number for `atoi`
either. -/
theorem number_eq_numeral_iff : number arg = numeral arg ↔ ReadsRight arg := by
  unfold ReadsRight
  cases hnum : numeral arg with
  | none => exact number_eq_none_iff
  | some n =>
    rw [number_eq_some_iff]
    refine and_congr_right fun _ => ⟨?_, fun ⟨hlo, hhi⟩ => ?_⟩
    · rintro rfl
      exact atoi_range arg
    · have hclamp : strtol arg = n := by
        rw [strtol_of_numeral hnum]
        omega
      rw [atoi, hclamp]
      exact Int.bmod_eq_of_le (by omega) (by omega)

end Reading

/-! ## The commands with numbers -/

namespace Shell

variable (s : Shell) (c : Cmd)

/-- `fg` with the number of a job, or with something else. -/
def fgOn : Option ℤ → Shell
  | none => (s.error "smash error: fg: invalid arguments").done
  | some jobId =>
    match s.jobs.getJobById s.entry jobId with
    | none => (s.error s!"smash error: fg: job-id {jobId} does not exist").done
    | some job =>
      { s with
        entry := setJobStatus s.entry job .foreground
        current := some job
        pc := .fgCont c jobId (s.entry job).jobProcessId }

/-- `bg` with the number of a job, or with something else. The message names `fg`. -/
def bgOn : Option ℤ → Shell
  | none => (s.error "smash error: fg: invalid arguments").done
  | some jobId =>
    match s.jobs.getJobById s.entry jobId with
    | none => (s.error s!"smash error: bg: job-id {jobId} does not exist").done
    | some job =>
      if (s.entry job).jobStatus = .background then
        (s.error s!"smash error: bg: job-id {jobId} is already running in the background").done
      else
        ({ s with entry := setJobStatus s.entry job .background }.send
          (s.entry job).jobProcessId sigCont none).done

/-- `kill` with the numbers of a signal and of a job, or with something else. -/
def killOn : Option (ℤ × ℤ) → Shell
  | none => (s.error "smash error: kill: invalid arguments").done
  | some (sig, jobId) =>
    match s.jobs.getJobById s.entry jobId with
    | none => (s.error s!"smash error: kill: job-id {jobId} does not exist").done
    | some job =>
      match s.procs.kill (s.entry job).jobProcessId sig with
      | none => (s.error "smash error: kill: invalid arguments").done
      | some t => { s with procs := t, entry := killStatus s.entry job sig }.done

/-- The signal that `kill` sends, and the job it sends it to. -/
def killJobOn : Option (ℤ × ℤ) → Option (Ptr × ℤ)
  | none => none
  | some (sig, jobId) => (s.jobs.getJobById s.entry jobId).map fun job => (job, sig)

end Shell

/-- The numbers of the arguments of `kill`, if `read` finds a number. -/
def killNumbers (read : List Char → Option ℤ) (sigArg jobArg : List Char) : Option (ℤ × ℤ) :=
  match sigArg with
  | '-' :: t => (read t).bind fun sig => (read jobArg).map fun jobId => (sig, jobId)
  | _ => none

/-- `fg`, `bg` and `kill` take numerals, and nothing else. -/
structure TakesNumerals (sigArg jobArg : List Char) : Prop where
  fg : ∀ (s : Shell) (c : Cmd) (name : List Char), c.argv = [name, jobArg] →
    s.foregroundCommand c = s.fgOn c (numeral jobArg)
  bg : ∀ (s : Shell) (c : Cmd) (name : List Char), c.argv = [name, jobArg] →
    s.backgroundCommand c = s.bgOn (numeral jobArg)
  kill : ∀ (s : Shell) (c : Cmd) (name : List Char), c.argv = [name, sigArg, jobArg] →
    s.killCommand c = s.killOn (killNumbers numeral sigArg jobArg)
  signal : ∀ (s : Shell) (c : Cmd) (name : List Char), c.argv = [name, sigArg, jobArg] →
    s.killJob c = s.killJobOn (killNumbers numeral sigArg jobArg)

section Commands

variable {c : Cmd} {name sigArg jobArg : List Char}

theorem foregroundCommand_number (s : Shell) (hargv : c.argv = [name, jobArg]) :
    s.foregroundCommand c = s.fgOn c (number jobArg) := by
  simp only [Shell.foregroundCommand, Shell.fgTarget, hargv, number]
  by_cases h : atoi jobArg = 0
  · rw [if_pos h, if_pos h]
    rfl
  · rw [if_neg h, if_neg h]
    rfl

theorem backgroundCommand_number (s : Shell) (hargv : c.argv = [name, jobArg]) :
    s.backgroundCommand c = s.bgOn (number jobArg) := by
  simp only [Shell.backgroundCommand, Shell.bgTarget, hargv, number]
  by_cases h : atoi jobArg = 0
  · rw [if_pos h, if_pos h]
    rfl
  · rw [if_neg h, if_neg h]
    rfl

/-- `kill` reads both numbers before it looks for the job. -/
theorem killCommand_number (s : Shell) (hargv : c.argv = [name, sigArg, jobArg]) :
    s.killCommand c = s.killOn (killNumbers number sigArg jobArg) ∧
      s.killJob c = s.killJobOn (killNumbers number sigArg jobArg) := by
  by_cases hsign : ∃ t, sigArg = '-' :: t
  · obtain ⟨t, rfl⟩ := hsign
    have hnumbers : killNumbers number ('-' :: t) jobArg =
        if atoi jobArg = 0 ∨ atoi t = 0 then none else some (atoi t, atoi jobArg) := by
      unfold killNumbers number
      by_cases hsig : atoi t = 0 <;> by_cases hjob : atoi jobArg = 0 <;> simp [hsig, hjob]
    simp only [hnumbers, Shell.killCommand, Shell.killJob, hargv]
    by_cases h : atoi jobArg = 0 ∨ atoi t = 0
    · simp only [h, if_true]
      exact ⟨rfl, rfl⟩
    · simp only [h, if_false]
      exact ⟨rfl, rfl⟩
  · have hnone : killNumbers number sigArg jobArg = none := by
      unfold killNumbers
      split
      next t => exact absurd ⟨t, rfl⟩ hsign
      next => rfl
    have hinvalid : ∀ first t last, c.argv ≠ [first, '-' :: t, last] := by
      rintro first t last h
      rw [hargv] at h
      cases h
      exact hsign ⟨t, rfl⟩
    rw [hnone]
    constructor
    · unfold Shell.killCommand
      dsimp only
      split
      next h => exact absurd h (hinvalid _ _ _)
      next => rfl
    · unfold Shell.killJob
      split
      next h => exact absurd h (hinvalid _ _ _)
      next => rfl

/-- A shell with one job, which is stopped. -/
def oneJob (jobId : ℤ) : Shell :=
  { start 0 fun _ => ⟨jobId, 1, .stopped, [], 0⟩ with jobs := ⟨[0], jobId⟩ }

theorem oneJob_getJobById (jobId n : ℤ) :
    (oneJob jobId).jobs.getJobById (oneJob jobId).entry n = if jobId = n then some 0 else none := by
  by_cases h : jobId = n <;> simp [oneJob, start, JobsList.getJobById, h]

/-- With one job in the list, `fg` resumes it for its own number only. -/
theorem fgOn_oneJob (jobId : ℤ) (x : Option ℤ) : ((oneJob jobId).fgOn c x).pc = .prompt ↔ x ≠ some jobId := by
  cases x with
  | none => exact iff_of_true rfl nofun
  | some n =>
    simp only [Shell.fgOn, oneJob_getJobById]
    by_cases h : jobId = n
    · simp [h]
    · simp [h, Ne.symm h, Shell.done]

theorem eq_of_fgOn_eq {x y : Option ℤ} (h : ∀ s : Shell, s.fgOn c x = s.fgOn c y) : x = y := by
  refine Option.ext fun n => not_iff_not.mp ?_
  have hpc := fgOn_oneJob (c := c) n x
  rw [h] at hpc
  exact hpc.symm.trans (fgOn_oneJob n y)

theorem killJobOn_oneJob (jobId : ℤ) (x : Option ℤ) :
    (oneJob jobId).killJobOn (x.bind fun sig => some (sig, jobId)) = x.map fun sig => (0, sig) := by
  cases x with
  | none => rfl
  | some sig => simp [Shell.killJobOn, oneJob_getJobById]

/-- **The commands take numerals, and nothing else**, exactly if `atoi` reads the job right, and the signal
too if there is a job. -/
theorem takes_numerals_iff : TakesNumerals sigArg jobArg ↔
    ReadsRight jobArg ∧ ∀ t, sigArg = '-' :: t → (numeral jobArg).isSome → ReadsRight t := by
  constructor
  · intro h
    have hjob : number jobArg = numeral jobArg := by
      refine eq_of_fgOn_eq (c := ⟨.fg, ["fg".toList, jobArg], false, []⟩) fun s => ?_
      exact (foregroundCommand_number s rfl).symm.trans (h.fg s _ _ rfl)
    refine ⟨number_eq_numeral_iff.mp hjob, ?_⟩
    rintro t rfl hsome
    obtain ⟨n, hn⟩ := Option.isSome_iff_exists.mp hsome
    have hsignal := (killCommand_number (c := ⟨.kill, ["kill".toList, '-' :: t, jobArg], false, []⟩)
      (oneJob n) rfl).2.symm.trans (h.signal (oneJob n) _ _ rfl)
    simp only [killNumbers, hjob, hn, Option.map_some, killJobOn_oneJob] at hsignal
    exact number_eq_numeral_iff.mp (Option.map_injective (fun _ _ heq => (Prod.mk.inj heq).2) hsignal)
  · rintro ⟨hjob, hsig⟩
    rw [← number_eq_numeral_iff] at hjob
    have hnumbers : killNumbers number sigArg jobArg = killNumbers numeral sigArg jobArg := by
      unfold killNumbers
      split
      next t =>
        cases hn : numeral jobArg with
        | none => simp [hjob, hn]
        | some n => rw [hjob, hn, number_eq_numeral_iff.mpr (hsig t rfl (by rw [hn]; rfl))]
      next => rfl
    constructor
    · intro s c name hargv
      rw [foregroundCommand_number s hargv, hjob]
    · intro s c name hargv
      rw [backgroundCommand_number s hargv, hjob]
    · intro s c name hargv
      rw [(killCommand_number s hargv).1, hnumbers]
    · intro s c name hargv
      rw [(killCommand_number s hargv).2, hnumbers]

end Commands

/-- `kill -9 1abc` kills the job 1. -/
theorem kill_job_1abc : ¬ ∀ sigArg jobArg : List Char, TakesNumerals sigArg jobArg := by
  intro h
  have hsignal := (h "-9".toList "1abc".toList).signal (oneJob 1)
    ⟨.kill, ["kill".toList, "-9".toList, "1abc".toList], false, "kill -9 1abc".toList⟩ _ rfl
  exact absurd hsignal (by decide)

end OsHomework.Smash
