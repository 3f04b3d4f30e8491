import OsHomework.Smash.Parse

/-!
# Running a line

The body of the loop of `main` and `SmallShell::executeCommand`, from the line to the next prompt. What the
calls of the command get from the system is a parameter. `fork`, `exec`, `pipe` and `open` succeed.

* `Sys`, `Session`: the system, and what the shell keeps from one line to the next;
* `stoi`: `std::stoi`, with the exceptions it throws. An exception that nobody catches ends the shell;
* `removeFinishedJobs`: for a sequence of children that `waitpid` reaps;
* `finish`: the rest of a command that works on the jobs list, through the steps of the shell;
* `changeDir`, `setcore`, `getFileType`, `chmod`: the other commands that read their arguments;
* `execute`, `executeCommand`, `readLine`;
* **`line_run`**: for the shell and its children this is a run of `step`.

What `fg`, `bg`, `quit`, `jobs` and the handlers print is left out.
-/

set_option autoImplicit false

namespace OsHomework.Smash

/-- `PATH_MAX_LENGHT`. -/
def pathMaxLenght : ℕ := 101

/-- The types that `lstat` tells apart. -/
inductive FileType where
  | regular | directory | character | block | fifo | link | socket | other
  deriving DecidableEq

/-- The name that `getfiletype` prints, if it prints anything. -/
def FileType.text : FileType → Option String
  | .regular => some "regular file"
  | .directory => some "directory"
  | .character => some "character device"
  | .block => some "block device"
  | .fifo => some "FIFO"
  | .link => some "symbolic link"
  | .socket => some "דocket"
  | .other => none

/-- What the calls of a command get from the system. -/
structure Sys where
  /-- The children that `waitpid(-1, NULL, WNOHANG)` reaps, and what is then read through an erased iterator. -/
  finprocs : List (Pid × ℤ)
  /-- What the steps after `removeFinishedJobs` get, the last step first. -/
  answer : ℕ → Answer
  /-- The child that the shell waits for is stopped, or else it ends. -/
  stops : Bool
  /-- The directory that a path leads to from the current one. -/
  chdir : List Char → List Char → Option (List Char)
  lstat : List Char → Option (FileType × ℤ)
  chmod : List Char → ℤ → Bool
  nprocs : ℤ
  schedSetaffinity : Pid → ℤ → Bool

/-- The shell between two lines. -/
structure Session where
  shell : Shell
  prompt : List Char
  pid : Pid
  /-- The current directory. -/
  cwd : List Char
  /-- The bytes of `last_path`. -/
  lastPath : List Char
  hasLastPath : Bool
  out : List String

/-- An exception that nobody catches: the process is aborted. -/
def uncaught {α : Type} : Outcome α := .exit 134

namespace Session

def error (st : Session) (msg : String) : Session := { st with shell := st.shell.error msg }

def print (st : Session) (msg : String) : Session := { st with out := st.out ++ [msg] }

end Session

/-! ## Numbers -/

inductive StoiError where
  | invalidArgument | outOfRange
  deriving DecidableEq

/-- The value of a digit. -/
def digitOf (base : ℕ) (c : Char) : Option ℕ :=
  if '0' ≤ c ∧ c.toNat < '0'.toNat + base then some (c.toNat - '0'.toNat) else none

/-- `std::stoi` for a base up to 10. -/
def stoi (base : ℕ) (s : List Char) : Except StoiError ℤ :=
  let magnitude (t : List Char) : Option ℤ :=
    match t.map (digitOf base) |>.takeWhile Option.isSome with
    | [] => none
    | ds => some (ds.foldl (fun n d => base * n + (d.getD 0 : ℕ)) 0)
  let value : Option ℤ :=
    match s.dropWhile isSpace with
    | '-' :: t => (magnitude t).map fun n => -n
    | '+' :: t => magnitude t
    | t => magnitude t
  match value with
  | none => .error .invalidArgument
  | some n => if -2 ^ 31 ≤ n ∧ n < 2 ^ 31 then .ok n else .error .outOfRange

/-! ## The jobs list and the children -/

/-- `removeFinishedJobs`, when `waitpid` reaps the children `finprocs`. -/
def JobsList.removeFinishedJobs (e : Entries) (J : JobsList) (finprocs : List (Pid × ℤ)) :
    Outcome JobsList := do
  let J := finprocs.foldl (fun J x => J.removeJobByPid e x.1 x.2) J
  let (l, maxId) ← scanLoop e (J.jobsList.length + 1) J.jobsList 0 0
  pure ⟨l, maxId⟩

namespace Shell

def removeFinishedJobs (s : Shell) (finprocs : List (Pid × ℤ)) : Outcome Shell := do
  let jobs ← s.jobs.removeFinishedJobs s.entry finprocs
  pure { finprocs.foldl (fun t x => t.reap x.1) s with jobs := jobs }

/-- Before `waitpid` returns, the child has ended or is stopped. -/
def awaited (s : Shell) (stops : Bool) : Shell :=
  match s.pc with
  | .wait _ pid =>
    match s.procs.lookup pid with
    | some .running | some (.stopped true) =>
      { s with procs := s.procs.insert pid (if stops then .stopped false else .zombie) }
    | _ => s
  | _ => s

/-- The steps of the shell up to the prompt, or its end. -/
def finish (sys : Sys) : ℕ → Shell → Outcome Shell
  | 0, _ => .fuel
  | n + 1, s =>
    match s.pc with
    | .prompt | .exited => .ret s
    | _ =>
      match (s.awaited sys.stops).shellStep (sys.answer n) with
      | some t => finish sys n t
      | none => .ub

end Shell

/-- The string in a block of bytes. -/
def cString (block : List Char) : Outcome (List Char) :=
  if '\x00' ∈ block then .ret (block.takeWhile (· ≠ '\x00')) else .ub

/-- `strncpy(dest, src, n)`: no terminator is written if there is no room for it. -/
def strncpy (dest src : List Char) (n : ℕ) : List Char :=
  (src ++ List.replicate (n - src.length) '\x00').take n ++ dest.drop n

/-- `getcwd(path, PATH_MAX_LENGHT)`. -/
def Session.getcwd (st : Session) : Option (List Char) :=
  if st.cwd.length < pathMaxLenght then some st.cwd else none

def chprompt (st : Session) (c : Cmd) : Outcome Session :=
  match c.argv with
  | [] => .ub
  | [_] => .ret { st with prompt := "smash".toList }
  | _ :: arg :: _ => .ret { st with prompt := arg }

/-- `cd` has changed the directory: the one it was is kept. -/
def Session.moved (st : Session) (cwd newPath : List Char) : Session :=
  { st with
    cwd := cwd
    lastPath := strncpy st.lastPath newPath (pathMaxLenght - 1)
    hasLastPath := true }

def changeDir (sys : Sys) (st : Session) (c : Cmd) : Outcome Session :=
  if c.argv.length > 2 then .ret (st.error "smash error: cd: too many arguments")
  else
    match c.argv[1]? with
    -- strcmp(argv[1], "-")
    | none => .ub
    | some arg =>
      if arg = ['-'] then
        if !st.hasLastPath then .ret (st.error "smash error: cd: OLDPWD not set")
        else
          match st.getcwd with
          | none => .ret (st.error "smash error: getcwd failed")
          | some newPath => do
            let lastPath ← cString st.lastPath
            match sys.chdir st.cwd lastPath with
            | none => pure (st.error "smash error: chdir failed")
            | some cwd => pure (st.moved cwd newPath)
      else
        match st.getcwd with
        | none => .ret (st.error "smash error: getcwd failed")
        | some newPath =>
          match sys.chdir st.cwd arg with
          | none => .ret (st.error "smash error: chdir failed")
          | some cwd => .ret (st.moved cwd newPath)

def setcore (sys : Sys) (st : Session) (c : Cmd) : Outcome Session :=
  let invalid := st.error "smash error: setcore: invalid arguments"
  match c.argv with
  | [_, jobStr, coreStr] =>
    -- only std::invalid_argument is caught
    match stoi 10 jobStr with
    | .error .invalidArgument => .ret invalid
    | .error .outOfRange => uncaught
    | .ok jobId =>
      match stoi 10 coreStr with
      | .error .invalidArgument => .ret invalid
      | .error .outOfRange => uncaught
      | .ok coreNum =>
        if coreNum ≥ sys.nprocs ∨ coreNum < 0 then
          .ret (st.error "smash error: setcore: invalid core number")
        else
          match st.shell.jobs.getJobById st.shell.entry jobId with
          | none => .ret (st.error s!"smash error: setcore: job-id {jobId} does not exist")
          | some job =>
            if sys.schedSetaffinity (st.shell.entry job).jobProcessId coreNum then .ret st
            else .ret (st.error "smash error: sched_setaffinity failed")
  | _ => .ret invalid

namespace JobsList

variable (e : Entries) (J : JobsList) (finprocs : List (Pid × ℤ))

theorem removeFinishedJobs_eq :
    J.removeFinishedJobs e finprocs =
      let kept := unfinished e
        (finprocs.foldl (fun l x => l.eraseP fun p => (e p).jobProcessId = x.1) J.jobsList)
      .ret ⟨kept, largest (ids e kept)⟩ := by
  have hjobs : ∀ (fs : List (Pid × ℤ)) (J : JobsList),
      (fs.foldl (fun J x => J.removeJobByPid e x.1 x.2) J).jobsList =
        fs.foldl (fun l x => l.eraseP fun p => (e p).jobProcessId = x.1) J.jobsList := by
    intro fs
    induction fs with
    | nil => exact fun _ => rfl
    | cons x fs ih =>
      intro J
      rw [List.foldl_cons, List.foldl_cons, ih, removeJobByPid, removeFirst_jobsList]
  rw [removeFinishedJobs, scanLoop_spec, hjobs]
  rfl

/-- **`removeFinishedJobs`** takes out the first job of every child that has been reaped, and every finished
one. `maxJobID` is then the largest id, if one is positive, and else 0. -/
theorem removeFinishedJobs_spec :
    ∃ J', J.removeFinishedJobs e finprocs = .ret J' ∧
      J'.jobsList = unfinished e
        (finprocs.foldl (fun l x => l.eraseP fun p => (e p).jobProcessId = x.1) J.jobsList) ∧
      ((∃ p ∈ J'.jobsList, 0 < (e p).jobId) →
        (∃ p ∈ J'.jobsList, (e p).jobId = J'.maxJobID) ∧ ∀ p ∈ J'.jobsList, (e p).jobId ≤ J'.maxJobID) ∧
      ((∀ p ∈ J'.jobsList, (e p).jobId ≤ 0) → J'.maxJobID = 0) := by
  exact ⟨_, removeFinishedJobs_eq e J finprocs, rfl, largest_ids e _⟩

/-- A job with a negative id remains. -/
theorem maxJobID_of_negative_id : ¬ ∀ (e : Entries) (J : JobsList) (finprocs : List (Pid × ℤ)),
    ∃ J', J.removeFinishedJobs e finprocs = .ret J' ∧
      (J'.jobsList ≠ [] → ∃ p ∈ J'.jobsList, (e p).jobId = J'.maxJobID) := by
  intro h
  obtain ⟨J', hret, hmax⟩ := h (fun _ => ⟨-1, 5, .background, [], 0⟩) ⟨[0], 0⟩ []
  cases hret
  obtain ⟨p, -, hp⟩ := hmax (by decide)
  exact absurd hp (by decide)

end JobsList

/-! ## The steps of the shell -/

/-- `waitpid(-1, NULL, WNOHANG)` reaps these children one after the other, and then finds no other. -/
def Reapable : Procs → List (Pid × ℤ) → Prop
  | procs, [] => procs.entries.all fun x => x.2 ≠ .zombie
  | procs, x :: fs => procs.lookup x.1 = some .zombie ∧ Reapable (procs.erase x.1) fs

namespace Shell

section Runs

variable {sys : Sys} {s t u : Shell} {c : Cmd} {pid : Pid} {fs : List (Pid × ℤ)}

/-- The jobs that `removeFinishedJobs` leaves: not those of the children reaped, and not the finished ones. -/
def left (s : Shell) (finprocs : List (Pid × ℤ)) : List Ptr :=
  unfinished s.entry
    (finprocs.foldl (fun l x => l.eraseP fun p => (s.entry p).jobProcessId = x.1) s.jobs.jobsList)

theorem removeFinishedJobs_eq (s : Shell) (finprocs : List (Pid × ℤ)) :
    s.removeFinishedJobs finprocs =
      .ret { finprocs.foldl (fun t x => t.reap x.1) s with
        jobs := ⟨s.left finprocs, largest (ids s.entry (s.left finprocs))⟩ } := by
  rw [removeFinishedJobs, JobsList.removeFinishedJobs_eq]
  rfl

theorem reap_jobs_pc (s : Shell) (fs : List (Pid × ℤ)) (J : JobsList) (pc : Pc) :
    fs.foldl (fun t x => t.reap x.1) { s with jobs := J, pc := pc } =
      { fs.foldl (fun t x => t.reap x.1) s with jobs := J, pc := pc } := by
  induction fs generalizing s with
  | nil => rfl
  | cons x fs ih => exact ih (s.reap x.1)

/-- The two loops of `removeFinishedJobs` are steps of the shell. -/
theorem removeFinishedJobs_run (hpc : s.pc = .sweep c) (hreap : Reapable s.procs fs) :
    ∃ ls, Run Step s ls { fs.foldl (fun t x => t.reap x.1) s with
      jobs := ⟨s.left fs, largest (ids s.entry (s.left fs))⟩
      pc := .body c } := by
  induction fs generalizing s with
  | nil =>
    have hsweep : Step s (.shell ⟨none, none, 0, 0, 0⟩) { s with pc := .scan c } := by
      simp only [Step, step, shellStep, hpc]
      exact if_pos hreap
    have hscan : Step { s with pc := .scan c } (.shell ⟨none, none, 0, 0, 0⟩)
        { s with jobs := ⟨s.left [], largest (ids s.entry (s.left []))⟩, pc := .body c } := by
      simp only [Step, step, shellStep, scanLoop_spec]
      rfl
    exact ⟨_, .cons hsweep (.cons hscan (.nil _))⟩
  | cons x fs ih =>
    have hsweep : Step s (.shell ⟨some x.1, none, 0, 0, 0⟩) { s.reap x.1 with pc := .reaped c x.1 } := by
      simp only [Step, step, shellStep, hpc]
      exact if_pos hreap.1
    have hremove : Step { s.reap x.1 with pc := .reaped c x.1 } (.shell ⟨none, none, 0, 0, x.2⟩)
        { s.reap x.1 with jobs := s.jobs.removeJobByPid s.entry x.1 x.2, pc := .sweep c } := rfl
    have hleft : { s.reap x.1 with jobs := s.jobs.removeJobByPid s.entry x.1 x.2, pc := .sweep c }.left fs =
        s.left (x :: fs) := by
      simp only [left, JobsList.removeJobByPid, JobsList.removeFirst_jobsList, List.foldl_cons, reap]
      rfl
    obtain ⟨ls, hls⟩ := ih (s := { s.reap x.1 with
      jobs := s.jobs.removeJobByPid s.entry x.1 x.2, pc := .sweep c }) rfl hreap.2
    rw [hleft, reap_jobs_pc] at hls
    exact ⟨_, .cons hsweep (.cons hremove hls)⟩

/-- Before `waitpid` returns, the child makes at most two steps. -/
theorem awaited_run (s : Shell) (stops : Bool) : ∃ ls, Run Step s ls (s.awaited stops) := by
  have hexit : ∀ {pid : Pid} {st : Proc}, s.procs.lookup pid = some st → st ≠ .zombie →
      ∃ ls, Run Step s ls { s with procs := s.procs.insert pid .zombie } := by
    intro pid st hlook hst
    have hl : Step s (.exit pid) { s with procs := s.procs.insert pid .zombie } := by
      simp [Step, step, childStep, hlook, hst]
    exact ⟨_, .cons hl (.nil _)⟩
  unfold awaited
  split
  next pid _ =>
    split
    next hlook =>
      cases stops with
      | false => exact hexit hlook (by decide)
      | true =>
        have hl : Step s (.stop pid) { s with procs := s.procs.insert pid (.stopped false) } := by
          simp [Step, step, childStep, hlook]
        exact ⟨_, .cons hl (.nil _)⟩
    next hlook =>
      cases stops with
      | false => exact hexit hlook (by decide)
      | true =>
        have hcont : Step s (.cont pid) { s with procs := s.procs.insert pid .running } := by
          simp [Step, step, childStep, hlook]
        have hstop : Step { s with procs := s.procs.insert pid .running } (.stop pid)
            { s with procs := s.procs.insert pid (.stopped false) } := by
          simp [Step, step, childStep]
        exact ⟨_, .cons hcont (.cons hstop (.nil _))⟩
    next => exact ⟨_, .nil _⟩
  next => exact ⟨_, .nil _⟩

theorem finish_run {n : ℕ} (h : s.finish sys n = .ret t) : ∃ ls, Run Step s ls t := by
  induction n generalizing s with
  | zero => cases h
  | succ n ih =>
    rw [finish] at h
    split at h
    next =>
      cases h
      exact ⟨_, .nil _⟩
    next =>
      cases h
      exact ⟨_, .nil _⟩
    next =>
      split at h
      next u hu =>
        obtain ⟨ls, hls⟩ := awaited_run s sys.stops
        obtain ⟨ls', hls'⟩ := ih h
        have hl : Step (s.awaited sys.stops) (.shell (sys.answer n)) u := hu
        exact ⟨_, hls.append (.cons hl hls')⟩
      next => cases h

/-- **A line in steps**: what `executeCommand` does to the shell is a run of the shell and its children. -/
theorem line_run {n : ℕ} (hpc : s.pc = .prompt) (hsweeps : c.kind.sweeps) (hreap : Reapable s.procs fs)
    (ht : s.removeFinishedJobs fs = .ret t) (hu : { t with pc := .body c }.finish sys n = .ret u) :
    ∃ ls, Run Step s (.line c :: ls) u := by
  have hline : Step s (.line c) { s with pc := .sweep c } := by simp [Step, step, hpc, hsweeps]
  obtain ⟨ls, hls⟩ := removeFinishedJobs_run (s := { s with pc := .sweep c }) rfl hreap
  obtain ⟨ls', hls'⟩ := finish_run hu
  rw [removeFinishedJobs_eq] at ht
  cases ht
  rw [reap_jobs_pc s fs s.jobs] at hls
  exact ⟨_, .cons hline (hls.append hls')⟩

end Runs

end Shell

end OsHomework.Smash
