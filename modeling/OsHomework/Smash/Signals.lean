import OsHomework.Smash.CtrlZ
import OsHomework.Smash.Listing

/-!
# The signals that the shell sends to its jobs

`jobStatus` is a copy that the shell keeps of what it has told a process. `Told` records beside the shell
what was in fact sent last, a stopping or a continuing signal: to the child with a pid, and to the process
that an object was made for. The two differ when a child has been reaped and its pid is used again.

* `isStopping`, `told`: what a signal says;
* `Shell.signal`: the job that gets a signal in a step. The `SIGKILL` that `quit kill` sends to every job
  is none of them: it neither stops nor continues;
* `Told.step`: the record after a step;
* `viaShell`: nobody but the shell stops or continues a child;
* `keepsStatus`: the steps after which the status still agrees with the record;
* `Proc.Obeys`: what a process does with the signals;
* `backgroundCommand_eq`, `killCommand_eq`, `body_quiet`: the commands that signal a job, and the others.
-/

set_option autoImplicit false

namespace OsHomework.Smash

/-- `SIGSTOP`, `SIGTSTP`, `SIGTTIN` or `SIGTTOU`. -/
def isStopping (sig : ℤ) : Bool := sigStop ≤ sig && sig ≤ 22

/-- Whether the last stopping or continuing signal was a stopping one, after `sig`. -/
def told (sig : ℤ) (last : Bool) : Bool :=
  if isStopping sig then true else if sig = sigCont then false else last

@[simp] theorem told_stop (last : Bool) : told sigStop last = true := rfl

@[simp] theorem told_cont (last : Bool) : told sigCont last = false := rfl

@[simp] theorem told_kill (last : Bool) : told sigKill last = last := rfl

structure Told where
  /-- To the child with the pid. -/
  child : Pid → Bool
  /-- To the process the object was made for. -/
  job : Ptr → Bool

/-! ## Who gets a signal -/

namespace Shell

/-- The job that `bg` resumes, if it resumes one. -/
def bgJob (s : Shell) (c : Cmd) : Option Ptr :=
  match s.bgTarget c with
  | .error _ => none
  | .ok jobId =>
    (s.jobs.getJobById s.entry jobId).filter fun job => (s.entry job).jobStatus ≠ .background

/-- The job that `kill` sends a signal to, and the signal. -/
def killJob (s : Shell) (c : Cmd) : Option (Ptr × ℤ) :=
  match c.argv with
  | [_, '-' :: sigStr, jobStr] =>
    if atoi jobStr = 0 ∨ atoi sigStr = 0 then none
    else (s.jobs.getJobById s.entry (atoi jobStr)).map fun job => (job, atoi sigStr)
  | _ => none

/-- The job that gets a signal in a step, and the signal. -/
def signal (s : Shell) : Act → Option (Ptr × ℤ)
  | .shell _ =>
    match s.pc with
    | .body c =>
      match c.kind with
      | .bg => (s.bgJob c).map fun job => (job, sigCont)
      | .kill => s.killJob c
      | _ => none
    | .fgCont .. => s.current.map fun job => (job, sigCont)
    | _ => none
  | .ctrlZ _ => s.current.map fun job => (job, sigStop)
  | .ctrlC => s.current.map fun job => (job, sigKill)
  | _ => none

end Shell

/-! ## The record -/

/-- A signal reaches the child with the pid, and so the objects made for it. -/
def Told.signal (g : Told) (s : Shell) (pid : Pid) (sig : ℤ) : Told :=
  if pid ∈ s.procs then
    { child := Function.update g.child pid (told sig (g.child pid))
      job := fun p =>
        if s.reaped p = false ∧ (s.entry p).jobProcessId = pid then told sig (g.job p) else g.job p }
  else g

/-- The signal of a step from `s`, if there is one. -/
def Told.hear (g : Told) (s : Shell) (l : Act) : Told :=
  match s.signal l with
  | some (job, sig) => g.signal s (s.entry job).jobProcessId sig
  | none => g

/-- The record after a step from `s` to `t`: a new child has been told nothing, and a new object is for the
child with its pid. -/
def Told.step (g : Told) (s : Shell) (l : Act) (t : Shell) : Told :=
  let h := g.hear s l
  { child := fun pid => if pid ∈ t.procs ∧ pid ∉ s.procs then false else h.child pid
    job := fun p => if p ∈ t.objs ∧ p ∉ s.objs then h.child (t.entry p).jobProcessId else h.job p }

/-- Nobody but the shell stops or continues a child: it stops by itself only if it was told to. -/
def viaShell (g : Told) : Act → Bool
  | .stop pid => g.child pid
  | .cont _ => false
  | _ => true

/-- The shell and its record. -/
abbrev Traced := Shell × Told

def tracedStep (x : Traced) (l : Act) : Option Traced :=
  if viaShell x.2 l then (step x.1 l).map fun t => (t, x.2.step x.1 l t) else none

/-- A step in which stop and continue signals reach the children through the shell only. -/
def TracedStep (x : Traced) (l : Act) (y : Traced) : Prop := tracedStep x l = some y

/-- The shell before its first line, which has sent no signal. -/
def tracedStart (maxJobID : ℤ) (entry : Entries) : Traced :=
  (start maxJobID entry, ⟨fun _ => false, fun _ => false⟩)

/-! ## The steps that keep the status right -/

/-- Every other job in the list of the child that `job`'s pid names shows already what `sig` says. -/
def Shell.othersAgree (s : Shell) (job : Ptr) (sig : ℤ) : Bool :=
  s.jobs.jobsList.all fun p =>
    p = job || s.reaped p || (s.entry p).jobProcessId ≠ (s.entry job).jobProcessId ||
      if isStopping sig then (s.entry p).jobStatus = .stopped
      else sig ≠ sigCont || (s.entry p).jobStatus ≠ .stopped

/-- `kill` fails, or the status it leaves the job with fits. It changes the status for `SIGKILL` and
`SIGSTOP` only. -/
def Shell.killFits (s : Shell) (job : Ptr) (sig : ℤ) : Bool :=
  (s.procs.kill (s.entry job).jobProcessId sig).isNone ||
    if sig = sigKill then (s.entry job).jobStatus ≠ .stopped
    else if sig = sigStop then !s.reaped job || (s.entry job).jobStatus = .stopped
    else if isStopping sig then s.reaped job || (s.entry job).jobStatus = .stopped
    else if sig = sigCont then s.reaped job || (s.entry job).jobStatus ≠ .stopped
    else true

/-- The steps after which the status agrees with the record. -/
def keepsStatus (s : Shell) (g : Told) : Act → Bool
  | .ctrlZ _ => s.current.all fun job =>
      s.othersAgree job sigStop && (s.pc.resumes || !s.reaped job || g.job job)
  | .ctrlC => s.current.all fun job =>
      s.pc.resumes || job ∉ s.jobs.jobsList || (s.entry job).jobStatus ≠ .stopped
  | .shell _ =>
    match s.pc with
    | .fgCont .. => s.current.all fun job => s.othersAgree job sigCont
    | .body c =>
      match c.kind with
      | .bg => (s.bgJob c).all fun job =>
          s.othersAgree job sigCont && (!s.reaped job || (s.entry job).jobStatus ≠ .stopped)
      | .kill => (s.killJob c).all fun x => s.othersAgree x.1 x.2 && s.killFits x.1 x.2
      | _ => true
    | _ => true
  | _ => true

/-! ## What a process does with the signals -/

def Proc.isStopped : Proc → Bool
  | .stopped _ => true
  | _ => false

/-- It has ended, or it is stopped exactly if it was told so. -/
def Proc.Obeys (st : Proc) (last : Bool) : Prop := st = .zombie ∨ st.isStopped = last

/-- A process obeys every signal, unless it gets another stopping signal than `SIGSTOP` while it runs. -/
theorem Proc.Obeys.receive {st : Proc} {last : Bool} {sig : ℤ} (h : st.Obeys last)
    (hsig : isStopping sig → sig = sigStop ∨ last = true) : (st.receive sig).Obeys (told sig last) := by
  rcases h with rfl | rfl
  · exact .inl rfl
  · cases st with
    | zombie => exact .inl rfl
    | running =>
      by_cases hs : isStopping sig
      · rcases hsig hs with rfl | hlast
        · exact .inr rfl
        · cases hlast
      · have hne : sig ≠ sigStop := by
          rintro rfl
          exact hs rfl
        unfold Proc.receive told
        by_cases hk : sig = sigKill
        · rw [hk]
          exact .inl rfl
        · simp [Proc.Obeys, Proc.isStopped, hs, hk, hne]
    | stopped r =>
      unfold Proc.receive told
      by_cases hk : sig = sigKill
      · rw [hk]
        exact .inl rfl
      · by_cases hc : sig = sigCont
        · rw [hc]
          exact .inr rfl
        · simp [Proc.Obeys, Proc.isStopped, hk, hc]

/-- A signal number that `kill` refuses does nothing. -/
theorem Proc.receive_of_bad {sig : ℤ} (h : ¬ (0 ≤ sig ∧ sig ≤ 64)) (st : Proc) : st.receive sig = st := by
  have h9 : sig ≠ sigKill := by
    rintro rfl
    exact h (by decide)
  have h18 : sig ≠ sigCont := by
    rintro rfl
    exact h (by decide)
  have h19 : sig ≠ sigStop := by
    rintro rfl
    exact h (by decide)
  cases st <;> simp [Proc.receive, h9, h18, h19]

theorem Procs.lookup_sent_any (u : Procs) (pid : Pid) (sig : ℤ) (q : Pid) :
    (u.sent pid sig).lookup q = if q = pid then (u.lookup q).map (·.receive sig) else u.lookup q := by
  by_cases hsig : 0 ≤ sig ∧ sig ≤ 64
  · exact u.lookup_sent pid hsig q
  · have hnone : u.kill pid sig = none := by
      unfold Procs.kill
      split
      next => rfl
      next => rw [if_neg hsig]
    have hid : (u.lookup q).map (·.receive sig) = u.lookup q := by
      simp [Proc.receive_of_bad hsig]
    rw [Procs.sent, hnone, hid, ite_self]
    rfl

/-! ## The commands -/

section Commands

variable {s t : Shell} {g : Told} {a : Answer} {c : Cmd}

theorem backgroundCommand_eq (s : Shell) (c : Cmd) :
    (s.bgJob c = none ∧ ∃ err, s.backgroundCommand c = { s with stderr := err, pc := .prompt }) ∨
      ∃ job err, s.bgJob c = some job ∧ job ∈ s.jobs.jobsList ∧
        s.backgroundCommand c =
          { s with
            entry := setJobStatus s.entry job .background
            procs := s.procs.sent (s.entry job).jobProcessId sigCont
            stderr := err
            pc := .prompt } := by
  unfold Shell.backgroundCommand Shell.bgJob
  cases htarget : s.bgTarget c with
  | error msg => exact .inl ⟨rfl, _, rfl⟩
  | ok jobId =>
    dsimp only
    cases hjob : s.jobs.getJobById s.entry jobId with
    | none => exact .inl ⟨rfl, _, rfl⟩
    | some job =>
      dsimp only
      split
      next hst => exact .inl ⟨by simp [hst], _, rfl⟩
      next hst =>
        obtain ⟨err, herr⟩ := { s with entry := setJobStatus s.entry job .background }.send_eq
          (s.entry job).jobProcessId sigCont none
        refine .inr ⟨job, err, by simp [hst], (mem_of_getJobById hjob).1, ?_⟩
        rw [herr]
        rfl

theorem killCommand_eq (s : Shell) (c : Cmd) :
    (∃ err, s.killCommand c = { s with stderr := err, pc := .prompt } ∧
        ∀ job sig, s.killJob c = some (job, sig) → s.procs.kill (s.entry job).jobProcessId sig = none) ∨
      ∃ job sig u, s.killJob c = some (job, sig) ∧ job ∈ s.jobs.jobsList ∧
        s.procs.kill (s.entry job).jobProcessId sig = some u ∧
        s.killCommand c =
          { s with procs := u, entry := Shell.killStatus s.entry job sig, pc := .prompt } := by
  unfold Shell.killCommand
  dsimp only
  split
  next sigStr jobStr hargv =>
    have hkill : s.killJob c = if atoi jobStr = 0 ∨ atoi sigStr = 0 then none
        else (s.jobs.getJobById s.entry (atoi jobStr)).map fun job => (job, atoi sigStr) := by
      simp only [Shell.killJob, hargv]
    rw [hkill]
    split
    next => exact .inl ⟨_, rfl, fun _ _ h => by cases h⟩
    next =>
      cases hjob : s.jobs.getJobById s.entry (atoi jobStr) with
      | none => exact .inl ⟨_, rfl, fun _ _ h => by cases h⟩
      | some job =>
        dsimp only
        cases hu : s.procs.kill (s.entry job).jobProcessId (atoi sigStr) with
        | none =>
          refine .inl ⟨_, rfl, fun job' sig' heq => ?_⟩
          obtain ⟨rfl, rfl⟩ := Prod.mk.inj (Option.some.inj heq)
          exact hu
        | some u => exact .inr ⟨job, _, u, rfl, (mem_of_getJobById hjob).1, hu, rfl⟩
  next hargv =>
    refine .inl ⟨_, rfl, fun job sig heq => ?_⟩
    unfold Shell.killJob at heq
    split at heq
    next hargv' => exact absurd hargv' (hargv _ _ _)
    next => cases heq

/-- `quit kill` may end processes, and does no more. -/
theorem killAllJobs_eq (s : Shell) : s.killAllJobs.entry = s.entry ∧
    ∀ q st, s.procs.lookup q = some st →
      s.killAllJobs.procs.lookup q = some st ∨ s.killAllJobs.procs.lookup q = some .zombie := by
  unfold Shell.killAllJobs
  generalize s.jobs.jobsList = l
  induction l generalizing s with
  | nil => exact ⟨rfl, fun _ _ h => .inl h⟩
  | cons p l ih =>
    obtain ⟨err, herr⟩ := s.send_eq (s.entry p).jobProcessId sigKill none
    obtain ⟨hentry, hproc⟩ := ih (s.send (s.entry p).jobProcessId sigKill none)
    refine ⟨hentry.trans (by rw [herr]), fun q st hst => ?_⟩
    have hone : (s.send (s.entry p).jobProcessId sigKill none).procs.lookup q = some st ∨
        (s.send (s.entry p).jobProcessId sigKill none).procs.lookup q = some .zombie := by
      rw [herr]
      dsimp only
      rw [Procs.lookup_sent_any, hst]
      split
      next => cases st <;> exact .inr rfl
      next => exact .inl rfl
    rcases hone with hone | hone
    · exact hproc q st hone
    · exact .inr ((hproc q _ hone).elim id id)

/-- A command that signals no single job and leaves none in the foreground. -/
theorem body_quiet (hbg : c.kind ≠ .bg) (hkill : c.kind ≠ .kill) (h : s.body c a = some t)
    (hpc : t.pc = .prompt ∨ t.pc = .exited) :
    t.entry = s.entry ∧ ∀ q st, s.procs.lookup q = some st →
      t.procs.lookup q = some st ∨ t.procs.lookup q = some .zombie := by
  have hsame : ∀ u : Shell, u.entry = s.entry → u.procs = s.procs → u.entry = s.entry ∧
      ∀ q st, s.procs.lookup q = some st →
        u.procs.lookup q = some st ∨ u.procs.lookup q = some .zombie := by
    intro u hentry hprocs
    rw [hprocs]
    exact ⟨hentry, fun _ _ hst => .inl hst⟩
  -- a child that was made is at another point
  have hfork : ∀ next : Pid → Pc, (∀ pid, next pid ≠ .prompt ∧ next pid ≠ .exited) →
      s.fork a next = some t → t.entry = s.entry ∧ ∀ q st, s.procs.lookup q = some st →
        t.procs.lookup q = some st ∨ t.procs.lookup q = some .zombie := by
    intro next hnext hf
    rcases fork_cases hf with rfl | ⟨pid, -, -, rfl⟩
    · exact hsame _ rfl rfl
    · exact absurd hpc (not_or.mpr (hnext pid))
  have hlaunch : ∀ pid : Pid,
      (if c.isBackground then Pc.add c pid .background else .foreground c pid) ≠ .prompt ∧
        (if c.isBackground then Pc.add c pid .background else .foreground c pid) ≠ .exited := by
    intro pid
    cases c.isBackground <;> exact ⟨nofun, nofun⟩
  unfold Shell.body at h
  split at h
  next =>
    obtain rfl := Option.some.inj h
    exact hsame _ rfl rfl
  next =>
    obtain rfl := Option.some.inj h
    unfold Shell.foregroundCommand at hpc ⊢
    split
    next => exact hsame _ rfl rfl
    next =>
      split
      next => exact hsame _ rfl rfl
      next job hjob =>
        -- `fg` has published its job
        simp [*] at hpc
  next hk => exact absurd hk hbg
  next =>
    obtain rfl := Option.some.inj h
    unfold Shell.quitCommand
    split
    next => exact hsame _ rfl rfl
    next =>
      split
      next => exact killAllJobs_eq s
      next => exact hsame _ rfl rfl
    next => exact hsame _ rfl rfl
  next hk => exact absurd hk hkill
  next => exact hfork _ hlaunch h
  next =>
    split at h
    next =>
      obtain rfl := Option.some.inj h
      exact hsame _ rfl rfl
    next => exact hfork _ hlaunch h
  next =>
    split at h
    next =>
      obtain rfl := Option.some.inj h
      exact hsame _ rfl rfl
    next => exact hfork (fun _ => .fork2 c) (fun _ => ⟨nofun, nofun⟩) h
  next =>
    obtain rfl := Option.some.inj h
    exact hsame _ rfl rfl

end Commands

end OsHomework.Smash
