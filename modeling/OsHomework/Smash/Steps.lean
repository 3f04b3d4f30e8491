import OsHomework.Smash.Model

/-!
# What a step of the shell can do

`Moves` has one constructor for each way in which a step changes the shell, with the guard under which
it does. The invariants of the shell are proved by cases on `Moves`, and not by unfolding `step`.

* `Procs.sent`: the children after a signal, and what `lookup` finds there;
* `Moves`: `settle` is every command that ends without a foreground job: it may change the states of
  jobs and children and sort the list, and nothing else;
* **`Step.moves`**: every step is one of them.
-/

set_option autoImplicit false

namespace OsHomework.Smash

/-! ## Signals -/

/-- The children after `kill`, whether it fails or not. -/
def Procs.sent (t : Procs) (pid : Pid) (sig : ℤ) : Procs := (t.kill pid sig).getD t

theorem Procs.lookup_kill {t u : Procs} {pid : Pid} {sig : ℤ} (h : t.kill pid sig = some u) (q : Pid) :
    u.lookup q = if q = pid then (t.lookup q).map (·.receive sig) else t.lookup q := by
  unfold Procs.kill at h
  split at h
  next => cases h
  next st hst =>
    split at h
    next =>
      obtain rfl := Option.some.inj h
      by_cases hq : q = pid
      · subst hq
        simp [hst]
      · simp [hq]
    next => cases h

theorem Procs.mem_kill {t u : Procs} {pid : Pid} {sig : ℤ} (h : t.kill pid sig = some u) (q : Pid) :
    q ∈ u ↔ q ∈ t := by
  rw [← AList.lookup_isSome, ← AList.lookup_isSome, Procs.lookup_kill h q]
  split <;> simp

theorem Procs.mem_sent (t : Procs) (pid : Pid) (sig : ℤ) (q : Pid) : q ∈ t.sent pid sig ↔ q ∈ t := by
  unfold Procs.sent
  cases h : t.kill pid sig with
  | none => rfl
  | some u => exact Procs.mem_kill h q

theorem Procs.lookup_sent (t : Procs) (pid : Pid) {sig : ℤ} (hsig : 0 ≤ sig ∧ sig ≤ 64) (q : Pid) :
    (t.sent pid sig).lookup q = if q = pid then (t.lookup q).map (·.receive sig) else t.lookup q := by
  unfold Procs.sent
  cases h : t.kill pid sig with
  | some u => exact Procs.lookup_kill h q
  | none =>
    have hnone : t.lookup pid = none := by
      unfold Procs.kill at h
      split at h
      next hp => exact hp
      next => simp [hsig] at h
    by_cases hq : q = pid
    · subst hq
      simp [hnone]
    · simp [hq]

namespace Shell

variable (s : Shell) (pid : Pid) (sig : ℤ) (msg : Option String)

theorem send_eq : ∃ err, s.send pid sig msg = { s with procs := s.procs.sent pid sig, stderr := err } := by
  unfold send Procs.sent
  cases s.procs.kill pid sig with
  | none => exact ⟨_, rfl⟩
  | some t => exact ⟨_, rfl⟩

end Shell

/-! ## The moves -/

/-- `t` is `s` after a command that leaves no foreground job: only the order of the list, the statuses of
jobs and the states of children can have changed. -/
structure Settles (s t : Shell) : Prop where
  jobs : t.jobs.jobsList.Perm s.jobs.jobsList
  jobId : ∀ p, (t.entry p).jobId = (s.entry p).jobId
  jobProcessId : ∀ p, (t.entry p).jobProcessId = (s.entry p).jobProcessId
  objs : t.objs = s.objs
  current : t.current = s.current
  reaped : t.reaped = s.reaped
  procs : ∀ q, q ∈ t.procs ↔ q ∈ s.procs

/-- What a step does. -/
inductive Moves (s : Shell) : Act → Shell → Prop
  | line (c : Cmd) : s.pc = .prompt →
      Moves s (.line c) { s with pc := if c.kind.sweeps then .sweep c else .prompt }
  | reap (a : Answer) (c : Cmd) (pid : Pid) : s.pc = .sweep c → s.procs.lookup pid = some .zombie →
      Moves s (.shell a) { s.reap pid with pc := .reaped c pid }
  | swept (a : Answer) (c : Cmd) : s.pc = .sweep c → Moves s (.shell a) { s with pc := .scan c }
  | remove (a : Answer) (c : Cmd) (pid : Pid) : s.pc = .reaped c pid →
      Moves s (.shell a)
        { s with jobs := s.jobs.removeJobByPid s.entry pid a.stale, pc := .sweep c }
  | scan (a : Answer) (c : Cmd) : s.pc = .scan c →
      Moves s (.shell a)
        { s with
          jobs := ⟨unfinished s.entry s.jobs.jobsList,
            largest (ids s.entry (unfinished s.entry s.jobs.jobsList))⟩
          pc := .body c }
  | settle (a : Answer) (t : Shell) : (∃ c, s.pc = .body c ∨ s.pc = .fork2 c) →
      t.pc = .prompt ∨ t.pc = .exited → Settles s t → Moves s (.shell a) t
  | publish (a : Answer) (c : Cmd) (jobId : ℤ) (job : Ptr) : s.pc = .body c → c.kind = .fg →
      s.jobs.getJobById s.entry jobId = some job →
      Moves s (.shell a)
        { s with
          entry := setJobStatus s.entry job .foreground
          current := some job
          pc := .fgCont c jobId (s.entry job).jobProcessId }
  | fork (a : Answer) (c : Cmd) (pid : Pid) : s.pc = .body c → a.child = some pid → pid ∉ s.procs →
      (c.kind = .external ∨ c.kind = .redirection) → c.isBackground = false →
      Moves s (.shell a) { s with procs := s.procs.insert pid .running, pc := .foreground c pid }
  | forkBackground (a : Answer) (c : Cmd) (pid : Pid) : s.pc = .body c → a.child = some pid →
      pid ∉ s.procs → (c.kind = .external ∨ c.kind = .redirection) →
      Moves s (.shell a) { s with procs := s.procs.insert pid .running, pc := .add c pid .background }
  | forkPipe (a : Answer) (c : Cmd) (pid : Pid) : s.pc = .body c → a.child = some pid →
      pid ∉ s.procs → c.kind = .pipe →
      Moves s (.shell a) { s with procs := s.procs.insert pid .running, pc := .fork2 c }
  | forkPipe2 (a : Answer) (c : Cmd) (pid : Pid) : s.pc = .fork2 c → a.child = some pid →
      pid ∉ s.procs →
      Moves s (.shell a) { s with procs := s.procs.insert pid .running, pc := .add c pid .foreground }
  | add (a : Answer) (c : Cmd) (pid : Pid) (st : Status) (t : Shell) : s.pc = .add c pid st →
      s.addJob a pid st c.cmdLine = some t →
      Moves s (.shell a)
        (if c.kind = .pipe then { t with current := some a.ptr, pc := .wait c pid } else t.done)
  | foreground (a : Answer) (c : Cmd) (pid : Pid) (t : Shell) : s.pc = .foreground c pid →
      s.newEntry a (-1) pid .foreground c.cmdLine = some t →
      Moves s (.shell a) { t with current := some a.ptr, pc := .wait c pid }
  | fgCont (a : Answer) (c : Cmd) (jobId : ℤ) (pid : Pid) (err : List String) :
      s.pc = .fgCont c jobId pid →
      Moves s (.shell a)
        { s with procs := s.procs.sent pid sigCont, stderr := err, pc := .fgRemove c jobId pid }
  | fgRemove (a : Answer) (c : Cmd) (jobId : ℤ) (pid : Pid) : s.pc = .fgRemove c jobId pid →
      Moves s (.shell a)
        { s with jobs := s.jobs.removeJobById s.entry jobId a.stale, pc := .wait c pid }
  | waitReap (a : Answer) (c : Cmd) (pid : Pid) : s.pc = .wait c pid →
      s.procs.lookup pid = some .zombie → Moves s (.shell a) { s.reap pid with pc := .clear c pid }
  | waitStop (a : Answer) (c : Cmd) (pid : Pid) : s.pc = .wait c pid →
      s.procs.lookup pid = some (.stopped false) →
      Moves s (.shell a) { s with procs := s.procs.insert pid (.stopped true), pc := .clear c pid }
  | waitFail (a : Answer) (c : Cmd) (pid : Pid) (err : List String) : s.pc = .wait c pid →
      s.procs.lookup pid = none → Moves s (.shell a) { s with stderr := err, pc := .clear c pid }
  | clear (a : Answer) (c : Cmd) (pid : Pid) : s.pc = .clear c pid →
      Moves s (.shell a) { s with current := none, pc := .prompt }
  | ignoreZ (a : Answer) : s.current = none → Moves s (.ctrlZ a) s
  | ignoreC : s.current = none → Moves s .ctrlC s
  | stopNew (a : Answer) (job : Ptr) (err : List String) (t : Shell) : s.current = some job →
      (s.entry job).jobId = -1 →
      { s with
          entry := setJobStatus s.entry job .stopped
          procs := s.procs.sent (s.entry job).jobProcessId sigStop
          stderr := err }.addJob a (s.entry job).jobProcessId .stopped (s.entry job).cmdLine = some t →
      Moves s (.ctrlZ a) t
  | stopOld (a : Answer) (job : Ptr) (err : List String) : s.current = some job →
      (s.entry job).jobId ≠ -1 →
      Moves s (.ctrlZ a)
        { s with
          jobs := s.jobs.addJob s.entry job
          entry := setJobStatus s.entry job .stopped
          procs := s.procs.sent (s.entry job).jobProcessId sigStop
          stderr := err }
  | kill (job : Ptr) (err : List String) : s.current = some job →
      Moves s .ctrlC
        { s with
          entry := setJobStatus s.entry job .finished
          procs := s.procs.sent (s.entry job).jobProcessId sigKill
          stderr := err }
  | exit (pid : Pid) : pid ∈ s.procs →
      Moves s (.exit pid) { s with procs := s.procs.insert pid .zombie }
  | stop (pid : Pid) : pid ∈ s.procs →
      Moves s (.stop pid) { s with procs := s.procs.insert pid (.stopped false) }
  | cont (pid : Pid) : pid ∈ s.procs →
      Moves s (.cont pid) { s with procs := s.procs.insert pid .running }

/-! ## Every step is a move -/

section Settles

variable {s t : Shell}

theorem Settles.refl (s : Shell) : Settles s s :=
  ⟨.refl _, fun _ => rfl, fun _ => rfl, rfl, rfl, rfl, fun _ => .rfl⟩

theorem Settles.done (h : Settles s t) : Settles s t.done :=
  ⟨h.jobs, h.jobId, h.jobProcessId, h.objs, h.current, h.reaped, h.procs⟩

theorem Settles.exited (h : Settles s t) : Settles s { t with pc := .exited } :=
  ⟨h.jobs, h.jobId, h.jobProcessId, h.objs, h.current, h.reaped, h.procs⟩

theorem Settles.error (h : Settles s t) (msg : String) : Settles s (t.error msg) :=
  ⟨h.jobs, h.jobId, h.jobProcessId, h.objs, h.current, h.reaped, h.procs⟩

theorem Settles.setJobStatus (h : Settles s t) (job : Ptr) (st : Status) :
    Settles s { t with entry := setJobStatus t.entry job st } :=
  ⟨h.jobs, fun p => by simpa using h.jobId p, fun p => by simpa using h.jobProcessId p, h.objs,
    h.current, h.reaped, h.procs⟩

theorem Settles.send (h : Settles s t) (pid : Pid) (sig : ℤ) (msg : Option String) :
    Settles s (t.send pid sig msg) := by
  obtain ⟨err, heq⟩ := t.send_eq pid sig msg
  rw [heq]
  exact ⟨h.jobs, h.jobId, h.jobProcessId, h.objs, h.current, h.reaped,
    fun q => (Procs.mem_sent t.procs pid sig q).trans (h.procs q)⟩

theorem Settles.killAllJobs (h : Settles s t) : Settles s t.killAllJobs := by
  unfold Shell.killAllJobs
  generalize t.jobs.jobsList = l
  induction l generalizing t with
  | nil => exact h
  | cons p l ih => exact ih (h.send _ _ _)

theorem settles_kill {pid : Pid} {sig : ℤ} {u : Procs} {job : Ptr}
    (h : s.procs.kill pid sig = some u) :
    Settles s { s with procs := u, entry := Shell.killStatus s.entry job sig } := by
  have hprocs : Settles s { s with procs := u } :=
    ⟨.refl _, fun _ => rfl, fun _ => rfl, rfl, rfl, rfl, Procs.mem_kill h⟩
  unfold Shell.killStatus
  split
  next => exact hprocs.setJobStatus job .finished
  next =>
    split
    next => exact hprocs.setJobStatus job .stopped
    next => exact hprocs

end Settles

section Body

variable {s t : Shell} {a : Answer} {c : Cmd}

theorem Moves.report (msg : String) (hpc : ∃ c, s.pc = .body c ∨ s.pc = .fork2 c) :
    Moves s (.shell a) (s.error msg).done :=
  .settle a _ hpc (.inl rfl) ((Settles.refl s).error msg).done

theorem moves_foregroundCommand (hpc : s.pc = .body c) (hk : c.kind = .fg) :
    Moves s (.shell a) (s.foregroundCommand c) := by
  unfold Shell.foregroundCommand
  split
  next msg _ => exact .report msg ⟨c, .inl hpc⟩
  next jobId _ =>
    split
    next => exact .report _ ⟨c, .inl hpc⟩
    next job hjob => exact .publish a c jobId job hpc hk hjob

theorem moves_backgroundCommand (hpc : s.pc = .body c) :
    Moves s (.shell a) (s.backgroundCommand c) := by
  unfold Shell.backgroundCommand
  split
  next msg _ => exact .report msg ⟨c, .inl hpc⟩
  next jobId _ =>
    split
    next => exact .report _ ⟨c, .inl hpc⟩
    next job _ =>
      split
      next => exact .report _ ⟨c, .inl hpc⟩
      next =>
        exact .settle a _ ⟨c, .inl hpc⟩ (.inl rfl)
          (((Settles.refl s).setJobStatus job .background).send _ _ _).done

theorem moves_quitCommand (hpc : s.pc = .body c) : Moves s (.shell a) (s.quitCommand c) := by
  unfold Shell.quitCommand
  split
  next => exact .settle a _ ⟨c, .inl hpc⟩ (.inr rfl) (Settles.refl s).exited
  next =>
    split
    next => exact .settle a _ ⟨c, .inl hpc⟩ (.inr rfl) (Settles.refl s).killAllJobs.exited
    next => exact .settle a _ ⟨c, .inl hpc⟩ (.inl rfl) (Settles.refl s).done
  next => exact .settle a _ ⟨c, .inl hpc⟩ (.inl rfl) (Settles.refl s).done

theorem moves_killCommand (hpc : s.pc = .body c) : Moves s (.shell a) (s.killCommand c) := by
  unfold Shell.killCommand
  dsimp only
  split
  next =>
    split
    next => exact .report _ ⟨c, .inl hpc⟩
    next =>
      split
      next => exact .report _ ⟨c, .inl hpc⟩
      next job _ =>
        split
        next => exact .report _ ⟨c, .inl hpc⟩
        next u hu => exact .settle a _ ⟨c, .inl hpc⟩ (.inl rfl) (settles_kill hu).done
  next => exact .report _ ⟨c, .inl hpc⟩

theorem fork_cases {next : Pid → Pc} (h : s.fork a next = some t) :
    t = (s.error "smash error: fork failed").done ∨
      ∃ pid, a.child = some pid ∧ pid ∉ s.procs ∧
        t = { s with procs := s.procs.insert pid .running, pc := next pid } := by
  unfold Shell.fork at h
  split at h
  next => exact .inl (Option.some.inj h).symm
  next pid hchild =>
    split at h
    next => cases h
    next hpid => exact .inr ⟨pid, hchild, fun hmem => hpid (.inr hmem), (Option.some.inj h).symm⟩

theorem moves_launch (hpc : s.pc = .body c) (hk : c.kind = .external ∨ c.kind = .redirection)
    (h : s.fork a (fun pid => if c.isBackground then .add c pid .background else .foreground c pid) =
      some t) : Moves s (.shell a) t := by
  rcases fork_cases h with rfl | ⟨pid, hchild, hpid, rfl⟩
  · exact .report _ ⟨c, .inl hpc⟩
  · cases hb : c.isBackground with
    | true => simpa [hb] using Moves.forkBackground a c pid hpc hchild hpid hk
    | false => simpa [hb] using Moves.fork a c pid hpc hchild hpid hk hb

theorem moves_body (hpc : s.pc = .body c) (h : s.body c a = some t) : Moves s (.shell a) t := by
  have hsettle : ∀ u, u.pc = .prompt ∨ u.pc = .exited → Settles s u → Moves s (.shell a) u :=
    fun u hu hs => .settle a u ⟨c, .inl hpc⟩ hu hs
  unfold Shell.body at h
  split at h
  next =>
    obtain rfl := Option.some.inj h
    exact hsettle _ (.inl rfl) ⟨s.jobs.sort_perm, fun _ => rfl, fun _ => rfl, rfl, rfl, rfl, fun _ => .rfl⟩
  next hk =>
    obtain rfl := Option.some.inj h
    exact moves_foregroundCommand hpc hk
  next =>
    obtain rfl := Option.some.inj h
    exact moves_backgroundCommand hpc
  next =>
    obtain rfl := Option.some.inj h
    exact moves_quitCommand hpc
  next =>
    obtain rfl := Option.some.inj h
    exact moves_killCommand hpc
  next hk => exact moves_launch hpc (.inl hk) h
  next hk =>
    split at h
    next =>
      obtain rfl := Option.some.inj h
      exact hsettle _ (.inr rfl) (Settles.refl s).exited
    next => exact moves_launch hpc (.inr hk) h
  next hk =>
    split at h
    next =>
      obtain rfl := Option.some.inj h
      exact hsettle _ (.inr rfl) (Settles.refl s).exited
    next =>
      rcases fork_cases h with rfl | ⟨pid, hchild, hpid, rfl⟩
      · exact .report _ ⟨c, .inl hpc⟩
      · exact .forkPipe a c pid hpc hchild hpid hk
  next =>
    obtain rfl := Option.some.inj h
    exact hsettle _ (.inl rfl) (Settles.refl s).done

end Body

section Step

variable {s t : Shell}

theorem moves_shellStep {a : Answer} (h : s.shellStep a = some t) : Moves s (.shell a) t := by
  unfold Shell.shellStep at h
  split at h
  next => cases h
  next => cases h
  next c hpc =>
    split at h
    next pid _ =>
      split at h
      next hz =>
        obtain rfl := Option.some.inj h
        exact .reap a c pid hpc hz
      next => cases h
    next =>
      split at h
      next =>
        obtain rfl := Option.some.inj h
        exact .swept a c hpc
      next => cases h
  next c pid hpc =>
    obtain rfl := Option.some.inj h
    exact .remove a c pid hpc
  next c hpc =>
    rw [scanLoop_spec] at h
    obtain rfl := Option.some.inj h
    exact .scan a c hpc
  next c hpc => exact moves_body hpc h
  next c hpc =>
    rcases fork_cases h with rfl | ⟨pid, hchild, hpid, rfl⟩
    · exact .report _ ⟨c, .inr hpc⟩
    · exact .forkPipe2 a c pid hpc hchild hpid
  next c pid st hpc =>
    obtain ⟨u, hu, rfl⟩ := Option.map_eq_some_iff.mp h
    exact .add a c pid st u hpc hu
  next c pid hpc =>
    obtain ⟨u, hu, rfl⟩ := Option.map_eq_some_iff.mp h
    exact .foreground a c pid u hpc hu
  next c jobId pid hpc =>
    obtain ⟨err, herr⟩ := s.send_eq pid sigCont none
    rw [herr] at h
    obtain rfl := Option.some.inj h
    exact .fgCont a c jobId pid err hpc
  next c jobId pid hpc =>
    obtain rfl := Option.some.inj h
    exact .fgRemove a c jobId pid hpc
  next c pid hpc =>
    unfold Shell.waitpid at h
    split at h
    next hl =>
      obtain rfl := Option.some.inj h
      exact .waitFail a c pid _ hpc hl
    next hl =>
      obtain rfl := Option.some.inj h
      exact .waitReap a c pid hpc hl
    next hl =>
      obtain rfl := Option.some.inj h
      exact .waitStop a c pid hpc hl
    next => cases h
    next => cases h
  next c pid hpc =>
    obtain rfl := Option.some.inj h
    exact .clear a c pid hpc

theorem addJob_eq {a : Answer} {pid : Pid} {st : Status} {cmdLine : List Char}
    (h : s.addJob a pid st cmdLine = some t) :
    a.ptr ∉ s.objs ∧
      t = { s with
        jobs := ⟨s.jobs.jobsList ++ [a.ptr], s.jobs.maxJobID + 1⟩
        entry := Function.update s.entry a.ptr ⟨s.jobs.maxJobID + 1, pid, st, cmdLine, a.time⟩
        objs := a.ptr :: s.objs
        reaped := Function.update s.reaped a.ptr (s.procs.lookup pid).isNone } := by
  unfold Shell.addJob Shell.newEntry at h
  split at h
  next =>
    split at h
    next => cases h
    next hptr => exact ⟨hptr, (Option.some.inj h).symm⟩
  next => cases h

theorem newEntry_eq {a : Answer} {jobId : ℤ} {pid : Pid} {st : Status} {cmdLine : List Char}
    (h : s.newEntry a jobId pid st cmdLine = some t) :
    a.ptr ∉ s.objs ∧
      t = { s with
        entry := Function.update s.entry a.ptr ⟨jobId, pid, st, cmdLine, a.time⟩
        objs := a.ptr :: s.objs
        reaped := Function.update s.reaped a.ptr (s.procs.lookup pid).isNone } := by
  unfold Shell.newEntry at h
  split at h
  next => cases h
  next hptr => exact ⟨hptr, (Option.some.inj h).symm⟩

theorem JobsList.addJob_setJobStatus (J : JobsList) (e : Entries) (p job : Ptr) (st : Status) :
    J.addJob (setJobStatus e p st) job = J.addJob e job := by
  simp [JobsList.addJob, JobsList.getJobById]

/-- To add a job that is in the list does nothing. -/
theorem JobsList.addJob_of_mem {J : JobsList} {e : Entries} {job : Ptr} (h : job ∈ J.jobsList) :
    J.addJob e job = J := by
  unfold JobsList.addJob
  split
  next hnone =>
    have hne := List.find?_eq_none.mp hnone job h
    exact absurd (decide_eq_true rfl) hne
  next => rfl

theorem moves_ctrlZHandler {a : Answer} (h : ctrlZHandler s a = some t) : Moves s (.ctrlZ a) t := by
  unfold ctrlZHandler at h
  split at h
  next hcur =>
    obtain rfl := Option.some.inj h
    exact .ignoreZ a hcur
  next job hcur =>
    obtain ⟨err, herr⟩ := { s with entry := setJobStatus s.entry job .stopped }.send_eq
      (s.entry job).jobProcessId sigStop (some "smash error: kill failed")
    simp only [herr, setJobStatus_jobId, setJobStatus_jobProcessId] at h
    split at h
    next hid =>
      obtain ⟨u, hu, rfl⟩ := Option.map_eq_some_iff.mp h
      have hcmd : (setJobStatus s.entry job .stopped job).cmdLine = (s.entry job).cmdLine := by
        simp [setJobStatus]
      rw [hcmd] at hu
      have hmem : a.ptr ∈ u.jobs.jobsList := by
        rw [(addJob_eq hu).2]
        simp
      rw [JobsList.addJob_of_mem hmem]
      exact .stopNew a job err u hcur hid hu
    next hid =>
      obtain rfl := Option.some.inj h
      rw [JobsList.addJob_setJobStatus]
      exact .stopOld a job err hcur hid

theorem moves_ctrlCHandler : Moves s .ctrlC (ctrlCHandler s) := by
  unfold ctrlCHandler
  split
  next hcur => exact .ignoreC hcur
  next job hcur =>
    obtain ⟨err, herr⟩ := { s with entry := setJobStatus s.entry job .finished }.send_eq
      (s.entry job).jobProcessId sigKill (some "smash error: kill failed")
    rw [herr]
    exact .kill job err hcur

theorem childStep_eq {pid : Pid} {f : Proc → Option Proc} (h : s.childStep pid f = some t) :
    ∃ st st', pid ∈ s.procs ∧ f st = some st' ∧ t = { s with procs := s.procs.insert pid st' } := by
  obtain ⟨st', hst', rfl⟩ := Option.map_eq_some_iff.mp h
  obtain ⟨st, hst, hf⟩ := Option.bind_eq_some_iff.mp hst'
  exact ⟨st, st', AList.lookup_isSome.mp (by simp [hst]), hf, rfl⟩

/-- **Every step is one of the moves.** -/
theorem Step.moves {l : Act} (h : Step s l t) : Moves s l t := by
  unfold Step step at h
  split at h
  next c =>
    split at h
    next hpc =>
      obtain rfl := Option.some.inj h
      exact .line c hpc
    next => cases h
  next a => exact moves_shellStep h
  next a =>
    split at h
    next => cases h
    next => exact moves_ctrlZHandler h
  next =>
    split at h
    next => cases h
    next =>
      obtain rfl := Option.some.inj h
      exact moves_ctrlCHandler
  next pid =>
    obtain ⟨st, st', hmem, hf, rfl⟩ := childStep_eq h
    split at hf
    next => cases hf
    next =>
      obtain rfl := Option.some.inj hf
      exact .exit pid hmem
  next pid =>
    obtain ⟨st, st', hmem, hf, rfl⟩ := childStep_eq h
    split at hf
    next =>
      obtain rfl := Option.some.inj hf
      exact .stop pid hmem
    next => cases hf
  next pid =>
    obtain ⟨st, st', hmem, hf, rfl⟩ := childStep_eq h
    split at hf
    next => cases hf
    next =>
      obtain rfl := Option.some.inj hf
      exact .cont pid hmem

end Step

end OsHomework.Smash
