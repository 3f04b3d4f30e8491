import OsHomework.Smash.Ids

/-!
# Ctrl-Z and the jobs list

The handler of Ctrl-Z stops the foreground job and puts it into the jobs list. Two windows are open. The
job of an external or redirected command keeps the id -1, so that every further Ctrl-Z adds one more entry
for the process. And `fg` publishes its job before it removes it: after `SIGCONT` and before the removal,
Ctrl-Z finds the job still listed, stops the process, and the entry is then removed.

* `Held`: what the list says of the process that the shell waits for;
* `Watched`: the invariant, with what is known at each point of a foreground command;
* `clean`: the steps that avoid the two windows: no job is added for a process that the list names already,
  no Ctrl-Z comes between `SIGCONT` and the removal, and nobody but the shell stops the foreground process;
* **`stopped_job_listed_once`**: over clean steps, a process that is stopped when the shell returns to the
  prompt has exactly one entry, and its status is `stopped`;
* `second_ctrlZ_lists_twice`, `ctrlZ_in_fg_loses_job`: what happens in the windows.
-/

set_option autoImplicit false

namespace OsHomework.Smash

/-- The process is a stopped child. -/
def Procs.Stopped (t : Procs) (pid : Pid) : Prop := ∃ r, t.lookup pid = some (.stopped r)

/-- The entries of a process. -/
def Shell.entriesOf (s : Shell) (pid : Pid) : List JobEntry :=
  (s.jobs.jobsList.filter fun p => (s.entry p).jobProcessId = pid).map s.entry

section Stopped

variable {t : Procs} {pid q : Pid}

theorem Procs.Stopped.of_insert {st : Proc} (h : Procs.Stopped (t.insert q st) pid)
    (hst : pid = q → ∀ r, st ≠ .stopped r) : t.Stopped pid := by
  obtain ⟨r, hr⟩ := h
  by_cases hq : pid = q
  · subst hq
    rw [AList.lookup_insert] at hr
    exact absurd (Option.some.inj hr) (hst rfl r)
  · rw [AList.lookup_insert_ne hq] at hr
    exact ⟨r, hr⟩

theorem Procs.not_stopped_erase : ¬ Procs.Stopped (t.erase pid) pid := by
  rintro ⟨r, hr⟩
  rw [AList.lookup_erase] at hr
  cases hr

/-- A process that gets `SIGCONT` or `SIGKILL` is not stopped. -/
theorem Procs.not_stopped_sent {sig : ℤ} (hsig : sig = sigCont ∨ sig = sigKill) :
    ¬ Procs.Stopped (t.sent pid sig) pid := by
  have hrange : 0 ≤ sig ∧ sig ≤ 64 := by
    rcases hsig with rfl | rfl <;> decide
  rintro ⟨r, hr⟩
  rw [Procs.lookup_sent t pid hrange, if_pos rfl] at hr
  obtain ⟨st, -, hst⟩ := Option.map_eq_some_iff.mp hr
  rcases hsig with rfl | rfl <;> cases st <;>
    simp [Proc.receive, sigKill, sigCont, sigStop] at hst

end Stopped

/-- The process that a foreground command, other than a pipe, is going to wait for. -/
def Pc.waitsFor : Pc → Option Pid
  | .foreground _ pid => some pid
  | .fgRemove _ _ pid => some pid
  | .wait c pid => if c.kind = .pipe then none else some pid
  | .clear c pid => if c.kind = .pipe then none else some pid
  | _ => none

/-- What the list says of the process of the foreground job. -/
structure Held (s : Shell) (job : Ptr) (pid : Pid) : Prop where
  jobPid : (s.entry job).jobProcessId = pid
  listed : s.procs.Stopped pid →
    ∃ p ∈ s.jobs.jobsList, (s.entry p).jobProcessId = pid ∧ (s.entry p).jobStatus = .stopped
  samePid : (s.entry job).jobId ≠ -1 → ∀ p ∈ s.jobs.jobsList, (s.entry p).jobProcessId = pid → p = job
  sameId : ∀ p ∈ s.jobs.jobsList, (s.entry p).jobId = (s.entry job).jobId → p = job

/-- While the shell waits: the job of a pipe is in the list. -/
def Shell.Waits (s : Shell) (c : Cmd) (pid : Pid) : Prop :=
  ∃ job, s.current = some job ∧ if c.kind = .pipe then job ∈ s.jobs.jobsList else Held s job pid

/-- `fg` has published its job, which is in the list. -/
def Shell.Resumes (s : Shell) (c : Cmd) (jobId : ℤ) (pid : Pid) : Prop :=
  c.kind ≠ .pipe ∧ ∃ job ∈ s.jobs.jobsList,
    s.current = some job ∧ (s.entry job).jobId = jobId ∧ (s.entry job).jobProcessId = pid

/-- What is known at each point of a foreground command. -/
def Shell.PointAt (s : Shell) : Pc → Prop
  | .foreground c pid => c.kind ≠ .pipe ∧ ¬ s.procs.Stopped pid
  | .fgCont c jobId pid => s.Resumes c jobId pid
  | .fgRemove c jobId pid => s.Resumes c jobId pid ∧ ¬ s.procs.Stopped pid
  | .wait c pid => s.Waits c pid
  | .clear c pid => s.Waits c pid
  | _ => True

/-- The invariant. -/
structure Watched (s : Shell) : Prop where
  nodup : s.pids.Nodup
  point : s.PointAt s.pc

/-! ## The steps that avoid the windows -/

/-- A command adds a job for a process that the list names already. -/
def addsTwice (s : Shell) : Bool :=
  match s.pc with
  | .add _ pid _ => pid ∈ s.pids
  | _ => false

/-- Ctrl-Z would add a job for a process that the list names already. -/
def stopsTwice (s : Shell) : Bool :=
  s.current.any fun job => (s.entry job).jobId = -1 && (s.entry job).jobProcessId ∈ s.pids

/-- `fg` has sent `SIGCONT` and not yet removed its job. -/
def Pc.beforeRemoval : Pc → Bool
  | .fgRemove .. => true
  | _ => false

/-- The steps that avoid the windows. -/
def clean (s : Shell) : Act → Bool
  | .shell _ => !addsTwice s
  | .ctrlZ _ => !stopsTwice s && !s.pc.beforeRemoval
  | .stop pid => s.pc.waitsFor ≠ some pid
  | _ => true

def CleanStep (s : Shell) (l : Act) (t : Shell) : Prop := Step s l t ∧ clean s l

section Points

variable {s t : Shell}

/-- Only the states of children change, and the process that the shell waits for is not newly stopped. -/
theorem Shell.Waits.congr {c : Cmd} {pid : Pid} (h : s.Waits c pid) (hjobs : t.jobs = s.jobs)
    (hentry : t.entry = s.entry) (hcur : t.current = s.current)
    (hst : c.kind ≠ .pipe → t.procs.Stopped pid → s.procs.Stopped pid) : t.Waits c pid := by
  obtain ⟨job, hjob, hheld⟩ := h
  refine ⟨job, hcur.trans hjob, ?_⟩
  by_cases hk : c.kind = .pipe
  · rw [if_pos hk] at hheld ⊢
    rw [hjobs]
    exact hheld
  · rw [if_neg hk] at hheld ⊢
    refine ⟨?_, fun hs => ?_, ?_, ?_⟩ <;> rw [hentry]
    · exact hheld.jobPid
    · rw [hjobs]
      exact hheld.listed (hst hk hs)
    · rw [hjobs]
      exact hheld.samePid
    · rw [hjobs]
      exact hheld.sameId

/-- Children change, and no process that the shell waits for is newly stopped. -/
theorem Shell.PointAt.procs {pc : Pc} (h : s.PointAt pc) {u : Procs}
    (hst : ∀ pid, pc.waitsFor = some pid → u.Stopped pid → s.procs.Stopped pid) :
    { s with procs := u }.PointAt pc := by
  cases pc with
  | foreground c pid => exact ⟨h.1, fun hs => h.2 (hst pid rfl hs)⟩
  | fgRemove c jobId pid => exact ⟨h.1, fun hs => h.2 (hst pid rfl hs)⟩
  | wait c pid => exact Shell.Waits.congr h rfl rfl rfl fun hk => hst pid (if_neg hk)
  | clear c pid => exact Shell.Waits.congr h rfl rfl rfl fun hk => hst pid (if_neg hk)
  | _ => exact h

theorem Watched.keep (h : Watched s) (hjobs : t.jobs.jobsList.Subperm s.jobs.jobsList)
    (hpid : ∀ p, (t.entry p).jobProcessId = (s.entry p).jobProcessId) (hpoint : t.PointAt t.pc) : Watched t :=
  ⟨nodup_of_subperm h.nodup (pids_subperm hjobs hpid), hpoint⟩

theorem Shell.Resumes.remove {c : Cmd} {jobId stale : ℤ} {pid : Pid} (h : s.Resumes c jobId pid)
    (hids : s.ids.Nodup) (hpids : s.pids.Nodup) (hrun : ¬ s.procs.Stopped pid) :
    { s with jobs := s.jobs.removeJobById s.entry jobId stale, pc := .wait c pid }.Waits c pid := by
  obtain ⟨hk, job, hjob, hcur, hid, hpid⟩ := h
  refine ⟨job, hcur, ?_⟩
  rw [if_neg hk]
  refine ⟨hpid, fun hs => absurd hs hrun, fun _ p hp heq => ?_, fun p hp heq => ?_⟩
  · have hnot := notMem_pids_of_remove (t := { s with jobs := s.jobs.removeJobById s.entry jobId stale })
      hids hpids hjob hid rfl rfl
    exact absurd (mem_pids.mpr ⟨p, hp, heq.trans hpid.symm⟩) hnot
  · change p ∈ (s.jobs.removeJobById s.entry jobId stale).jobsList at hp
    rw [JobsList.removeJobById, JobsList.removeFirst_jobsList] at hp
    exact absurd (heq.trans hid) (ne_of_mem_eraseP (f := fun q => (s.entry q).jobId) hids hp)

theorem nodup_addJob {a : Answer} {pid : Pid} {st : Status} {cmdLine : List Char} (h : s.pids.Nodup)
    (hmade : ∀ p ∈ s.jobs.jobsList, p ∈ s.objs) (hnew : pid ∉ s.pids)
    (ht : s.addJob a pid st cmdLine = some t) :
    t.pids.Nodup ∧ t.jobs.jobsList = s.jobs.jobsList ++ [a.ptr] ∧
      (t.entry a.ptr).jobProcessId = pid ∧ (t.entry a.ptr).jobStatus = st := by
  obtain ⟨hptr, ht⟩ := addJob_eq ht
  have hjobs : t.jobs.jobsList = s.jobs.jobsList ++ [a.ptr] := by rw [ht]
  have hself : (t.entry a.ptr).jobProcessId = pid ∧ (t.entry a.ptr).jobStatus = st := by
    rw [ht]
    simp
  refine ⟨?_, hjobs, hself⟩
  have hkeep : ∀ q ∈ s.jobs.jobsList, (t.entry q).jobProcessId = (s.entry q).jobProcessId := by
    intro q hq
    rw [ht]
    exact congrArg JobEntry.jobProcessId (update_of_mem (hmade q hq) hptr)
  rw [pids_append hjobs hkeep, hself.1, ← List.concat_eq_append]
  exact h.concat hnew

/-- A job with the id -1 is not in the list. -/
theorem Held.of_new {job : Ptr} {pid : Pid} (hl : Listed s) (hid : (s.entry job).jobId = -1)
    (hpid : (s.entry job).jobProcessId = pid)
    (hlisted : s.procs.Stopped pid →
      ∃ p ∈ s.jobs.jobsList, (s.entry p).jobProcessId = pid ∧ (s.entry p).jobStatus = .stopped) :
    Held s job pid where
  jobPid := hpid
  listed := hlisted
  samePid hne := absurd hid hne
  sameId p hp heq := by
    have hpos := hl.jobId_pos hp
    omega

/-- The points with a foreground job. -/
theorem IdInv.point_cases (hi : IdInv s) {job : Ptr} (hcur : s.current = some job)
    (h : s.PointAt s.pc) :
    (∃ c jobId pid, (s.pc = .fgCont c jobId pid ∨ s.pc = .fgRemove c jobId pid) ∧
        job ∈ s.jobs.jobsList ∧ s.Resumes c jobId pid) ∨
      ∃ c pid, (s.pc = .wait c pid ∨ s.pc = .clear c pid) ∧
        if c.kind = .pipe then job ∈ s.jobs.jobsList else Held s job pid := by
  have hbusy := hi.busy hcur
  have hres : ∀ {c jobId pid}, s.Resumes c jobId pid → job ∈ s.jobs.jobsList := by
    rintro c jobId pid ⟨-, job', hjob', hcur', -⟩
    obtain rfl := Option.some.inj (hcur.symm.trans hcur')
    exact hjob'
  have hwait : ∀ {c pid}, s.Waits c pid → if c.kind = .pipe then job ∈ s.jobs.jobsList else Held s job pid := by
    rintro c pid ⟨job', hcur', hjob'⟩
    obtain rfl := Option.some.inj (hcur.symm.trans hcur')
    exact hjob'
  cases hpc : s.pc with
  | fgCont c jobId pid =>
    rw [hpc] at h
    exact .inl ⟨c, jobId, pid, .inl rfl, hres h, h⟩
  | fgRemove c jobId pid =>
    rw [hpc] at h
    exact .inl ⟨c, jobId, pid, .inr rfl, hres h.1, h.1⟩
  | wait c pid =>
    rw [hpc] at h
    exact .inr ⟨c, pid, .inl rfl, hwait h⟩
  | clear c pid =>
    rw [hpc] at h
    exact .inr ⟨c, pid, .inr rfl, hwait h⟩
  | _ =>
    rw [hpc] at hbusy
    cases hbusy

theorem pointAt_waits {c : Cmd} {pid : Pid} (hpc : s.pc = .wait c pid ∨ s.pc = .clear c pid)
    (h : s.Waits c pid) : s.PointAt s.pc := by
  rcases hpc with hpc | hpc <;> rw [hpc] <;> exact h

theorem Watched.foreground {a : Answer} {c : Cmd} {pid : Pid} {st : Status} {cmdLine : List Char}
    (h : Watched s) (hi : IdInv s) (hk : c.kind ≠ .pipe) (hrun : ¬ s.procs.Stopped pid)
    (ht : s.newEntry a (-1) pid st cmdLine = some t)
    (hl : Listed { t with current := some a.ptr, pc := .wait c pid }) :
    Watched { t with current := some a.ptr, pc := .wait c pid } := by
  obtain ⟨hptr, ht⟩ := newEntry_eq ht
  have hpids : t.pids = s.pids := by
    apply pids_congr (by rw [ht])
    intro q hq
    rw [ht]
    exact congrArg JobEntry.jobProcessId (update_of_mem (hi.made q hq) hptr)
  refine ⟨hpids ▸ h.nodup, a.ptr, rfl, ?_⟩
  rw [if_neg hk]
  refine .of_new hl (by simp [ht]) (by simp [ht]) fun hs => absurd ?_ hrun
  rwa [show t.procs = s.procs by rw [ht]] at hs

/-- Ctrl-Z for an external command whose process is not in the list. -/
theorem Watched.stopNew {a : Answer} {job : Ptr} {procs : Procs} {err : List String}
    (h : Watched s) (hi : IdInv s) (hcur : s.current = some job) (hid : (s.entry job).jobId = -1)
    (hnew : (s.entry job).jobProcessId ∉ s.pids)
    (ht : { s with entry := setJobStatus s.entry job .stopped, procs := procs, stderr := err }.addJob a
      (s.entry job).jobProcessId .stopped (s.entry job).cmdLine = some t) : Watched t := by
  have hit := hi.stopNew hcur hid ht
  generalize hv : { s with entry := setJobStatus s.entry job .stopped, procs := procs, stderr := err } = v
    at ht
  have hpids : v.pids = s.pids := by
    rw [← hv]
    exact pids_congr rfl fun p _ => setJobStatus_jobProcessId ..
  obtain ⟨hnodup, hjobs, hpid, hst⟩ :=
    nodup_addJob (hpids ▸ h.nodup) (by rw [← hv]; exact hi.made) (hpids ▸ hnew) ht
  obtain ⟨hptr, ht⟩ := addJob_eq ht
  have hpc : t.pc = s.pc := by rw [ht, ← hv]
  have hentry : t.entry job = setJobStatus s.entry job .stopped job := by
    rw [ht, ← hv]
    refine update_of_mem (hi.foreground job hcur).1 ?_
    rw [← hv] at hptr
    exact hptr
  refine ⟨hnodup, ?_⟩
  rcases hi.point_cases hcur h.point with ⟨c, jobId, pid, -, hmem, -⟩ | ⟨c, pid, hpc', hheld⟩
  · have hpos := hi.toListed.jobId_pos hmem
    omega
  · by_cases hk : c.kind = .pipe
    · rw [if_pos hk] at hheld
      have hpos := hi.toListed.jobId_pos hheld
      omega
    rw [if_neg hk] at hheld
    refine pointAt_waits (by rwa [hpc]) ⟨job, by rw [ht, ← hv]; exact hcur, ?_⟩
    rw [if_neg hk]
    refine .of_new hit.toListed (by rw [hentry]; simpa using hid) ?_ fun _ => ⟨a.ptr, ?_, ?_, hst⟩
    · rw [hentry, setJobStatus_jobProcessId, hheld.jobPid]
    · simp [hjobs]
    · rw [hpid, hheld.jobPid]

theorem JobsList.addJob_of_ne {J : JobsList} {e : Entries} {job : Ptr}
    (h : ∀ p ∈ J.jobsList, (e p).jobId ≠ (e job).jobId) :
    J.addJob e job = { J with jobsList := J.jobsList ++ [job] } := by
  unfold JobsList.addJob
  have hnone : J.getJobById e (e job).jobId = none := by
    refine List.find?_eq_none.mpr fun p hp => ?_
    simpa using h p hp
  rw [hnone]

theorem Shell.Resumes.setJobStatus {c : Cmd} {jobId : ℤ} {pid : Pid} (h : s.Resumes c jobId pid)
    {job : Ptr} {st : Status} (hjobs : t.jobs.jobsList = s.jobs.jobsList)
    (hentry : t.entry = setJobStatus s.entry job st) (hcur : t.current = s.current) :
    t.Resumes c jobId pid := by
  obtain ⟨hk, job', hjob', hcur', hid, hpid⟩ := h
  refine ⟨hk, job', hjobs ▸ hjob', hcur.trans hcur', ?_, ?_⟩
  · rw [hentry, setJobStatus_jobId, hid]
  · rw [hentry, setJobStatus_jobProcessId, hpid]

/-- Ctrl-Z for a job with an id, unless `fg` is about to remove it. -/
theorem Watched.stopOld {job : Ptr} {procs : Procs} {err : List String} (h : Watched s) (hi : IdInv s)
    (hcur : s.current = some job) (hid : (s.entry job).jobId ≠ -1)
    (hpc : s.pc.beforeRemoval = false) :
    Watched { s with
      jobs := s.jobs.addJob s.entry job
      entry := setJobStatus s.entry job .stopped
      procs := procs
      stderr := err } := by
  generalize ht : { s with
      jobs := s.jobs.addJob s.entry job
      entry := setJobStatus s.entry job .stopped
      procs := procs
      stderr := err } = t
  have hjobs : t.jobs = s.jobs.addJob s.entry job := by rw [← ht]
  have hentry : t.entry = setJobStatus s.entry job .stopped := by rw [← ht]
  have hcurt : t.current = s.current := by rw [← ht]
  have hpct : t.pc = s.pc := by rw [← ht]
  have hpid : ∀ p, (t.entry p).jobProcessId = (s.entry p).jobProcessId := fun p => by
    rw [hentry, setJobStatus_jobProcessId]
  have hidt : ∀ p, (t.entry p).jobId = (s.entry p).jobId := fun p => by
    rw [hentry, setJobStatus_jobId]
  have hstopped : (t.entry job).jobStatus = .stopped := by rw [hentry, setJobStatus_self]
  -- a job that is in the list is not added again
  have hsame : job ∈ s.jobs.jobsList → t.jobs.jobsList = s.jobs.jobsList := fun hmem => by
    rw [hjobs, JobsList.addJob_of_mem hmem]
  have hnodup : job ∈ s.jobs.jobsList → t.pids.Nodup := fun hmem => by
    rw [pids_congr (hsame hmem) fun p _ => hpid p]
    exact h.nodup
  rcases hi.point_cases hcur h.point with ⟨c, jobId, pid, hpc', hmem, hres⟩ | ⟨c, pid, hpc', hheld⟩
  · refine ⟨hnodup hmem, ?_⟩
    rcases hpc' with hpc' | hpc'
    · rw [hpct, hpc']
      exact hres.setJobStatus (hsame hmem) hentry hcurt
    · rw [hpc'] at hpc
      cases hpc
  · by_cases hk : c.kind = .pipe
    · rw [if_pos hk] at hheld
      refine ⟨hnodup hheld, pointAt_waits (by rwa [hpct]) ⟨job, hcurt.trans hcur, ?_⟩⟩
      rw [if_pos hk, hsame hheld]
      exact hheld
    · rw [if_neg hk] at hheld
      suffices hsuff : t.pids.Nodup ∧ job ∈ t.jobs.jobsList ∧
          ∀ p ∈ t.jobs.jobsList, p ∈ s.jobs.jobsList ∨ p = job by
        obtain ⟨hnd, hmem, hback⟩ := hsuff
        refine ⟨hnd, pointAt_waits (by rwa [hpct]) ⟨job, hcurt.trans hcur, ?_⟩⟩
        rw [if_neg hk]
        refine ⟨(hpid job).trans hheld.jobPid,
          fun _ => ⟨job, hmem, (hpid job).trans hheld.jobPid, hstopped⟩, fun _ p hp heq => ?_,
          fun p hp heq => ?_⟩
        · rcases hback p hp with hp | rfl
          · exact hheld.samePid hid p hp ((hpid p).symm.trans heq)
          · rfl
        · rw [hidt, hidt] at heq
          rcases hback p hp with hp | rfl
          · exact hheld.sameId p hp heq
          · rfl
      by_cases hmem : job ∈ s.jobs.jobsList
      · rw [hsame hmem]
        exact ⟨hnodup hmem, hmem, fun p hp => .inl hp⟩
      · have hadd : t.jobs.jobsList = s.jobs.jobsList ++ [job] := by
          rw [hjobs, JobsList.addJob_of_ne fun p hp heq => hmem (hheld.sameId p hp heq ▸ hp)]
        refine ⟨?_, by simp [hadd], fun p hp => by simpa [hadd] using hp⟩
        rw [pids_append hadd fun p _ => hpid p, hpid, ← List.concat_eq_append]
        refine h.nodup.concat fun hin => hmem ?_
        obtain ⟨p, hp, heq⟩ := mem_pids.mp hin
        exact hheld.samePid hid p hp (heq.trans hheld.jobPid) ▸ hp

/-- Ctrl-C: the process is not stopped afterwards. -/
theorem Watched.kill {job : Ptr} {err : List String} (h : Watched s) (hi : IdInv s)
    (hcur : s.current = some job) :
    Watched { s with
      entry := setJobStatus s.entry job .finished
      procs := s.procs.sent (s.entry job).jobProcessId sigKill
      stderr := err } := by
  generalize ht : { s with
      entry := setJobStatus s.entry job .finished
      procs := s.procs.sent (s.entry job).jobProcessId sigKill
      stderr := err } = t
  have hentry : t.entry = setJobStatus s.entry job .finished := by rw [← ht]
  have hjobs : t.jobs = s.jobs := by rw [← ht]
  have hcurt : t.current = s.current := by rw [← ht]
  have hpct : t.pc = s.pc := by rw [← ht]
  have hdead : ¬ t.procs.Stopped (s.entry job).jobProcessId := by
    rw [← ht]
    exact Procs.not_stopped_sent (.inr rfl)
  have hpid : ∀ p, (t.entry p).jobProcessId = (s.entry p).jobProcessId := fun p => by
    rw [hentry, setJobStatus_jobProcessId]
  have hidt : ∀ p, (t.entry p).jobId = (s.entry p).jobId := fun p => by
    rw [hentry, setJobStatus_jobId]
  refine ⟨by rw [pids_congr (by rw [hjobs]) fun p _ => hpid p]; exact h.nodup, ?_⟩
  rcases hi.point_cases hcur h.point with ⟨c, jobId, pid, hpc', hmem, hres⟩ | ⟨c, pid, hpc', hheld⟩
  · have hrest : t.Resumes c jobId pid := hres.setJobStatus (by rw [hjobs]) hentry hcurt
    rcases hpc' with hpc' | hpc'
    · rw [hpct, hpc']
      exact hrest
    · rw [hpct, hpc']
      obtain ⟨-, job', -, hcur', -, rfl⟩ := hres
      obtain rfl := Option.some.inj (hcur.symm.trans hcur')
      exact ⟨hrest, hdead⟩
  · refine pointAt_waits (by rwa [hpct]) ⟨job, hcurt.trans hcur, ?_⟩
    by_cases hk : c.kind = .pipe
    · rw [if_pos hk] at hheld ⊢
      exact hjobs ▸ hheld
    · rw [if_neg hk] at hheld ⊢
      refine ⟨(hpid job).trans hheld.jobPid, fun hs => absurd (hheld.jobPid ▸ hs) hdead, ?_, ?_⟩
      · intro hne p hp heq
        exact hheld.samePid (hidt job ▸ hne) p (hjobs ▸ hp) ((hpid p).symm.trans heq)
      · intro p hp heq
        rw [hidt, hidt] at heq
        exact hheld.sameId p (hjobs ▸ hp) heq

/-- **Every clean step keeps the invariant.** -/
theorem Watched.step {l : Act} (h : Watched s) (hi : IdInv s) (hst : CleanStep s l t) : Watched t := by
  obtain ⟨hst, hclean⟩ := hst
  have hself : s.jobs.jobsList.Subperm s.jobs.jobsList := .refl _
  have hit := hi.step hst
  cases hst.moves with
  | line c hpc =>
    refine h.keep hself (fun _ => rfl) ?_
    cases c.kind.sweeps <;> trivial
  | reap | swept | clear => exact h.keep hself (fun _ => rfl) trivial
  | remove a c pid hpc =>
    refine h.keep ?_ (fun _ => rfl) trivial
    rw [JobsList.removeJobByPid, JobsList.removeFirst_jobsList]
    exact eraseP_subperm _ _
  | scan a c hpc => exact h.keep (List.filter_sublist).subperm (fun _ => rfl) trivial
  | settle a _ hpc hpc' hs =>
    refine h.keep hs.jobs.subperm hs.jobProcessId ?_
    rcases hpc' with hpc' | hpc' <;> rw [hpc'] <;> trivial
  | publish a c jobId job hpc hk hjob =>
    obtain ⟨hmem, hid⟩ := mem_of_getJobById hjob
    refine h.keep hself (fun p => setJobStatus_jobProcessId ..) ⟨?_, job, hmem, rfl, ?_, ?_⟩
    · rw [hk]
      intro he
      cases he
    · simpa using hid
    · simp
  | fork a c pid hpc hchild hpid hk hb =>
    refine h.keep hself (fun _ => rfl) ⟨?_, ?_⟩
    · intro he
      rcases hk with hk | hk <;> rw [hk] at he <;> cases he
    · rintro ⟨r, hr⟩
      rw [AList.lookup_insert] at hr
      cases hr
  | forkBackground | forkPipe | forkPipe2 => exact h.keep hself (fun _ => rfl) trivial
  | add a c pid st u hpc hu =>
    have hnew : pid ∉ s.pids := by simpa [clean, addsTwice, hpc] using hclean
    obtain ⟨hnodup, hjobs, -⟩ := nodup_addJob h.nodup hi.made hnew hu
    split
    next hk =>
      refine ⟨hnodup, a.ptr, rfl, ?_⟩
      rw [if_pos hk]
      simp [hjobs]
    next => exact ⟨hnodup, trivial⟩
  | foreground a c pid u hpc hu =>
    have hpoint := h.point
    rw [hpc] at hpoint
    exact h.foreground hi hpoint.1 hpoint.2 hu hit.toListed
  | fgCont a c jobId pid err hpc =>
    have hpoint := h.point
    rw [hpc] at hpoint
    exact h.keep hself (fun _ => rfl) ⟨hpoint, Procs.not_stopped_sent (.inl rfl)⟩
  | fgRemove a c jobId pid hpc =>
    have hpoint := h.point
    rw [hpc] at hpoint
    refine h.keep ?_ (fun _ => rfl) (hpoint.1.remove hi.nodup h.nodup hpoint.2)
    rw [JobsList.removeJobById, JobsList.removeFirst_jobsList]
    exact eraseP_subperm _ _
  | waitReap a c pid hpc hz =>
    have hpoint := h.point
    rw [hpc] at hpoint
    refine ⟨h.nodup, Shell.Waits.congr hpoint rfl rfl rfl fun _ hs => ?_⟩
    exact absurd hs Procs.not_stopped_erase
  | waitStop a c pid hpc hl =>
    have hpoint := h.point
    rw [hpc] at hpoint
    exact ⟨h.nodup, Shell.Waits.congr hpoint rfl rfl rfl fun _ _ => ⟨false, hl⟩⟩
  | waitFail a c pid err hpc hl =>
    have hpoint := h.point
    rw [hpc] at hpoint
    exact ⟨h.nodup, Shell.Waits.congr hpoint rfl rfl rfl fun _ hs => hs⟩
  | ignoreZ | ignoreC => exact h
  | stopNew a job err u hcur hid hu =>
    have hnew : (s.entry job).jobProcessId ∉ s.pids := by
      simp only [clean, stopsTwice, hcur, Option.any_some, hid, Bool.and_eq_true] at hclean
      simpa using hclean.1
    exact h.stopNew hi hcur hid hnew hu
  | stopOld a job err hcur hid =>
    simp only [clean, Bool.and_eq_true, Bool.not_eq_true'] at hclean
    exact h.stopOld hi hcur hid hclean.2
  | kill job err hcur => exact h.kill hi hcur
  | exit pid hmem =>
    exact ⟨h.nodup, h.point.procs fun q _ hs => hs.of_insert fun _ r he => by cases he⟩
  | cont pid hmem =>
    exact ⟨h.nodup, h.point.procs fun q _ hs => hs.of_insert fun _ r he => by cases he⟩
  | stop pid hmem =>
    have hother : s.pc.waitsFor ≠ some pid := by simpa [clean] using hclean
    refine ⟨h.nodup, h.point.procs fun q hq hs => hs.of_insert ?_⟩
    rintro rfl
    exact absurd hq hother

end Points

/-! ## Runs -/

theorem watched_start (maxJobID : ℤ) (entry : Entries) : Watched (start maxJobID entry) :=
  ⟨List.nodup_nil, trivial⟩

theorem Watched.of_run {maxJobID : ℤ} {entry : Entries} {ls : List Act} {s : Shell}
    (h : Run CleanStep (start maxJobID entry) ls s) : IdInv s ∧ Watched s := by
  refine h.invariant (I := fun s => IdInv s ∧ Watched s)
    ⟨idInv_start maxJobID entry, watched_start maxJobID entry⟩ ?_
  rintro t l u ⟨hi, hw⟩ hst
  exact ⟨hi.step hst.1, hw.step hi hst⟩

theorem filter_eq_singleton {α β : Type} [DecidableEq β] {f : α → β} {l : List α} {x : α}
    (h : (l.map f).Nodup) (hx : x ∈ l) : (l.filter fun y => f y = f x) = [x] := by
  induction l with
  | nil => cases hx
  | cons a l ih =>
    obtain ⟨ha, hl⟩ := List.nodup_cons.mp h
    cases hx with
    | head =>
      have hnil : (l.filter fun y => f y = f x) = [] := by
        refine List.filter_eq_nil_iff.mpr fun y hy heq => ha ?_
        exact List.mem_map.mpr ⟨y, hy, of_decide_eq_true heq⟩
      rw [List.filter_cons_of_pos (by simp), hnil]
    | tail _ hx =>
      have hne : f a ≠ f x := fun heq => ha (heq ▸ List.mem_map_of_mem hx)
      rw [List.filter_cons_of_neg (by simpa using hne), ih hl hx]

/-- The process of a foreground command that is stopped when the shell returns to the prompt has exactly
one entry in the jobs list, and its status is `stopped`. -/
def ListedOnce (s : Shell) (pid : Pid) : Prop :=
  s.procs.Stopped pid → ∃ j, s.entriesOf pid = [j] ∧ j.jobStatus = .stopped

/-- **Ctrl-Z.** Over clean steps, with any number of Ctrl-Z at any point of a foreground command. -/
theorem stopped_job_listed_once {maxJobID : ℤ} {entry : Entries} {ls : List Act} {s t : Shell} {c : Cmd}
    {pid : Pid} {a : Answer} (h : Run CleanStep (start maxJobID entry) ls s) (hpc : s.pc = .clear c pid)
    (hk : c.kind ≠ .pipe) (hst : Step s (.shell a) t) : t.pc = .prompt ∧ ListedOnce t pid := by
  obtain ⟨-, hw⟩ := Watched.of_run h
  have hpoint := hw.point
  rw [hpc] at hpoint
  obtain ⟨job, -, hheld⟩ := hpoint
  rw [if_neg hk] at hheld
  have ht : t = { s with current := none, pc := .prompt } := by
    have hstep : s.shellStep a = some t := hst
    unfold Shell.shellStep at hstep
    rw [hpc] at hstep
    exact (Option.some.inj hstep).symm
  subst ht
  refine ⟨rfl, fun hstop => ?_⟩
  obtain ⟨p, hp, rfl, hstatus⟩ := hheld.listed hstop
  refine ⟨s.entry p, ?_, hstatus⟩
  change (s.jobs.jobsList.filter _).map s.entry = [s.entry p]
  rw [filter_eq_singleton (f := fun q => (s.entry q).jobProcessId) hw.nodup hp]
  rfl

/-! ## One Ctrl-Z, two, and one too early -/

/-- What a computed run up to `setCurrentForegroundJob(nullptr)` shows after it. -/
def returned (g : Shell → Act → Bool) (ls : List Act) (a : Answer) (pid : Pid) :
    Option (Pc × Option Proc × List Status) :=
  (execWhen g step sevenShell ls).bind fun s => (step s (.shell a)).map fun t =>
    (s.pc, t.procs.lookup pid, (t.entriesOf pid).map JobEntry.jobStatus)

theorem exists_of_returned {g : Shell → Act → Bool} {ls : List Act} {a : Answer} {pid : Pid} {pc : Pc}
    {r : Bool} {sts : List Status} (h : returned g ls a pid = some (pc, some (.stopped r), sts)) :
    ∃ s t, Run (fun s l t => Step s l t ∧ g s l) sevenShell ls s ∧ s.pc = pc ∧ Step s (.shell a) t ∧
      t.procs.Stopped pid ∧ (t.entriesOf pid).map JobEntry.jobStatus = sts := by
  obtain ⟨s, hs, hbind⟩ := Option.bind_eq_some_iff.mp h
  obtain ⟨t, ht, heq⟩ := Option.map_eq_some_iff.mp hbind
  simp only [Prod.mk.injEq] at heq
  exact ⟨s, t, Run.of_execWhen hs, heq.1, ht, ⟨r, heq.2.1⟩, heq.2.2⟩

/-- `sleep 9` in the foreground and `n` times Ctrl-Z. -/
def stops (n : ℕ) : List Act :=
  [.line (sleepCmd false), .shell (quietAnswer 1), .shell (quietAnswer 1), .shell (quietAnswer 1),
    .shell (quietAnswer 1)] ++ (List.range n).map (fun i => .ctrlZ (quietAnswer (i + 2))) ++
      [.shell (quietAnswer 9)]

/-- `fg`. -/
def fgCmd : Cmd where
  kind := .fg
  argv := [['f', 'g']]
  isBackground := false
  cmdLine := ['f', 'g']

/-- `sleep 9`, Ctrl-Z, `fg`, and three times Ctrl-Z while it waits. -/
def resumedAndStopped : List Act :=
  stops 1 ++ [.shell (quietAnswer 9), .line fgCmd] ++ List.replicate 5 (.shell (quietAnswer 9)) ++
    List.replicate 3 (.ctrlZ (quietAnswer 9)) ++ [.shell (quietAnswer 9)]

theorem stopped_job_listed_once_resumed :
    ∃ s t, Run CleanStep sevenShell resumedAndStopped s ∧ s.pc = .clear fgCmd 1 ∧
      Step s (.shell (quietAnswer 9)) t ∧ t.procs.Stopped 1 ∧ t.pc = .prompt ∧ ListedOnce t 1 := by
  have hret : returned clean resumedAndStopped (quietAnswer 9) 1 =
      some (.clear fgCmd 1, some (.stopped true), [.stopped]) := by decide
  obtain ⟨s, t, hrun, hpc, hst, hstop, -⟩ := exists_of_returned hret
  exact ⟨s, t, hrun, hpc, hst, hstop, stopped_job_listed_once hrun hpc (by decide) hst⟩

/-- With a second Ctrl-Z the process has two entries. -/
theorem second_ctrlZ_lists_twice :
    ¬ ∀ (maxJobID : ℤ) (entry : Entries) (ls : List Act) (s t : Shell) (c : Cmd) (pid : Pid) (a : Answer),
      Run Step (start maxJobID entry) ls s → s.pc = .clear c pid → c.kind ≠ .pipe →
        Step s (.shell a) t → ListedOnce t pid := by
  intro hall
  have hret : returned (fun _ _ => true) (stops 2) (quietAnswer 9) 1 =
      some (.clear (sleepCmd false) 1, some (.stopped true), [.stopped, .stopped]) := by decide
  obtain ⟨s, t, hrun, hpc, hst, hstop, hsts⟩ := exists_of_returned hret
  obtain ⟨j, hj, -⟩ := hall _ _ _ _ _ _ _ _ (hrun.mono fun _ _ _ h => h.1) hpc (by decide) hst hstop
  rw [hj] at hsts
  exact absurd (congrArg List.length hsts) (by simp)

/-- `sleep 9`, Ctrl-Z, `fg`, and Ctrl-Z between `SIGCONT` and the removal. -/
def stopsEarly : List Act :=
  stops 1 ++ [.shell (quietAnswer 9), .line fgCmd, .shell (quietAnswer 9), .shell (quietAnswer 9),
    .shell (quietAnswer 9), .shell (quietAnswer 9), .ctrlZ (quietAnswer 9), .shell (quietAnswer 9),
    .shell (quietAnswer 9)]

/-- Ctrl-Z just before `fg` removes its job: the process is stopped and has no entry. -/
theorem ctrlZ_in_fg_loses_job :
    ∃ s t, Run Step sevenShell stopsEarly s ∧ s.pc = .clear fgCmd 1 ∧ Step s (.shell (quietAnswer 9)) t ∧
      t.procs.Stopped 1 ∧ t.entriesOf 1 = [] := by
  have hret : returned (fun _ _ => true) stopsEarly (quietAnswer 9) 1 =
      some (.clear fgCmd 1, some (.stopped true), []) := by decide
  obtain ⟨s, t, hrun, hpc, hst, hstop, hsts⟩ := exists_of_returned hret
  exact ⟨s, t, hrun.mono fun _ _ _ h => h.1, hpc, hst, hstop, List.map_eq_nil_iff.mp hsts⟩

end OsHomework.Smash
