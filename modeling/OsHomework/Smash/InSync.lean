import OsHomework.Smash.Synced

/-!
# The status of a job and the signals its process got

`kill` records `SIGKILL` and `SIGSTOP` in the status of the job, and no other signal: not `SIGCONT`, and
none of the signals that stop a process as `SIGSTOP` does. The handlers and `bg` set the status whether the
signal reaches the process or not.

* `Synced.bg`, `Synced.killJob`, `Synced.ctrlC`, `Synced.stopOld`, `Synced.stopNew`, `Synced.fgCont`: the
  steps that signal a job;
* **`Synced.step`**: every step keeps the invariant, if it keeps the status;
* `InSync`: the statuses, the listing and the choice of `bg` agree with the record;
* **`statuses_in_sync`**: so they do in every run whose steps all keep the status;
* `kill_continues_stopped_job`: `kill -18` leaves a running job marked as stopped.
-/

set_option autoImplicit false

namespace OsHomework.Smash

/-! ## The steps -/

section Steps

variable {s t : Shell} {g : Told} {c : Cmd} {job : Ptr} {sig : ℤ} {err : List String}

theorem IdInv.shown_made (hi : IdInv s) {p : Ptr} (hp : s.Shown p) : p ∈ s.objs :=
  hp.elim (hi.made p) fun hcur => (hi.foreground p hcur).1

theorem setJobStatus_of_ne {e : Entries} {st : Status} {p : Ptr} (hne : p ≠ job) :
    (setJobStatus e job st p).jobStatus = (e p).jobStatus := by
  simp [setJobStatus, hne]

theorem Shell.not_resuming_of_none (hcur : s.current = none) (p : Ptr) : ¬ s.resuming p := by
  rintro ⟨-, hp⟩
  rw [hcur] at hp
  cases hp

theorem Synced.bg (h : Synced s g) (hcur : s.current = none) (hmem : job ∈ s.jobs.jobsList)
    (hagree : s.othersAgree job sigCont) (hfits : s.reaped job → (s.entry job).jobStatus ≠ .stopped) :
    Synced
      { s with
        entry := setJobStatus s.entry job .background
        procs := s.procs.sent (s.entry job).jobProcessId sigCont
        stderr := err
        pc := .prompt } (g.signal s (s.entry job).jobProcessId sigCont) := by
  refine h.signal hagree (fun _ hp _ => hp) (.inl hmem) rfl (fun p => setJobStatus_jobId ..)
    (fun p => setJobStatus_jobProcessId ..) rfl rfl nofun (fun p hne => setJobStatus_of_ne hne)
    (fun p _ => Shell.not_resuming_of_none hcur p) (fun _ _ => ?_) trivial
  have hlast : (g.signal s (s.entry job).jobProcessId sigCont).job job = false := by
    by_cases hlive : s.reaped job = false
    · rw [Told.signal_reached ((h.minds job (.inl hmem)).mem hlive) hlive rfl, told_cont]
    · have hgone : s.reaped job = true := by simpa using hlive
      rw [Told.signal_missed (.inl hgone), Bool.eq_false_iff]
      exact fun hj => hfits hgone ((h.status job hmem (Shell.not_resuming_of_none hcur job)).mpr hj)
  simp [hlast]

/-- `kill` has sent its signal. -/
theorem Synced.killJob (h : Synced s g) (hcur : s.current = none) (hmem : job ∈ s.jobs.jobsList)
    (hagree : s.othersAgree job sig) (hfits : s.killFits job sig) {u : Procs}
    (hu : s.procs.kill (s.entry job).jobProcessId sig = some u) :
    Synced { s with procs := u, entry := Shell.killStatus s.entry job sig, pc := .prompt }
      (g.signal s (s.entry job).jobProcessId sig) := by
  have hres := Shell.not_resuming_of_none hcur
  have hstatus := h.status job hmem (hres job)
  have hkill : ∀ p, (Shell.killStatus s.entry job sig p).jobId = (s.entry p).jobId ∧
      (Shell.killStatus s.entry job sig p).jobProcessId = (s.entry p).jobProcessId ∧
      (p ≠ job → (Shell.killStatus s.entry job sig p).jobStatus = (s.entry p).jobStatus) := by
    intro p
    unfold Shell.killStatus
    split
    next => exact ⟨setJobStatus_jobId .., setJobStatus_jobProcessId .., setJobStatus_of_ne⟩
    next =>
      split
      next => exact ⟨setJobStatus_jobId .., setJobStatus_jobProcessId .., setJobStatus_of_ne⟩
      next => exact ⟨rfl, rfl, fun _ => rfl⟩
  unfold Shell.killFits at hfits
  rw [hu, Option.isNone_some, Bool.false_or] at hfits
  refine h.signal hagree (fun _ hp _ => hp) (.inl hmem) rfl (fun p => (hkill p).1) (fun p => (hkill p).2.1)
    rfl (by rw [Procs.sent, hu]; rfl) (fun hs => ?_) (fun p => (hkill p).2.2) (fun p _ => hres p)
    (fun _ _ => ?_) trivial
  · by_cases h19 : sig = sigStop
    · exact .inl h19
    · have h9 : sig ≠ sigKill := by
        rintro rfl
        cases hs
      rw [if_neg h9, if_neg h19, if_pos hs, Bool.or_eq_true, decide_eq_true_eq] at hfits
      exact .inr ⟨hcur, hfits.imp_right hstatus.mp⟩
  · have hreached : s.reaped job = false →
        (g.signal s (s.entry job).jobProcessId sig).job job = told sig (g.job job) :=
      fun hlive => Told.signal_reached ((h.minds job (.inl hmem)).mem hlive) hlive rfl
    have hmissed : s.reaped job = true →
        (g.signal s (s.entry job).jobProcessId sig).job job = g.job job :=
      fun hgone => Told.signal_missed (.inl hgone)
    dsimp only
    unfold Shell.killStatus
    by_cases h9 : sig = sigKill
    · rw [if_pos h9, decide_eq_true_eq] at hfits
      rw [if_pos h9, setJobStatus_self, h9, Told.signal_of_neutral told_kill]
      simpa [hstatus] using hfits
    rw [if_neg h9] at hfits ⊢
    by_cases h19 : sig = sigStop
    · rw [if_pos h19, Bool.or_eq_true, Bool.not_eq_true', decide_eq_true_eq] at hfits
      rw [if_pos h19, setJobStatus_self]
      refine iff_of_true rfl ?_
      cases hr : s.reaped job with
      | false => rw [hreached hr, h19, told_stop]
      | true =>
        rw [hmissed hr]
        exact hstatus.mp (hfits.resolve_left (by simp [hr]))
    rw [if_neg h19] at hfits ⊢
    cases hr : s.reaped job with
    | true =>
      rw [hmissed hr]
      exact hstatus
    | false =>
      rw [hreached hr]
      rw [hr, Bool.false_or, Bool.false_or] at hfits
      unfold told
      by_cases hs : isStopping sig
      · rw [if_pos hs] at hfits ⊢
        simpa using hfits
      rw [if_neg hs] at hfits ⊢
      by_cases hc : sig = sigCont
      · rw [if_pos hc] at hfits ⊢
        simpa using hfits
      · rw [if_neg hc]
        exact hstatus

/-- A signal that is neither stopping nor `SIGCONT` is compatible with every status. -/
theorem Shell.othersAgree_kill (s : Shell) (job : Ptr) : s.othersAgree job sigKill := by
  refine List.all_eq_true.mpr fun p _ => ?_
  have hstop : isStopping sigKill = false := by decide
  have hcont : sigKill ≠ sigCont := by decide
  simp [hstop, hcont]

theorem Shell.Poised.busy {g' : Told} (h : s.Poised g) (hbusy : s.pc.idle = false) (hpc : t.pc = s.pc)
    (hcur : t.current = s.current) (hid : ∀ p, (t.entry p).jobId = (s.entry p).jobId)
    (hpid : ∀ p, (t.entry p).jobProcessId = (s.entry p).jobProcessId) : t.Poised g' := by
  unfold Shell.Poised at h ⊢
  rw [hpc]
  cases hs : s.pc with
  | fgCont | fgRemove =>
    rw [hs] at h
    obtain ⟨job, hjob, hj⟩ := h
    exact ⟨job, hcur.trans hjob, by rw [hid, hpid]; exact hj⟩
  | wait | clear => trivial
  | _ =>
    rw [hs] at hbusy
    cases hbusy

theorem Shell.not_resuming_of_ne (hcur : s.current = some job) {p : Ptr} (hne : p ≠ job) :
    ¬ s.resuming p :=
  fun hp => hne (Option.some.inj (hp.2.symm.trans hcur))

theorem Synced.ctrlC (h : Synced s g) (hi : IdInv s) (hcur : s.current = some job)
    (hfits : s.pc.resumes ∨ job ∉ s.jobs.jobsList ∨ (s.entry job).jobStatus ≠ .stopped) :
    Synced
      { s with
        entry := setJobStatus s.entry job .finished
        procs := s.procs.sent (s.entry job).jobProcessId sigKill
        stderr := err } (g.signal s (s.entry job).jobProcessId sigKill) := by
  refine h.signal (s.othersAgree_kill job) (fun _ hp _ => hp) (.inr hcur) rfl (fun p => setJobStatus_jobId ..)
    (fun p => setJobStatus_jobProcessId ..) rfl rfl nofun (fun p hne => setJobStatus_of_ne hne)
    (fun p => Shell.not_resuming_of_ne hcur) (fun hmem hres => ?_)
    (h.point.busy (hi.busy hcur) rfl rfl (fun p => setJobStatus_jobId ..) fun p => setJobStatus_jobProcessId ..)
  have hres : ¬ s.resuming job := hres
  have hrun : (s.entry job).jobStatus ≠ .stopped := by
    rcases hfits with hr | hnot | hrun
    · exact absurd ⟨hr, hcur⟩ hres
    · exact absurd hmem hnot
    · exact hrun
  have hstatus := h.status job hmem hres
  rw [Told.signal_of_neutral told_kill]
  simpa [hstatus] using hrun

/-- After Ctrl-Z the record says that the process was told to stop. -/
theorem Synced.stopped (h : Synced s g) (hcur : s.current = some job)
    (hfits : s.reaped job = false ∨ g.job job) :
    (g.signal s (s.entry job).jobProcessId sigStop).job job = true := by
  by_cases hlive : s.reaped job = false
  · rw [Told.signal_reached ((h.minds job (.inr hcur)).mem hlive) hlive rfl, told_stop]
  · have hgone : s.reaped job = true := by simpa using hlive
    rw [Told.signal_missed (.inl hgone)]
    exact hfits.resolve_left hlive

theorem Synced.stopOld (h : Synced s g) (hi : IdInv s) (hcur : s.current = some job)
    (hagree : s.othersAgree job sigStop) (hfits : s.pc.resumes ∨ s.reaped job = false ∨ g.job job) :
    Synced
      { s with
        jobs := s.jobs.addJob s.entry job
        entry := setJobStatus s.entry job .stopped
        procs := s.procs.sent (s.entry job).jobProcessId sigStop
        stderr := err } (g.signal s (s.entry job).jobProcessId sigStop) := by
  have hlist : ∀ p ∈ (s.jobs.addJob s.entry job).jobsList, p ≠ job → p ∈ s.jobs.jobsList := by
    intro p hp hne
    unfold JobsList.addJob at hp
    split at hp
    next => exact (List.mem_append.mp hp).resolve_right (by simpa using hne)
    next => exact hp
  refine h.signal hagree hlist (.inr hcur) rfl (fun p => setJobStatus_jobId ..)
    (fun p => setJobStatus_jobProcessId ..) rfl rfl (fun _ => .inl rfl) (fun p hne => setJobStatus_of_ne hne)
    (fun p => Shell.not_resuming_of_ne hcur) (fun _ hres => ?_)
    (h.point.busy (hi.busy hcur) rfl rfl (fun p => setJobStatus_jobId ..) fun p => setJobStatus_jobProcessId ..)
  have hres : ¬ s.resuming job := hres
  exact iff_of_true (setJobStatus_self ..) (h.stopped hcur (hfits.resolve_left fun hr => hres ⟨hr, hcur⟩))

/-- Ctrl-Z for a job with the id -1, up to `addJob`. -/
theorem Synced.stopUnlisted (h : Synced s g) (hi : IdInv s) (hcur : s.current = some job)
    (hid : (s.entry job).jobId = -1) (hagree : s.othersAgree job sigStop) :
    Synced
      { s with
        entry := setJobStatus s.entry job .stopped
        procs := s.procs.sent (s.entry job).jobProcessId sigStop
        stderr := err } (g.signal s (s.entry job).jobProcessId sigStop) := by
  refine h.signal hagree (fun _ hp _ => hp) (.inr hcur) rfl (fun p => setJobStatus_jobId ..)
    (fun p => setJobStatus_jobProcessId ..) rfl rfl (fun _ => .inl rfl) (fun p hne => setJobStatus_of_ne hne)
    (fun p => Shell.not_resuming_of_ne hcur) (fun hmem _ => ?_)
    (h.point.busy (hi.busy hcur) rfl rfl (fun p => setJobStatus_jobId ..) fun p => setJobStatus_jobProcessId ..)
  have hpos := hi.toListed.jobId_pos (show job ∈ s.jobs.jobsList from hmem)
  omega

/-- Ctrl-Z for a job with the id -1: the new object is for the same process. -/
theorem Synced.stopNew {a : Answer} (h : Synced s g) (hi : IdInv s) (hcur : s.current = some job)
    (hid : (s.entry job).jobId = -1) (hagree : s.othersAgree job sigStop)
    (hfits : s.pc.resumes ∨ s.reaped job = false ∨ g.job job)
    (ht : { s with
        entry := setJobStatus s.entry job .stopped
        procs := s.procs.sent (s.entry job).jobProcessId sigStop
        stderr := err }.addJob a (s.entry job).jobProcessId .stopped (s.entry job).cmdLine = some t) :
    Synced t (g.step s (.ctrlZ a) t) := by
  have hu := @Synced.stopUnlisted s g job err h hi hcur hid hagree
  have hres : s.pc.resumes = false := by
    by_contra hr
    have hpos := hi.resumed (by simpa using hr) job hcur
    omega
  obtain ⟨hptr, ht⟩ := addJob_eq ht
  have hptr : a.ptr ∉ s.objs := hptr
  have hhear : g.hear s (.ctrlZ a) = g.signal s (s.entry job).jobProcessId sigStop := by
    rw [Told.hear, Shell.signal, hcur]
    rfl
  have hpid : (t.entry a.ptr).jobProcessId = (s.entry job).jobProcessId := by
    rw [ht]
    simp
  rw [Told.step_object (by rw [ht]; exact fun q hq => (Procs.mem_sent _ _ _ q).mp hq) hptr
    (by rw [ht]), hhear, hpid]
  have hfits := hfits.resolve_left (by simp [hres])
  have hlast := h.stopped hcur hfits
  -- the child with the pid was told to stop, whether the process is still there or not
  have hchild : (g.signal s (s.entry job).jobProcessId sigStop).child (s.entry job).jobProcessId = true := by
    rw [Told.signal_child]
    split
    next => rfl
    next hnot =>
      have hgone : s.reaped job = true := by
        by_contra hlive
        exact hnot ⟨rfl, (h.minds job (.inr hcur)).mem (by simpa using hlive)⟩
      rw [← (h.own job hcur hid hgone).2]
      exact hfits.resolve_left (by simp [hgone])
  have hobjs : ∀ p, s.Shown p → p ∈ s.objs := fun p => hi.shown_made
  refine hu.object hobjs hres hptr (j := ⟨_, _, .stopped, _, _⟩) (fun st hst => ?_) (fun p hp => ?_)
    (fun p hp => .inl ?_) (by rw [ht]) (by rw [ht]) (by rw [ht]) ?_
  · by_cases hlive : s.reaped job = false
    · have hminds := hu.minds job (.inr hcur)
      have hpid : (setJobStatus s.entry job .stopped job).jobProcessId = (s.entry job).jobProcessId :=
        setJobStatus_jobProcessId ..
      obtain ⟨hsame, st', hst', hobeys⟩ := hminds hlive
      rw [hpid] at hsame hst'
      obtain rfl := Option.some.inj (hst'.symm.trans hst)
      exact hsame ▸ hobeys
    · have hnot := (h.own job hcur hid (by simpa using hlive)).1
      have hin : (s.entry job).jobProcessId ∈ s.procs.sent (s.entry job).jobProcessId sigStop :=
        AList.lookup_isSome.mp (by simp_all)
      exact absurd ((Procs.mem_sent _ _ _ _).mp hin) hnot
  · rw [ht, List.mem_append, List.mem_singleton] at hp
    exact hp.imp_right fun heq => ⟨heq, iff_of_true rfl hchild⟩
  · rwa [ht] at hp
  · have hbusy := hi.busy hcur
    have hpc : t.pc = s.pc := by rw [ht]
    unfold Shell.Poised
    rw [hpc]
    cases hs : s.pc with
    | wait | clear => trivial
    | fgCont | fgRemove =>
      rw [hs] at hres
      cases hres
    | _ =>
      rw [hs] at hbusy
      cases hbusy

theorem Synced.fgCont {jobId : ℤ} (h : Synced s g) (hcur : s.current = some job)
    (hid : (s.entry job).jobId = jobId) (hagree : s.othersAgree job sigCont) :
    Synced
      { s with
        procs := s.procs.sent (s.entry job).jobProcessId sigCont
        stderr := err
        pc := .fgRemove c jobId (s.entry job).jobProcessId } (g.signal s (s.entry job).jobProcessId sigCont) := by
  refine h.signal hagree (fun _ hp _ => hp) (.inr hcur) rfl (fun _ => rfl) (fun _ => rfl) rfl rfl nofun
    (fun _ _ => rfl) (fun p => Shell.not_resuming_of_ne hcur) (fun _ hnot => ?_) ⟨job, hcur, hid, rfl⟩
  exact absurd ⟨rfl, hcur⟩ hnot

theorem Synced.fgRemove {a : Answer} {jobId : ℤ} {pid : Pid} (h : Synced s g) (hi : IdInv s)
    (hpc : s.pc = .fgRemove c jobId pid) :
    Synced { s with jobs := s.jobs.removeJobById s.entry jobId a.stale, pc := .wait c pid } g := by
  have hpoint := h.point
  unfold Shell.Poised at hpoint
  rw [hpc] at hpoint
  obtain ⟨job, hcur, hid, -⟩ := hpoint
  have herase : (s.jobs.removeJobById s.entry jobId a.stale).jobsList =
      s.jobs.jobsList.eraseP fun p => (s.entry p).jobId = jobId := by
    rw [JobsList.removeJobById, JobsList.removeFirst_jobsList]
  refine h.keep (fun p hp => ?_) (fun _ hp => .inr hp) (fun _ => rfl) (fun p hp _ => ⟨fun hres => ?_, rfl⟩)
    (fun _ hp => hp) (fun _ _ _ st hst ho => ⟨st, hst, ho⟩) h.own trivial
  · dsimp only at hp
    rw [herase] at hp
    exact List.mem_of_mem_eraseP hp
  · dsimp only at hp
    rw [herase] at hp
    obtain rfl := Option.some.inj (hcur.symm.trans hres.2)
    exact ne_of_mem_eraseP (f := fun q => (s.entry q).jobId) hi.nodup hp hid

theorem Synced.publish {jobId : ℤ} (h : Synced s g) (hi : IdInv s) (hcur : s.current = none)
    (hjob : s.jobs.getJobById s.entry jobId = some job) :
    Synced
      { s with
        entry := setJobStatus s.entry job .foreground
        current := some job
        pc := .fgCont c jobId (s.entry job).jobProcessId } g := by
  obtain ⟨hmem, hid⟩ := mem_of_getJobById hjob
  refine h.keep (fun _ hp => hp) (fun p hp => ?_) (fun p => setJobStatus_jobProcessId ..)
    (fun p _ hres => ⟨Shell.not_resuming_of_none hcur p, setJobStatus_of_ne ?_⟩) (fun _ hp => hp)
    (fun _ _ _ st hst ho => ⟨st, hst, ho⟩) (fun p hp hneg _ => ?_) ⟨job, rfl, by simpa using hid, by simp⟩
  · exact .inl (Option.some.inj hp ▸ hmem)
  · rintro rfl
    exact hres ⟨rfl, rfl⟩
  · have hpos := hi.toListed.jobId_pos hmem
    obtain rfl := Option.some.inj hp
    dsimp only at hneg
    rw [setJobStatus_jobId] at hneg
    omega

/-- A job is added for a new child. -/
theorem Synced.add {a : Answer} {pid : Pid} {st : Status} (h : Synced s g) (hi : IdInv s)
    (hpc : s.pc = .add c pid st) {u : Shell} (hu : s.addJob a pid st c.cmdLine = some u) :
    Synced (if c.kind = .pipe then { u with current := some a.ptr, pc := .wait c pid } else u.done)
      { g with job := Function.update g.job a.ptr (g.child pid) } := by
  have hpoint := h.point
  unfold Shell.Poised at hpoint
  rw [hpc] at hpoint
  obtain ⟨hst, hchild, st', hst', hobeys⟩ := hpoint
  have hcur : s.current = none := hi.idle (by rw [hpc]; rfl)
  obtain ⟨hptr, rfl⟩ := addJob_eq hu
  have hobj : ∀ st'', s.procs.lookup pid = some st'' → st''.Obeys (g.child pid) := by
    intro st'' hst''
    obtain rfl := Option.some.inj (hst'.symm.trans hst'')
    exact hchild ▸ hobeys
  have hlist : ∀ p ∈ s.jobs.jobsList ++ [a.ptr],
      p ∈ s.jobs.jobsList ∨ p = a.ptr ∧ (st = .stopped ↔ g.child pid) := by
    intro p hp
    rw [List.mem_append, List.mem_singleton] at hp
    exact hp.imp_right fun heq => ⟨heq, iff_of_false hst (by simp [hchild])⟩
  have hobjs : ∀ p, s.Shown p → p ∈ s.objs := fun p => hi.shown_made
  have hres : s.pc.resumes = false := by rw [hpc]; rfl
  split
  next =>
    exact h.object hobjs hres hptr (j := ⟨_, pid, st, _, _⟩) hobj hlist
      (fun p hp => .inr (Option.some.inj hp).symm) rfl rfl rfl trivial
  next =>
    exact h.object hobjs hres hptr (j := ⟨_, pid, st, _, _⟩) hobj hlist
      (fun p hp => .inl hp) rfl rfl rfl trivial

theorem Synced.foreground {a : Answer} {pid : Pid} (h : Synced s g) (hi : IdInv s)
    (hpc : s.pc = .foreground c pid) {u : Shell}
    (hu : s.newEntry a (-1) pid .foreground c.cmdLine = some u) :
    Synced { u with current := some a.ptr, pc := .wait c pid }
      { g with job := Function.update g.job a.ptr (g.child pid) } := by
  have hpoint := h.point
  unfold Shell.Poised at hpoint
  rw [hpc] at hpoint
  obtain ⟨hchild, st', hst', hobeys⟩ := hpoint
  obtain ⟨hptr, rfl⟩ := newEntry_eq hu
  refine h.object (fun p => hi.shown_made) (by rw [hpc]; rfl) hptr (j := ⟨-1, pid, .foreground, _, _⟩)
    (fun st'' hst'' => ?_) (fun p hp => .inl hp) (fun p hp => .inr (Option.some.inj hp).symm) rfl rfl rfl
    trivial
  obtain rfl := Option.some.inj (hst'.symm.trans hst'')
  exact hchild ▸ hobeys

/-- A command after `removeFinishedJobs`, if it leaves no job in the foreground and makes no child. -/
theorem Synced.settle {a : Answer} (h : Synced s g) (hi : IdInv s) (hst : Step s (.shell a) t)
    (hpc : ∃ c, s.pc = .body c ∨ s.pc = .fork2 c) (hpc' : t.pc = .prompt ∨ t.pc = .exited)
    (hs : Settles s t) (hk : keepsStatus s g (.shell a)) : Synced t (g.step s (.shell a) t) := by
  have hcur : s.current = none := by
    obtain ⟨c, hc | hc⟩ := hpc <;> exact hi.idle (by rw [hc]; rfl)
  have hpoint : ∀ g', t.Poised g' := by
    intro g'
    unfold Shell.Poised
    rcases hpc' with hpc' | hpc' <;> rw [hpc'] <;> trivial
  have hquiet : s.signal (.shell a) = none → (∀ p, (t.entry p).jobStatus = (s.entry p).jobStatus) →
      (∀ q st, s.procs.lookup q = some st →
        t.procs.lookup q = some st ∨ t.procs.lookup q = some .zombie) →
      Synced t (g.step s (.shell a) t) := by
    intro hsig hstatus hproc
    rw [Told.step_quiet hsig (fun q hq => (hs.procs q).mp hq) hs.objs]
    exact h.idle hcur (hs.current.trans hcur) (fun p hp => hs.jobs.subset hp) hs.jobProcessId hstatus
      hs.reaped hproc (hpoint g)
  rw [Told.step_old (fun q hq => (hs.procs q).mp hq) hs.objs] at hquiet ⊢
  obtain ⟨c, hpc | hpc⟩ := hpc
  · have hbody : s.body c a = some t := by
      have hst : s.shellStep a = some t := hst
      simpa only [Shell.shellStep, hpc] using hst
    simp only [keepsStatus, hpc] at hk
    by_cases hbg : c.kind = .bg
    · rw [hbg] at hk
      simp only [Shell.body, hbg] at hbody
      obtain rfl := Option.some.inj hbody
      have hsig : s.signal (.shell a) = (s.bgJob c).map fun job => (job, sigCont) := by
        simp only [Shell.signal, hpc, hbg]
      rcases backgroundCommand_eq s c with ⟨hnone, err, heq⟩ | ⟨job, err, hjob, hmem, heq⟩
      · exact hquiet (by rw [hsig, hnone]; rfl) (by rw [heq]; exact fun _ => rfl)
          (by rw [heq]; exact fun _ _ h => .inl h)
      · rw [hjob, Option.all_some, Bool.and_eq_true, Bool.or_eq_true, Bool.not_eq_true',
          decide_eq_true_eq] at hk
        rw [Told.hear, hsig, hjob, heq]
        exact h.bg hcur hmem hk.1 fun hgone => hk.2.resolve_left (by simp [hgone])
    by_cases hkill : c.kind = .kill
    · rw [hkill] at hk
      simp only [Shell.body, hkill] at hbody
      obtain rfl := Option.some.inj hbody
      have hsig : s.signal (.shell a) = s.killJob c := by
        simp only [Shell.signal, hpc, hkill]
      rcases killCommand_eq s c with ⟨err, heq, hfail⟩ | ⟨job, sig, u, hjob, hmem, hu, heq⟩
      · have hhear : g.hear s (.shell a) = g := by
          rw [Told.hear, hsig]
          cases hjob : s.killJob c with
          | none => rfl
          | some x => exact Told.signal_of_failed (hfail x.1 x.2 hjob)
        rw [hhear, heq]
        exact h.idle hcur hcur (fun _ hp => hp) (fun _ => rfl) (fun _ => rfl) rfl
          (fun _ _ hst => .inl hst) trivial
      · rw [hjob, Option.all_some, Bool.and_eq_true] at hk
        rw [Told.hear, hsig, hjob, heq]
        exact h.killJob hcur hmem hk.1 hk.2 hu
    · obtain ⟨hentry, hproc⟩ := body_quiet hbg hkill hbody hpc'
      refine hquiet ?_ (fun p => by rw [hentry]) hproc
      unfold Shell.signal
      simp only [hpc]
  · have hfork : s.fork a (fun pid => .add c pid .foreground) = some t := by
      have hst : s.shellStep a = some t := hst
      simpa only [Shell.shellStep, hpc] using hst
    rcases fork_cases hfork with rfl | ⟨pid, -, -, rfl⟩
    · exact hquiet (by simp only [Shell.signal, hpc]) (fun _ => rfl) fun _ _ h => .inl h
    · rcases hpc' with hpc' | hpc' <;> cases hpc'

section Record

variable {l : Act}

theorem Synced.of_quiet (hsig : s.signal l = none) (hprocs : ∀ q ∈ t.procs, q ∈ s.procs)
    (hobjs : t.objs = s.objs) (h : Synced t g) : Synced t (g.step s l t) := by
  rw [Told.step_quiet hsig hprocs hobjs]
  exact h

theorem Synced.of_signal (hsig : s.signal l = some (job, sig))
    (hprocs : t.procs = s.procs.sent (s.entry job).jobProcessId sig) (hobjs : t.objs = s.objs)
    (h : Synced t (g.signal s (s.entry job).jobProcessId sig)) : Synced t (g.step s l t) := by
  rw [Told.step_old (fun q hq => (Procs.mem_sent _ _ _ q).mp (hprocs ▸ hq)) hobjs, Told.hear, hsig]
  exact h

theorem Synced.of_child {pid : Pid} {st : Proc} (hsig : s.signal l = none) (hpid : pid ∉ s.procs)
    (hprocs : t.procs = s.procs.insert pid st) (hobjs : t.objs = s.objs)
    (h : Synced t { g with child := Function.update g.child pid false }) : Synced t (g.step s l t) := by
  rw [Told.step_child hsig hpid hprocs hobjs]
  exact h

theorem Synced.of_object {ptr : Ptr} {pid : Pid} (hsig : s.signal l = none) (hptr : ptr ∉ s.objs)
    (hprocs : t.procs = s.procs) (hobjs : t.objs = ptr :: s.objs)
    (hentry : (t.entry ptr).jobProcessId = pid)
    (h : Synced t { g with job := Function.update g.job ptr (g.child pid) }) :
    Synced t (g.step s l t) := by
  rw [Told.step_object (fun q hq => hprocs ▸ hq) hptr hobjs, Told.hear, hsig, hentry]
  exact h

end Record

/-- **Every step keeps the invariant**, if it keeps the status. -/
theorem Synced.step {l : Act} (h : Synced s g) (hi : IdInv s) (hst : Step s l t) (hvia : viaShell g l)
    (hk : keepsStatus s g l) : Synced t (g.step s l t) := by
  have hbody : ∀ {c : Cmd} {a : Answer}, s.pc = .body c → c.kind ≠ .bg → c.kind ≠ .kill →
      s.signal (.shell a) = none := by
    intro c a hpc hbg hkill
    unfold Shell.signal
    simp only [hpc]
  have hstart : ∀ {c : Cmd} {a : Answer}, s.pc = .body c → c.kind = .external ∨ c.kind = .redirection →
      s.signal (.shell a) = none := by
    intro c a hpc hk
    rcases hk with hk | hk <;> exact hbody hpc (by simp [hk]) (by simp [hk])
  have hinsert : ∀ (pid : Pid) (st : Proc), pid ∈ s.procs → ∀ q ∈ s.procs.insert pid st, q ∈ s.procs := by
    intro pid st hmem q hq
    rcases (AList.mem_insert _).mp hq with rfl | hq
    · exact hmem
    · exact hq
  cases hst.moves with
  | line c hpc =>
    refine .of_quiet rfl (fun _ hq => hq) rfl (h.move (by rw [hpc]; rfl) s.stderr ?_)
    cases c.kind.sweeps <;> trivial
  | reap a c pid hpc hz =>
    exact .of_quiet (by simp only [Shell.signal, hpc]) (fun _ hq => (AList.mem_erase.mp hq).2) rfl
      (h.reap hi pid (by rw [hpc]; rfl) trivial)
  | swept a c hpc =>
    exact .of_quiet (by simp only [Shell.signal, hpc]) (fun _ hq => hq) rfl
      (h.move (by rw [hpc]; rfl) s.stderr trivial)
  | remove a c pid hpc =>
    have hcur : s.current = none := hi.idle (by rw [hpc]; rfl)
    refine .of_quiet (by simp only [Shell.signal, hpc]) (fun _ hq => hq) rfl
      (h.idle hcur hcur (fun p hp => ?_) (fun _ => rfl) (fun _ => rfl) rfl (fun _ _ hst => .inl hst) trivial)
    dsimp only at hp
    rw [JobsList.removeJobByPid, JobsList.removeFirst_jobsList] at hp
    exact List.mem_of_mem_eraseP hp
  | scan a c hpc =>
    have hcur : s.current = none := hi.idle (by rw [hpc]; rfl)
    exact .of_quiet (by simp only [Shell.signal, hpc]) (fun _ hq => hq) rfl
      (h.idle hcur hcur (fun p hp => List.mem_of_mem_filter hp) (fun _ => rfl) (fun _ => rfl) rfl
        (fun _ _ hst => .inl hst) trivial)
  | settle a _ hpc hpc' hs => exact h.settle hi hst hpc hpc' hs hk
  | publish a c jobId job hpc hfg hjob =>
    exact .of_quiet (hbody hpc (by simp [hfg]) (by simp [hfg])) (fun _ hq => hq) rfl
      (h.publish hi (hi.idle (by rw [hpc]; rfl)) hjob)
  | fork a c pid hpc hchild hpid hkind hb =>
    exact .of_child (hstart hpc hkind) hpid rfl rfl (h.fork (hi.idle (by rw [hpc]; rfl)) hpid
      ⟨Function.update_self .., .running, AList.lookup_insert _, .inr rfl⟩)
  | forkBackground a c pid hpc hchild hpid hkind =>
    exact .of_child (hstart hpc hkind) hpid rfl rfl (h.fork (hi.idle (by rw [hpc]; rfl)) hpid
      ⟨by decide, Function.update_self .., .running, AList.lookup_insert _, .inr rfl⟩)
  | forkPipe a c pid hpc hchild hpid hkind =>
    exact .of_child (hbody hpc (by simp [hkind]) (by simp [hkind])) hpid rfl rfl
      (h.fork (hi.idle (by rw [hpc]; rfl)) hpid trivial)
  | forkPipe2 a c pid hpc hchild hpid =>
    exact .of_child (by simp only [Shell.signal, hpc]) hpid rfl rfl (h.fork (hi.idle (by rw [hpc]; rfl)) hpid
      ⟨by decide, Function.update_self .., .running, AList.lookup_insert _, .inr rfl⟩)
  | add a c pid st u hpc hu =>
    have hadd := h.add hi hpc hu
    obtain ⟨hptr, rfl⟩ := addJob_eq hu
    refine .of_object (by simp only [Shell.signal, hpc]) hptr ?_ ?_ ?_ hadd
    · split <;> rfl
    · split <;> rfl
    · split <;> simp [Shell.done]
  | foreground a c pid u hpc hu =>
    have hnew := h.foreground hi hpc hu
    obtain ⟨hptr, rfl⟩ := newEntry_eq hu
    exact .of_object (by simp only [Shell.signal, hpc]) hptr rfl rfl (by simp) hnew
  | fgCont a c jobId pid err hpc =>
    have hpoint := h.point
    unfold Shell.Poised at hpoint
    rw [hpc] at hpoint
    obtain ⟨job, hcur, hid, rfl⟩ := hpoint
    simp only [keepsStatus, hpc, hcur, Option.all_some] at hk
    exact .of_signal (by simp only [Shell.signal, hpc, hcur, Option.map_some]) rfl rfl (h.fgCont hcur hid hk)
  | fgRemove a c jobId pid hpc =>
    exact .of_quiet (by simp only [Shell.signal, hpc]) (fun _ hq => hq) rfl (h.fgRemove hi hpc)
  | waitReap a c pid hpc hz =>
    exact .of_quiet (by simp only [Shell.signal, hpc]) (fun _ hq => (AList.mem_erase.mp hq).2) rfl
      (h.reap hi pid (by rw [hpc]; rfl) trivial)
  | waitStop a c pid hpc hl =>
    have hmem : pid ∈ s.procs := AList.lookup_isSome.mp (by simp [hl])
    have hchild : Synced { s with procs := s.procs.insert pid (.stopped true) } g := by
      refine h.child hmem fun st hst hobeys => ?_
      obtain rfl := Option.some.inj (hl.symm.trans hst)
      exact .inr (hobeys.resolve_left (by decide))
    exact .of_quiet (by simp only [Shell.signal, hpc]) (hinsert pid _ hmem) rfl
      (hchild.move (by rw [hpc]; rfl) s.stderr trivial)
  | waitFail a c pid err hpc hl =>
    exact .of_quiet (by simp only [Shell.signal, hpc]) (fun _ hq => hq) rfl
      (h.move (by rw [hpc]; rfl) err trivial)
  | clear a c pid hpc =>
    refine .of_quiet (by simp only [Shell.signal, hpc]) (fun _ hq => hq) rfl
      (h.keep (fun _ hp => hp) (fun _ hp => by cases hp) (fun _ => rfl)
        (fun p _ _ => ⟨fun hres => ?_, rfl⟩) (fun _ hp => hp) (fun _ _ _ st hst ho => ⟨st, hst, ho⟩)
        (fun _ hp => by cases hp) trivial)
    rw [Shell.resuming, hpc] at hres
    cases hres.1
  | ignoreZ a hcur =>
    exact .of_quiet (by simp only [Shell.signal, hcur, Option.map_none]) (fun _ hq => hq) rfl h
  | ignoreC hcur =>
    exact .of_quiet (by simp only [Shell.signal, hcur, Option.map_none]) (fun _ hq => hq) rfl h
  | stopNew a job err u hcur hid hu =>
    simp only [keepsStatus, hcur, Option.all_some, Bool.and_eq_true, Bool.or_eq_true, Bool.not_eq_true'] at hk
    exact h.stopNew hi hcur hid hk.1 (or_assoc.mp hk.2) hu
  | stopOld a job err hcur hid =>
    simp only [keepsStatus, hcur, Option.all_some, Bool.and_eq_true, Bool.or_eq_true, Bool.not_eq_true'] at hk
    exact .of_signal (by simp only [Shell.signal, hcur, Option.map_some]) rfl rfl
      (h.stopOld hi hcur hk.1 (or_assoc.mp hk.2))
  | kill job err hcur =>
    simp only [keepsStatus, hcur, Option.all_some, Bool.or_eq_true, decide_eq_true_eq] at hk
    exact .of_signal (by simp only [Shell.signal, hcur, Option.map_some]) rfl rfl
      (h.ctrlC hi hcur (or_assoc.mp hk))
  | exit pid hmem =>
    exact .of_quiet rfl (hinsert pid _ hmem) rfl (h.child hmem fun _ _ _ => .inl rfl)
  | stop pid hmem =>
    exact .of_quiet rfl (hinsert pid _ hmem) rfl (h.child hmem fun _ _ _ => .inr hvia.symm)
  | cont pid hmem => cases hvia

end Steps

/-! ## Runs -/

/-- A step that keeps the status. -/
def KeepingStep (x : Traced) (l : Act) (y : Traced) : Prop := TracedStep x l y ∧ keepsStatus x.1 x.2 l

theorem tracedStep_eq {x y : Traced} {l : Act} (h : TracedStep x l y) :
    viaShell x.2 l ∧ Step x.1 l y.1 ∧ y.2 = x.2.step x.1 l y.1 := by
  unfold TracedStep tracedStep at h
  split at h
  next hvia =>
    obtain ⟨t, ht, rfl⟩ := Option.map_eq_some_iff.mp h
    exact ⟨hvia, ht, rfl⟩
  next => cases h

theorem synced_start (maxJobID : ℤ) (entry : Entries) :
    Synced (tracedStart maxJobID entry).1 (tracedStart maxJobID entry).2 where
  minds p hp := by
    rcases hp with hp | hp <;> cases hp
  own := nofun
  status := nofun
  point := trivial

theorem Synced.of_run {maxJobID : ℤ} {entry : Entries} {ls : List Act} {x : Traced}
    (h : Run KeepingStep (tracedStart maxJobID entry) ls x) : IdInv x.1 ∧ Synced x.1 x.2 := by
  refine h.invariant (I := fun x => IdInv x.1 ∧ Synced x.1 x.2)
    ⟨idInv_start maxJobID entry, synced_start maxJobID entry⟩ ?_
  rintro x l y ⟨hi, hs⟩ ⟨hst, hk⟩
  obtain ⟨hvia, hstep, hg⟩ := tracedStep_eq hst
  exact ⟨hi.step hstep, hg ▸ hs.step hi hstep hvia hk⟩

/-- What `getMaxStoppedJobID` finds is the id of a stopped job. -/
theorem getMaxStoppedJobID_spec (e : Entries) (J : JobsList) (h : J.getMaxStoppedJobID e ≠ 0) :
    ∃ p ∈ J.jobsList, (e p).jobStatus = .stopped ∧ (e p).jobId = J.getMaxStoppedJobID e := by
  have hfold : ∀ (l : List Ptr) (m : ℤ),
      l.foldl (fun maxJobId p =>
        if (e p).jobStatus = .stopped ∧ (e p).jobId > maxJobId then (e p).jobId else maxJobId) m = m ∨
      ∃ p ∈ l, (e p).jobStatus = .stopped ∧ (e p).jobId = l.foldl (fun maxJobId p =>
        if (e p).jobStatus = .stopped ∧ (e p).jobId > maxJobId then (e p).jobId else maxJobId) m := by
    intro l
    induction l with
    | nil => exact fun m => .inl rfl
    | cons p l ih =>
      intro m
      rw [List.foldl_cons]
      split
      next hp =>
        rcases ih (e p).jobId with heq | ⟨q, hq, hst, heq⟩
        · exact .inr ⟨p, List.mem_cons_self, hp.1, heq.symm⟩
        · exact .inr ⟨q, List.mem_cons_of_mem _ hq, hst, heq⟩
      next =>
        rcases ih m with heq | ⟨q, hq, hst, heq⟩
        · exact .inl heq
        · exact .inr ⟨q, List.mem_cons_of_mem _ hq, hst, heq⟩
  exact (hfold J.jobsList 0).resolve_left h

theorem Listed.getJobById {s : Shell} (h : Listed s) {p : Ptr} (hp : p ∈ s.jobs.jobsList) :
    s.jobs.getJobById s.entry (s.entry p).jobId = some p := by
  have hsome : (s.jobs.getJobById s.entry (s.entry p).jobId).isSome :=
    List.find?_isSome.mpr ⟨p, hp, by simp⟩
  obtain ⟨q, hq⟩ := Option.isSome_iff_exists.mp hsome
  obtain ⟨hmem, hid⟩ := mem_of_getJobById hq
  obtain rfl := List.inj_on_of_nodup_map h.nodup hmem hp hid
  exact hq

/-- The statuses of the jobs in the list agree with what the shell has sent to their processes, but for the
job that `fg` is about to take out. -/
structure InSync (x : Traced) : Prop where
  status : ∀ p ∈ x.1.jobs.jobsList, ¬ x.1.resuming p → ((x.1.entry p).jobStatus = .stopped ↔ x.2.job p)
  /-- `jobs` marks those that were told to stop. -/
  jobs : ∀ c now, x.1.pc = .body c →
    (x.1.jobs.printJobsList x.1.entry now).2.map JobLine.stopped = x.1.jobs.sort.jobsList.map x.2.job
  /-- `bg` picks one of them, and its process is stopped, or has ended. -/
  bg : ∀ c jobId, x.1.pc = .body c → c.argv.length = 1 → x.1.bgTarget c = .ok jobId →
    ∃ job, x.1.jobs.getJobById x.1.entry jobId = some job ∧ x.2.job job ∧
      (x.1.reaped job = false → x.1.procs.lookup (x.1.entry job).jobProcessId = some .zombie ∨
        x.1.procs.Stopped (x.1.entry job).jobProcessId)

/-- **The statuses are right**, in every state of a run in which only the shell stops and continues jobs and
every step keeps the status. -/
theorem statuses_in_sync {maxJobID : ℤ} {entry : Entries} {ls : List Act} {x : Traced}
    (h : Run KeepingStep (tracedStart maxJobID entry) ls x) : InSync x := by
  obtain ⟨hi, hs⟩ := Synced.of_run h
  have hbody : ∀ c, x.1.pc = .body c → ∀ p ∈ x.1.jobs.jobsList,
      ((x.1.entry p).jobStatus = .stopped ↔ x.2.job p) := by
    intro c hpc p hp
    exact hs.status p hp (Shell.not_resuming_of_none (hi.idle (by rw [hpc]; rfl)) p)
  refine ⟨hs.status, fun c now hpc => ?_, fun c jobId hpc hargc htarget => ?_⟩
  · rw [JobsList.printJobsList, List.map_map]
    refine List.map_congr_left fun p hp => ?_
    simp [JobEntry.line, hbody c hpc p (mem_sort.mp hp)]
  · obtain ⟨arg, hargv⟩ := List.length_eq_one_iff.mp hargc
    simp only [Shell.bgTarget, hargv] at htarget
    split at htarget
    next => cases htarget
    next hmax =>
      obtain ⟨p, hp, hst, hid⟩ := getMaxStoppedJobID_spec x.1.entry x.1.jobs hmax
      obtain rfl := Except.ok.inj htarget
      have htold := (hbody c hpc p hp).mp hst
      refine ⟨p, hid ▸ hi.toListed.getJobById hp, htold, fun hlive => ?_⟩
      obtain ⟨-, st, hlook, hzombie | hstopped⟩ := hs.minds p (.inl hp) hlive
      · exact .inl (hzombie ▸ hlook)
      · rw [htold] at hstopped
        cases st with
        | stopped r => exact .inr ⟨r, hlook⟩
        | _ => cases hstopped

/-- `bg`. -/
def bgCmd : Cmd where
  kind := .bg
  argv := [['b', 'g']]
  isBackground := false
  cmdLine := ['b', 'g']

/-- `sleep 9` and Ctrl-Z, and the command `c` up to its own step. -/
def stopThen (c : Cmd) : List Act :=
  stops 1 ++ [.shell (quietAnswer 9), .line c, .shell (quietAnswer 9), .shell (quietAnswer 9)]

theorem statuses_in_sync_bg :
    ∃ x, Run KeepingStep (tracedStart 7 fun _ => ⟨0, 0, .finished, [], 0⟩) (stopThen bgCmd) x ∧
      x.1.pc = .body bgCmd ∧ x.1.jobs.jobsList = [2] ∧ InSync x := by
  have hx : ((execWhen (fun x l => keepsStatus x.1 x.2 l) tracedStep
      (tracedStart 7 fun _ => ⟨0, 0, .finished, [], 0⟩) (stopThen bgCmd)).map
      fun x => (x.1.pc, x.1.jobs.jobsList)) = some (.body bgCmd, [2]) := by decide
  obtain ⟨x, hrun, heq⟩ := Option.map_eq_some_iff.mp hx
  obtain ⟨hpc, hjobs⟩ := Prod.mk.inj heq
  have hkeep := Run.of_execWhen hrun
  exact ⟨x, hkeep, hpc, hjobs, statuses_in_sync hkeep⟩

/-- `kill -18 1`. -/
def killContCmd : Cmd where
  kind := .kill
  argv := [['k', 'i', 'l', 'l'], ['-', '1', '8'], ['1']]
  isBackground := false
  cmdLine := ['k', 'i', 'l', 'l', ' ', '-', '1', '8', ' ', '1']

/-- `sleep 9`, Ctrl-Z and `kill -18 1`: the process was told to go on, and its job is marked as stopped. -/
theorem kill_continues_stopped_job :
    ¬ ∀ (maxJobID : ℤ) (entry : Entries) (ls : List Act) (x : Traced),
      Run TracedStep (tracedStart maxJobID entry) ls x → InSync x := by
  intro hall
  have hx : ((exec tracedStep (tracedStart 7 fun _ => ⟨0, 0, .finished, [], 0⟩)
      (stopThen killContCmd ++ [.shell (quietAnswer 9)])).map
      fun x => (x.1.pc, x.1.jobs.jobsList, (x.1.entry 2).jobStatus, x.2.job 2)) =
        some (.prompt, [2], .stopped, false) := by decide
  obtain ⟨x, hrun, heq⟩ := Option.map_eq_some_iff.mp hx
  simp only [Prod.mk.injEq] at heq
  obtain ⟨hpc, hjobs, hst, htold⟩ := heq
  have hres : ¬ x.1.resuming 2 := by
    rintro ⟨hr, -⟩
    rw [hpc] at hr
    cases hr
  have hjob := ((hall _ _ _ x (Run.of_exec hrun)).status 2 (by simp [hjobs]) hres).mp hst
  rw [htold] at hjob
  cases hjob

end OsHomework.Smash
