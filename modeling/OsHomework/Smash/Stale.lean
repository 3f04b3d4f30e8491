import OsHomework.Smash.Ids

/-!
# Entries of reaped children

A child is reaped by the sweep of `removeFinishedJobs`, which removes its entry, or by the `waitpid` of a
foreground command. External and redirected commands keep their foreground job out of the list, and `fg`
takes it out before it waits. A pipe does not: its job is in the list while `PipeCommand` waits for it, and
stays there when the child ends.

* `Fresh`: no job of the list belongs to a reaped child, the one just reaped by the sweep apart;
* `pipeReaps`: the step in which a pipe reaps its own child;
* **`no_stale_entries`**: without such a step the list holds no stale entry after `removeFinishedJobs`;
* `pipe_leaves_stale_entry`: with it, it does.
-/

set_option autoImplicit false

namespace OsHomework.Smash

/-- The child that the sweep has just reaped. -/
def Pc.finproc : Pc → Option Pid
  | .reaped _ finproc => some finproc
  | _ => none

/-- What is known of the child that the shell is about to list or to wait for. -/
def Shell.Due (s : Shell) : Prop :=
  match s.pc with
  | .foreground _ pid => pid ∉ s.pids
  | .add _ pid _ => pid ∉ s.pids ∧ pid ∈ s.procs
  | .fgCont _ jobId pid =>
    ∃ job ∈ s.jobs.jobsList, (s.entry job).jobId = jobId ∧ (s.entry job).jobProcessId = pid
  | .fgRemove _ jobId pid =>
    ∃ job ∈ s.jobs.jobsList, (s.entry job).jobId = jobId ∧ (s.entry job).jobProcessId = pid
  | .wait c pid => c.kind ≠ .pipe → pid ∉ s.pids
  | _ => True

/-- The jobs in the list belong to distinct children that have not been reaped. -/
structure Fresh (s : Shell) : Prop where
  nodup : s.pids.Nodup
  alive : ∀ p ∈ s.jobs.jobsList, s.pc.finproc ≠ some (s.entry p).jobProcessId →
    s.reaped p = false ∧ (s.entry p).jobProcessId ∈ s.procs
  due : s.Due

section Steps

variable {s t : Shell}

theorem Fresh.keep (h : Fresh s) (hjobs : t.jobs.jobsList.Subperm s.jobs.jobsList)
    (hpid : ∀ p, (t.entry p).jobProcessId = (s.entry p).jobProcessId) (hreaped : t.reaped = s.reaped)
    (hprocs : ∀ q ∈ s.procs, q ∈ t.procs) (hfin : s.pc.finproc = none ∨ t.pc.finproc = s.pc.finproc)
    (hdue : t.Due) : Fresh t where
  nodup := nodup_of_subperm h.nodup (pids_subperm hjobs hpid)
  alive p hp hne := by
    have hne' : s.pc.finproc ≠ some (s.entry p).jobProcessId := by
      rcases hfin with hfin | hfin
      · rw [hfin]
        exact nofun
      · rw [← hfin, ← hpid]
        exact hne
    obtain ⟨hr, hmem⟩ := h.alive p (hjobs.subset hp) hne'
    exact ⟨hreaped ▸ hr, hpid p ▸ hprocs _ hmem⟩
  due := hdue

theorem Fresh.notMem_pids (h : Fresh s) {pid : Pid} (hfin : s.pc.finproc = none) (hpid : pid ∉ s.procs) :
    pid ∉ s.pids := by
  intro hmem
  obtain ⟨p, hp, rfl⟩ := mem_pids.mp hmem
  exact hpid (h.alive p hp (by rw [hfin]; exact nofun)).2

/-- A child is reaped that is not in the list. -/
theorem Fresh.reap (h : Fresh s) {pid : Pid} {pc : Pc} (hfin : s.pc.finproc = none)
    (hpid : pc.finproc = some pid ∨ pid ∉ s.pids) (hdue : { s.reap pid with pc := pc }.Due) :
    Fresh { s.reap pid with pc := pc } where
  nodup := h.nodup
  alive p hp hne := by
    obtain ⟨hr, hmem⟩ := h.alive p hp (by rw [hfin]; exact nofun)
    have hne' : (s.entry p).jobProcessId ≠ pid := by
      rintro rfl
      rcases hpid with hpid | hpid
      · exact hne hpid
      · exact hpid (mem_pids.mpr ⟨p, hp, rfl⟩)
    refine ⟨?_, AList.mem_erase.mpr ⟨hne', hmem⟩⟩
    change (s.reaped p || (decide (p ∈ s.objs) && decide ((s.entry p).jobProcessId = pid))) = false
    simp [hr, hne']
  due := hdue

/-- The step in which a pipe reaps its own child. -/
def pipeReaps (s : Shell) : Act → Bool
  | .shell _ =>
    match s.pc with
    | .wait c pid => c.kind = .pipe && s.procs.lookup pid = some .zombie
    | _ => false
  | _ => false

def Act.isSignal : Act → Bool
  | .ctrlZ _ | .ctrlC => true
  | _ => false

/-- The steps of a run without user signals. -/
def Unsignalled (s : Shell) (l : Act) (t : Shell) : Prop := Step s l t ∧ l.isSignal = false

theorem Fresh.child (h : Fresh s) (pid : Pid) (st : Proc) :
    Fresh { s with procs := s.procs.insert pid st } := by
  have hprocs : ∀ q ∈ s.procs, q ∈ s.procs.insert pid st :=
    fun q hq => (AList.mem_insert _).mpr (.inr hq)
  refine h.keep (.refl _) (fun _ => rfl) rfl hprocs (.inr rfl) ?_
  have hdue := h.due
  unfold Shell.Due at hdue ⊢
  dsimp only
  split <;> simp_all [Shell.pids]

theorem IdInv.new_object (h : IdInv s) {p : Ptr} (hp : p ∉ s.objs) (job : JobEntry) (r : Bool) :
    ∀ q ∈ s.jobs.jobsList, Function.update s.entry p job q = s.entry q ∧
      Function.update s.reaped p r q = s.reaped q := by
  intro q hq
  have hne := h.toListed.ne_of_new hp hq
  exact ⟨Function.update_of_ne hne _ _, Function.update_of_ne hne _ _⟩

/-- A child that is not in the list gets an entry. -/
theorem Fresh.addJob {a : Answer} {pid : Pid} {st : Status} {cmdLine : List Char} (h : Fresh s)
    (hi : IdInv s) (hfin : s.pc.finproc = none) (hnew : pid ∉ s.pids) (hmem : pid ∈ s.procs)
    (ht : s.addJob a pid st cmdLine = some t) :
    t.pids.Nodup ∧ ∀ p ∈ t.jobs.jobsList, t.reaped p = false ∧ (t.entry p).jobProcessId ∈ t.procs := by
  obtain ⟨hptr, ht⟩ := addJob_eq ht
  have hjobs : t.jobs.jobsList = s.jobs.jobsList ++ [a.ptr] := by rw [ht]
  have hself : (t.entry a.ptr).jobProcessId = pid ∧ t.reaped a.ptr = false := by
    have hsome : (s.procs.lookup pid).isNone = false := by
      rw [Option.isNone_eq_false_iff]
      exact AList.lookup_isSome.mpr hmem
    rw [ht]
    simp [hsome]
  have hkeep : ∀ q ∈ s.jobs.jobsList, t.entry q = s.entry q ∧ t.reaped q = s.reaped q := by
    rw [ht]
    exact hi.new_object hptr _ _
  have hpids : t.pids = s.pids ++ [pid] := by
    rw [pids_append hjobs fun q hq => by rw [(hkeep q hq).1], hself.1]
  have hprocs : t.procs = s.procs := by rw [ht]
  refine ⟨?_, fun p hp => ?_⟩
  · rw [hpids, ← List.concat_eq_append]
    exact h.nodup.concat hnew
  · rw [hjobs, List.mem_append, List.mem_singleton] at hp
    rcases hp with hp | rfl
    · obtain ⟨hr, hin⟩ := h.alive p hp (by rw [hfin]; exact nofun)
      rw [(hkeep p hp).1, (hkeep p hp).2, hprocs]
      exact ⟨hr, hin⟩
    · rw [hself.1, hprocs]
      exact ⟨hself.2, hmem⟩

theorem Fresh.newEntry {a : Answer} {c : Cmd} {pid : Pid} {st : Status} {cmdLine : List Char} {jobId : ℤ}
    (h : Fresh s) (hi : IdInv s) (hfin : s.pc.finproc = none) (hnew : pid ∉ s.pids)
    (ht : s.newEntry a jobId pid st cmdLine = some t) :
    Fresh { t with current := some a.ptr, pc := .wait c pid } := by
  obtain ⟨hptr, ht⟩ := newEntry_eq ht
  have hjobs : t.jobs = s.jobs := by rw [ht]
  have hkeep : ∀ q ∈ s.jobs.jobsList, t.entry q = s.entry q ∧ t.reaped q = s.reaped q := by
    rw [ht]
    exact hi.new_object hptr _ _
  have hpids : t.pids = s.pids := pids_congr (by rw [hjobs]) fun q hq => by rw [(hkeep q hq).1]
  refine ⟨?_, fun p hp _ => ?_, fun _ => ?_⟩
  · exact hpids ▸ h.nodup
  · have hp' : p ∈ s.jobs.jobsList := hjobs ▸ hp
    obtain ⟨hr, hin⟩ := h.alive p hp' (by rw [hfin]; exact nofun)
    change t.reaped p = false ∧ (t.entry p).jobProcessId ∈ t.procs
    rw [(hkeep p hp').1, (hkeep p hp').2, show t.procs = s.procs by rw [ht]]
    exact ⟨hr, hin⟩
  · exact hpids ▸ hnew

/-- **Every step keeps the list fresh**, unless a pipe reaps its own child. -/
theorem Fresh.step {l : Act} (h : Fresh s) (hi : IdInv s) (hst : Unsignalled s l t)
    (hclean : pipeReaps s l = false) : Fresh t := by
  obtain ⟨hst, hsig⟩ := hst
  have hself : s.jobs.jobsList.Subperm s.jobs.jobsList := .refl _
  have hinsert : ∀ (pid : Pid), ∀ q ∈ s.procs, q ∈ s.procs.insert pid .running :=
    fun pid q hq => (AList.mem_insert _).mpr (.inr hq)
  cases hst.moves with
  | line c hpc =>
    refine h.keep hself (fun _ => rfl) rfl (fun _ hq => hq) (.inl (by rw [hpc]; rfl)) ?_
    cases c.kind.sweeps <;> trivial
  | reap a c pid hpc hz => exact h.reap (by rw [hpc]; rfl) (.inl rfl) trivial
  | swept a c hpc =>
    exact h.keep hself (fun _ => rfl) rfl (fun _ hq => hq) (.inl (by rw [hpc]; rfl)) trivial
  | remove a c pid hpc =>
    have hsub : (s.jobs.removeJobByPid s.entry pid a.stale).jobsList.Subperm s.jobs.jobsList := by
      rw [JobsList.removeJobByPid, JobsList.removeFirst_jobsList]
      exact eraseP_subperm _ _
    refine ⟨nodup_of_subperm h.nodup (pids_subperm hsub fun _ => rfl), fun p hp _ => ?_, trivial⟩
    refine h.alive p (hsub.subset hp) ?_
    change p ∈ (s.jobs.removeJobByPid s.entry pid a.stale).jobsList at hp
    rw [JobsList.removeJobByPid, JobsList.removeFirst_jobsList] at hp
    rw [hpc]
    intro heq
    exact ne_of_mem_eraseP h.nodup hp (Option.some.inj heq).symm
  | scan a c hpc =>
    exact h.keep (List.filter_sublist).subperm (fun _ => rfl) rfl (fun _ hq => hq)
      (.inl (by rw [hpc]; rfl)) trivial
  | settle a _ hpc hpc' hs =>
    have hfin : s.pc.finproc = none := by
      obtain ⟨c, hc | hc⟩ := hpc <;> rw [hc] <;> rfl
    refine h.keep hs.jobs.subperm hs.jobProcessId hs.reaped (fun q hq => (hs.procs q).mpr hq) (.inl hfin) ?_
    unfold Shell.Due
    rcases hpc' with hpc' | hpc' <;> rw [hpc'] <;> trivial
  | publish a c jobId job hpc hk hjob =>
    obtain ⟨hmem, hid⟩ := mem_of_getJobById hjob
    refine h.keep hself (fun p => setJobStatus_jobProcessId ..) rfl (fun _ hq => hq)
      (.inl (by rw [hpc]; rfl)) ?_
    exact ⟨job, hmem, by simpa using hid, by simp⟩
  | fork a c pid hpc hchild hpid hk hb =>
    exact h.keep hself (fun _ => rfl) rfl (hinsert pid) (.inl (by rw [hpc]; rfl))
      (h.notMem_pids (by rw [hpc]; rfl) hpid)
  | forkBackground a c pid hpc hchild hpid hk =>
    exact h.keep hself (fun _ => rfl) rfl (hinsert pid) (.inl (by rw [hpc]; rfl))
      ⟨h.notMem_pids (by rw [hpc]; rfl) hpid, (AList.mem_insert _).mpr (.inl rfl)⟩
  | forkPipe a c pid hpc hchild hpid hk =>
    exact h.keep hself (fun _ => rfl) rfl (hinsert pid) (.inl (by rw [hpc]; rfl)) trivial
  | forkPipe2 a c pid hpc hchild hpid =>
    exact h.keep hself (fun _ => rfl) rfl (hinsert pid) (.inl (by rw [hpc]; rfl))
      ⟨h.notMem_pids (by rw [hpc]; rfl) hpid, (AList.mem_insert _).mpr (.inl rfl)⟩
  | add a c pid st u hpc hu =>
    have hdue := h.due
    unfold Shell.Due at hdue
    rw [hpc] at hdue
    obtain ⟨hnodup, halive⟩ := h.addJob hi (by rw [hpc]; rfl) hdue.1 hdue.2 hu
    split
    next hk => exact ⟨hnodup, fun p hp _ => halive p hp, fun hne => absurd hk hne⟩
    next => exact ⟨hnodup, fun p hp _ => halive p hp, trivial⟩
  | foreground a c pid u hpc hu =>
    have hdue := h.due
    unfold Shell.Due at hdue
    rw [hpc] at hdue
    exact h.newEntry hi (by rw [hpc]; rfl) hdue hu
  | fgCont a c jobId pid err hpc =>
    have hdue := h.due
    unfold Shell.Due at hdue
    rw [hpc] at hdue
    exact h.keep hself (fun _ => rfl) rfl (fun q hq => (Procs.mem_sent _ _ _ q).mpr hq)
      (.inl (by rw [hpc]; rfl)) hdue
  | fgRemove a c jobId pid hpc =>
    have hdue := h.due
    unfold Shell.Due at hdue
    rw [hpc] at hdue
    obtain ⟨job, hjob, hid, rfl⟩ := hdue
    refine h.keep ?_ (fun _ => rfl) rfl (fun _ hq => hq) (.inl (by rw [hpc]; rfl)) fun _ => ?_
    · rw [JobsList.removeJobById, JobsList.removeFirst_jobsList]
      exact eraseP_subperm _ _
    · exact notMem_pids_of_remove hi.nodup h.nodup hjob hid rfl rfl
  | waitReap a c pid hpc hz =>
    have hdue := h.due
    unfold Shell.Due at hdue
    rw [hpc] at hdue
    have hk : c.kind ≠ .pipe := by
      intro hk
      simp [pipeReaps, hpc, hk, hz] at hclean
    exact h.reap (by rw [hpc]; rfl) (.inr (hdue hk)) trivial
  | waitStop a c pid hpc hl =>
    exact h.keep hself (fun _ => rfl) rfl (fun q hq => (AList.mem_insert _).mpr (.inr hq))
      (.inl (by rw [hpc]; rfl)) trivial
  | waitFail a c pid err hpc hl =>
    exact h.keep hself (fun _ => rfl) rfl (fun _ hq => hq) (.inl (by rw [hpc]; rfl)) trivial
  | clear a c pid hpc =>
    exact h.keep hself (fun _ => rfl) rfl (fun _ hq => hq) (.inl (by rw [hpc]; rfl)) trivial
  | exit pid hmem => exact h.child pid .zombie
  | stop pid hmem => exact h.child pid (.stopped false)
  | cont pid hmem => exact h.child pid .running
  | ignoreZ | ignoreC | stopNew | stopOld | kill => cases hsig

end Steps

/-! ## Runs -/

/-- The steps of a run without user signals in which no pipe reaps its own child. -/
def NoPipeReaps (s : Shell) (l : Act) (t : Shell) : Prop := Unsignalled s l t ∧ pipeReaps s l = false

theorem fresh_start (maxJobID : ℤ) (entry : Entries) : Fresh (start maxJobID entry) :=
  ⟨List.nodup_nil, nofun, trivial⟩

theorem Fresh.of_run {maxJobID : ℤ} {entry : Entries} {ls : List Act} {s : Shell}
    (h : Run NoPipeReaps (start maxJobID entry) ls s) : IdInv s ∧ Fresh s := by
  refine h.invariant (I := fun s => IdInv s ∧ Fresh s)
    ⟨idInv_start maxJobID entry, fresh_start maxJobID entry⟩ ?_
  rintro t l u ⟨hi, hf⟩ ⟨hst, hclean⟩
  exact ⟨hi.step hst.1, hf.step hi hst hclean⟩

/-- **No stale entries.** In a run without user signals in which no pipe reaps its own child, no job in the
list belongs to a reaped child when `removeFinishedJobs` has returned. -/
theorem no_stale_entries {maxJobID : ℤ} {entry : Entries} {ls : List Act} {s : Shell} {c : Cmd}
    (h : Run NoPipeReaps (start maxJobID entry) ls s) (hpc : s.pc = .body c) :
    ∀ p ∈ s.jobs.jobsList, s.reaped p = false := by
  intro p hp
  exact ((Fresh.of_run h).2.alive p hp (by rw [hpc]; exact nofun)).1

/-- `ls | cat`. -/
def pipeCmd : Cmd where
  kind := .pipe
  argv := [['l', 's'], ['|'], ['c', 'a', 't']]
  isBackground := false
  cmdLine := ['l', 's', ' ', '|', ' ', 'c', 'a', 't']

def jobsCmd : Cmd where
  kind := .jobs
  argv := [['j', 'o', 'b', 's']]
  isBackground := false
  cmdLine := ['j', 'o', 'b', 's']

/-- `sleep 9&` and `jobs`; the sleep ends before `jobs`. -/
def sleepThenJobs : List Act :=
  [.line (sleepCmd true), .shell (quietAnswer 1), .shell (quietAnswer 1), .shell (quietAnswer 1),
    .shell (quietAnswer 1), .line (sleepCmd true), .shell (quietAnswer 2), .shell (quietAnswer 2),
    .shell (quietAnswer 2), .shell (quietAnswer 2), .exit 1, .line jobsCmd,
    .shell ⟨some 1, none, 0, 0, 0⟩, .shell (quietAnswer 2), .shell (quietAnswer 2),
    .shell (quietAnswer 2)]

theorem no_stale_entries_sleepThenJobs :
    ∃ s, Run NoPipeReaps sevenShell sleepThenJobs s ∧ s.pids = [2] ∧ s.pc = .body jobsCmd ∧
      ∀ p ∈ s.jobs.jobsList, s.reaped p = false := by
  have hs : ((execWhen (fun s l => !l.isSignal && !pipeReaps s l) step sevenShell sleepThenJobs).map
      fun s => (s.pids, s.pc)) = some ([2], .body jobsCmd) := by decide
  obtain ⟨s, hrun, heq⟩ := Option.map_eq_some_iff.mp hs
  obtain ⟨hpids, hpc⟩ := Prod.mk.inj heq
  have hclean : Run NoPipeReaps sevenShell sleepThenJobs s := by
    apply (Run.of_execWhen hrun).mono
    rintro t l u ⟨hst, hg⟩
    simp only [Bool.and_eq_true, Bool.not_eq_true'] at hg
    exact ⟨⟨hst, hg.1⟩, hg.2⟩
  exact ⟨s, hclean, hpids, hpc, no_stale_entries hclean hpc⟩

/-- `ls | cat` and `jobs`: both children end while the shell waits for the second. -/
def pipeThenJobs : List Act :=
  [.line pipeCmd, .shell (quietAnswer 1), .shell (quietAnswer 1), .shell (quietAnswer 1),
    .shell (quietAnswer 2), .shell (quietAnswer 3), .exit 1, .exit 2, .shell (quietAnswer 4),
    .shell (quietAnswer 4), .line jobsCmd, .shell ⟨some 1, none, 0, 0, 0⟩, .shell (quietAnswer 4),
    .shell (quietAnswer 4), .shell (quietAnswer 4)]

/-- A pipe leaves an entry of a reaped child in the list. -/
theorem pipe_leaves_stale_entry :
    ¬ ∀ (maxJobID : ℤ) (entry : Entries) (ls : List Act) (s : Shell) (c : Cmd),
      Run Unsignalled (start maxJobID entry) ls s → s.pc = .body c →
        ∀ p ∈ s.jobs.jobsList, s.reaped p = false := by
  intro hall
  have hs : ((execWhen (fun _ l => !l.isSignal) step sevenShell pipeThenJobs).map
      fun s => (s.pc, s.jobs.jobsList, s.reaped 3)) = some (.body jobsCmd, [3], true) := by decide
  obtain ⟨s, hrun, heq⟩ := Option.map_eq_some_iff.mp hs
  simp only [Prod.mk.injEq] at heq
  obtain ⟨hpc, hjobs, hreaped⟩ := heq
  have hquiet : Run Unsignalled sevenShell pipeThenJobs s := by
    apply (Run.of_execWhen hrun).mono
    rintro t l u ⟨hst, hg⟩
    exact ⟨hst, by simpa using hg⟩
  have hfresh := hall _ _ _ s _ hquiet hpc 3 (by simp [hjobs])
  rw [hreaped] at hfresh
  cases hfresh

end OsHomework.Smash
