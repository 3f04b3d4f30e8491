import OsHomework.Smash.Signals

/-!
# The record of the signals and the children

The invariant behind the statuses of the jobs: as long as the process of a job has not been reaped, it is
the child with the pid, and it obeys the signals it got; and the status of a job in the list agrees with the
record.

* `Shell.Minds`: what is known of the process of a job;
* `Synced`: the invariant, with what is known at each point;
* `Told.step_quiet`, `Told.step_child`, `Told.step_object`: the record after the kinds of steps;
* `Synced.keep`, `Synced.fork`, `Synced.object`, `Synced.signal`: what such a step must do to keep the
  invariant.
-/

set_option autoImplicit false

namespace OsHomework.Smash

/-- `fg` has published the job, and has not yet removed it from the list. -/
def Shell.resuming (s : Shell) (p : Ptr) : Prop := s.pc.resumes ∧ s.current = some p

/-- The job is in the list or in the foreground. -/
def Shell.Shown (s : Shell) (p : Ptr) : Prop := p ∈ s.jobs.jobsList ∨ s.current = some p

/-- While the process of the object has not been reaped, it is the child with the pid, and obeys. -/
def Shell.Minds (s : Shell) (g : Told) (p : Ptr) : Prop :=
  s.reaped p = false → g.job p = g.child (s.entry p).jobProcessId ∧
    ∃ st, s.procs.lookup (s.entry p).jobProcessId = some st ∧ st.Obeys (g.job p)

/-- A child that has been told nothing. -/
def Shell.Untold (s : Shell) (g : Told) (pid : Pid) : Prop :=
  g.child pid = false ∧ ∃ st, s.procs.lookup pid = some st ∧ st.Obeys false

/-- What is known at each point. -/
def Shell.Poised (s : Shell) (g : Told) : Prop :=
  match s.pc with
  | .foreground _ pid => s.Untold g pid
  | .add _ pid st => st ≠ .stopped ∧ s.Untold g pid
  | .fgCont _ jobId pid =>
    ∃ job, s.current = some job ∧ (s.entry job).jobId = jobId ∧ (s.entry job).jobProcessId = pid
  | .fgRemove _ jobId pid =>
    ∃ job, s.current = some job ∧ (s.entry job).jobId = jobId ∧ (s.entry job).jobProcessId = pid
  | _ => True

/-- The invariant. -/
structure Synced (s : Shell) (g : Told) : Prop where
  minds : ∀ p, s.Shown p → s.Minds g p
  /-- Nobody has the pid of a foreground job with the id -1 after its process. -/
  own : ∀ job, s.current = some job → (s.entry job).jobId = -1 → s.reaped job →
    (s.entry job).jobProcessId ∉ s.procs ∧ g.job job = g.child (s.entry job).jobProcessId
  status : ∀ p ∈ s.jobs.jobsList, ¬ s.resuming p → ((s.entry p).jobStatus = .stopped ↔ g.job p)
  point : s.Poised g

/-! ## The record after a step -/

section Record

variable {s t : Shell} {g : Told} {l : Act}

theorem Told.step_old (hprocs : ∀ q ∈ t.procs, q ∈ s.procs) (hobjs : t.objs = s.objs) :
    g.step s l t = g.hear s l := by
  unfold Told.step
  have hchild : ∀ q, ¬ (q ∈ t.procs ∧ q ∉ s.procs) := fun q hq => hq.2 (hprocs q hq.1)
  have hjob : ∀ p, ¬ (p ∈ t.objs ∧ p ∉ s.objs) := fun p hp => hp.2 (hobjs ▸ hp.1)
  simp only [hchild, hjob, if_false]

theorem Told.step_quiet (hsig : s.signal l = none) (hprocs : ∀ q ∈ t.procs, q ∈ s.procs)
    (hobjs : t.objs = s.objs) : g.step s l t = g := by
  rw [Told.step_old hprocs hobjs, Told.hear, hsig]

theorem Told.step_child {pid : Pid} {st : Proc} (hsig : s.signal l = none) (hpid : pid ∉ s.procs)
    (hprocs : t.procs = s.procs.insert pid st) (hobjs : t.objs = s.objs) :
    g.step s l t = { g with child := Function.update g.child pid false } := by
  have hnew : ∀ q, (q ∈ t.procs ∧ q ∉ s.procs) ↔ q = pid := by
    intro q
    rw [hprocs, AList.mem_insert]
    refine ⟨fun hq => hq.1.resolve_right hq.2, ?_⟩
    rintro rfl
    exact ⟨.inl rfl, hpid⟩
  have hjob : ∀ p, ¬ (p ∈ t.objs ∧ p ∉ s.objs) := fun p hp => hp.2 (hobjs ▸ hp.1)
  have hchild : (fun q => if q = pid then false else g.child q) = Function.update g.child pid false := by
    funext q
    simp [Function.update_apply]
  simp only [Told.step, Told.hear, hsig, hnew, hjob, if_false, hchild]

theorem Told.step_object {ptr : Ptr} (hprocs : ∀ q ∈ t.procs, q ∈ s.procs) (hptr : ptr ∉ s.objs)
    (hobjs : t.objs = ptr :: s.objs) :
    g.step s l t = { g.hear s l with
      job := Function.update (g.hear s l).job ptr ((g.hear s l).child (t.entry ptr).jobProcessId) } := by
  have hchild : ∀ q, ¬ (q ∈ t.procs ∧ q ∉ s.procs) := fun q hq => hq.2 (hprocs q hq.1)
  have hnew : ∀ p, (p ∈ t.objs ∧ p ∉ s.objs) ↔ p = ptr := by
    intro p
    rw [hobjs, List.mem_cons]
    refine ⟨fun hp => hp.1.resolve_right hp.2, ?_⟩
    rintro rfl
    exact ⟨.inl rfl, hptr⟩
  have hjob : (fun p => if p = ptr then (g.hear s l).child (t.entry p).jobProcessId else (g.hear s l).job p) =
      Function.update (g.hear s l).job ptr ((g.hear s l).child (t.entry ptr).jobProcessId) := by
    funext p
    by_cases hp : p = ptr
    · subst hp
      simp
    · simp [hp]
  unfold Told.step
  simp only [hchild, hnew, if_false, hjob]

end Record

/-! ## What a signal does to the record -/

section Signal

variable {s : Shell} {g : Told} {pid : Pid} {sig : ℤ}

theorem Told.signal_of_gone (h : pid ∉ s.procs) : g.signal s pid sig = g := by
  rw [Told.signal, if_neg h]

theorem Told.signal_of_neutral (h : ∀ b, told sig b = b) : g.signal s pid sig = g := by
  unfold Told.signal
  split
  next =>
    have hchild : Function.update g.child pid (told sig (g.child pid)) = g.child := by
      rw [h, Function.update_eq_self]
    have hjob : (fun p => if s.reaped p = false ∧ (s.entry p).jobProcessId = pid then told sig (g.job p)
        else g.job p) = g.job := by
      funext p
      rw [h, ite_self]
    rw [hchild, hjob]
  next => rfl

/-- A `kill` that fails sends nothing. -/
theorem Told.signal_of_failed (h : s.procs.kill pid sig = none) : g.signal s pid sig = g := by
  unfold Procs.kill at h
  split at h
  next hnone =>
    refine Told.signal_of_gone fun hmem => ?_
    have hsome := AList.lookup_isSome.mpr hmem
    rw [hnone] at hsome
    cases hsome
  next =>
    split at h
    next => cases h
    next hbad =>
      refine Told.signal_of_neutral fun last => ?_
      have hstop : ¬ isStopping sig := by
        intro hs
        have hrange : sigStop ≤ sig ∧ sig ≤ 22 := by simpa [isStopping] using hs
        unfold sigStop at hrange
        exact hbad (by omega)
      have hcont : sig ≠ sigCont := by
        rintro rfl
        exact hbad (by decide)
      simp [told, hstop, hcont]

theorem Told.signal_reached {p : Ptr} (hmem : pid ∈ s.procs) (hlive : s.reaped p = false)
    (hpid : (s.entry p).jobProcessId = pid) : (g.signal s pid sig).job p = told sig (g.job p) := by
  simp [Told.signal, hmem, hlive, hpid]

theorem Told.signal_missed {p : Ptr} (h : s.reaped p ∨ (s.entry p).jobProcessId ≠ pid) :
    (g.signal s pid sig).job p = g.job p := by
  unfold Told.signal
  split
  next =>
    rcases h with h | h <;> simp [h]
  next => rfl

theorem Told.signal_child (q : Pid) :
    (g.signal s pid sig).child q = if q = pid ∧ pid ∈ s.procs then told sig (g.child q) else g.child q := by
  unfold Told.signal
  by_cases hmem : pid ∈ s.procs
  · by_cases hq : q = pid
    · subst hq
      simp [hmem]
    · simp [hmem, hq]
  · simp [hmem]

theorem Shell.Minds.mem {p : Ptr} (h : s.Minds g p) (hlive : s.reaped p = false) :
    (s.entry p).jobProcessId ∈ s.procs := by
  obtain ⟨-, st, hst, -⟩ := h hlive
  exact AList.lookup_isSome.mp (by simp [hst])

/-- A process goes on obeying after a signal to the child `pid`. -/
theorem Shell.Minds.signal {t : Shell} {p : Ptr} (h : s.Minds g p)
    (hpid : (t.entry p).jobProcessId = (s.entry p).jobProcessId) (hreaped : t.reaped p = s.reaped p)
    (hprocs : t.procs = s.procs.sent pid sig)
    (hsig : s.reaped p = false → (s.entry p).jobProcessId = pid → isStopping sig →
      sig = sigStop ∨ g.job p = true) : t.Minds (g.signal s pid sig) p := by
  intro hlive
  rw [hreaped] at hlive
  obtain ⟨hsame, st, hst, hobeys⟩ := h hlive
  rw [hpid, hprocs, Procs.lookup_sent_any, Told.signal_child]
  by_cases hp : (s.entry p).jobProcessId = pid
  · have hmem : pid ∈ s.procs := hp ▸ h.mem hlive
    rw [Told.signal_reached hmem hlive hp, if_pos ⟨hp, hmem⟩, if_pos hp, hst, hsame]
    exact ⟨rfl, _, rfl, hsame ▸ hobeys.receive (hsig hlive hp)⟩
  · rw [Told.signal_missed (.inr hp), if_neg fun hq => hp hq.1, if_neg hp]
    exact ⟨hsame, st, hst, hobeys⟩

/-- The status of another job agrees with the record after the signal. -/
theorem Told.signal_other {job p : Ptr} (hagree : s.othersAgree job sig) (hp : p ∈ s.jobs.jobsList)
    (hne : p ≠ job) (h : (s.entry p).jobStatus = .stopped ↔ g.job p) :
    (s.entry p).jobStatus = .stopped ↔ (g.signal s (s.entry job).jobProcessId sig).job p := by
  by_cases hmiss : s.reaped p ∨ (s.entry p).jobProcessId ≠ (s.entry job).jobProcessId
  · rw [Told.signal_missed hmiss]
    exact h
  · obtain ⟨hlive, hpid⟩ := not_or.mp hmiss
    have hlive : s.reaped p = false := by simpa using hlive
    have hpid : (s.entry p).jobProcessId = (s.entry job).jobProcessId := not_not.mp hpid
    have hshows := List.all_eq_true.mp hagree p hp
    simp only [hne, hlive, hpid] at hshows
    by_cases hmem : (s.entry job).jobProcessId ∈ s.procs
    · rw [Told.signal_reached hmem hlive hpid, told]
      split
      next hs => simpa [hs] using hshows
      next hs =>
        split
        next hc =>
          have hcont : isStopping sigCont = false := by decide
          simpa [hc, hcont] using hshows
        next => exact h
    · rw [Told.signal_of_gone hmem]
      exact h

end Signal

/-! ## The shapes of a step -/

section Shapes

variable {s t : Shell} {g : Told}

/-- A step that sends nothing and makes nothing. -/
theorem Synced.keep (h : Synced s g) (hlist : ∀ p ∈ t.jobs.jobsList, p ∈ s.jobs.jobsList)
    (hcur : ∀ p, t.current = some p → s.Shown p)
    (hpid : ∀ p, (t.entry p).jobProcessId = (s.entry p).jobProcessId)
    (hstatus : ∀ p ∈ t.jobs.jobsList, ¬ t.resuming p →
      ¬ s.resuming p ∧ (t.entry p).jobStatus = (s.entry p).jobStatus)
    (hreaped : ∀ p, t.reaped p = false → s.reaped p = false)
    (hproc : ∀ p, t.Shown p → t.reaped p = false → ∀ st,
      s.procs.lookup (s.entry p).jobProcessId = some st → st.Obeys (g.child (s.entry p).jobProcessId) →
        ∃ st', t.procs.lookup (s.entry p).jobProcessId = some st' ∧
          st'.Obeys (g.child (s.entry p).jobProcessId))
    (hown : ∀ job, t.current = some job → (t.entry job).jobId = -1 → t.reaped job →
      (t.entry job).jobProcessId ∉ t.procs ∧ g.job job = g.child (t.entry job).jobProcessId)
    (hpoint : t.Poised g) : Synced t g where
  minds p hp hlive := by
    have hshown : s.Shown p := hp.elim (fun hp => .inl (hlist p hp)) (hcur p)
    obtain ⟨hsame, st, hst, hobeys⟩ := h.minds p hshown (hreaped p hlive)
    rw [hpid, hsame]
    exact ⟨rfl, hproc p hp hlive st hst (hsame ▸ hobeys)⟩
  own := hown
  status p hp hres := by
    obtain ⟨hres', heq⟩ := hstatus p hp hres
    rw [heq]
    exact h.status p (hlist p hp) hres'
  point := hpoint

/-- A step without a foreground job before or after it, in which no process is reaped. -/
theorem Synced.idle (h : Synced s g) (hcur : s.current = none) (hcur' : t.current = none)
    (hlist : ∀ p ∈ t.jobs.jobsList, p ∈ s.jobs.jobsList)
    (hpid : ∀ p, (t.entry p).jobProcessId = (s.entry p).jobProcessId)
    (hstatus : ∀ p, (t.entry p).jobStatus = (s.entry p).jobStatus) (hreaped : t.reaped = s.reaped)
    (hproc : ∀ q st, s.procs.lookup q = some st → t.procs.lookup q = some st ∨
      t.procs.lookup q = some .zombie)
    (hpoint : t.Poised g) : Synced t g := by
  refine h.keep hlist (by rw [hcur']; exact nofun) hpid
    (fun p _ _ => ⟨fun hres => ?_, hstatus p⟩) (fun p hp => hreaped ▸ hp) ?_
    (by rw [hcur']; exact nofun) hpoint
  · rw [Shell.resuming, hcur] at hres
    cases hres.2
  · intro p _ _ st hst hobeys
    rcases hproc _ st hst with hst' | hst'
    · exact ⟨st, hst', hobeys⟩
    · exact ⟨_, hst', .inl rfl⟩

theorem Synced.move (h : Synced s g) (hres : s.pc.resumes = false) (err : List String) {pc : Pc}
    (hpoint : { s with stderr := err, pc := pc }.Poised g) : Synced { s with stderr := err, pc := pc } g := by
  refine h.keep (fun _ hp => hp) (fun _ hp => .inr hp) (fun _ => rfl)
    (fun p _ _ => ⟨fun hr => ?_, rfl⟩) (fun _ hp => hp) (fun _ _ _ st hst ho => ⟨st, hst, ho⟩) h.own hpoint
  rw [Shell.resuming, hres] at hr
  cases hr.1

/-- A process is reaped. -/
theorem Synced.reap (h : Synced s g) (hi : IdInv s) (pid : Pid) {pc : Pc} (hpc : s.pc.resumes = false)
    (hpoint : { s.reap pid with pc := pc }.Poised g) : Synced { s.reap pid with pc := pc } g := by
  have hreaped : ∀ p, (s.reap pid).reaped p = false → s.reaped p = false ∧
      (p ∈ s.objs → (s.entry p).jobProcessId ≠ pid) := by
    intro p hp
    simpa [Shell.reap] using hp
  have hobjs : ∀ p, s.Shown p → p ∈ s.objs :=
    fun p hp => hp.elim (hi.made p) fun hcur => (hi.foreground p hcur).1
  refine h.keep (fun _ hp => hp) (fun _ hp => .inr hp) (fun _ => rfl)
    (fun p _ _ => ⟨fun hres => ?_, rfl⟩) (fun p hp => (hreaped p hp).1) ?_ ?_ hpoint
  · rw [Shell.resuming, hpc] at hres
    cases hres.1
  · intro p hp hlive st hst hobeys
    refine ⟨st, ?_, hobeys⟩
    exact (AList.lookup_erase_ne ((hreaped p hlive).2 (hobjs p hp))).trans hst
  · intro job hcur hid hgone
    by_cases hlive : s.reaped job = false
    · -- the process is the one that is being reaped
      have hpid : (s.entry job).jobProcessId = pid := by
        have hmem := hobjs job (.inr hcur)
        change (s.reaped job || (decide (job ∈ s.objs) && decide ((s.entry job).jobProcessId = pid))) = true
          at hgone
        simpa [hlive, hmem] using hgone
      refine ⟨fun hmem => ?_, (h.minds job (.inr hcur) hlive).1⟩
      exact (AList.mem_erase.mp hmem).1 hpid
    · obtain ⟨hnot, heq⟩ := h.own job hcur hid (by simpa using hlive)
      exact ⟨fun hmem => hnot (AList.mem_erase.mp hmem).2, heq⟩

/-- A process changes its state by itself. -/
theorem Synced.child (h : Synced s g) {pid : Pid} (hmem : pid ∈ s.procs) {st : Proc}
    (hst : ∀ st', s.procs.lookup pid = some st' → st'.Obeys (g.child pid) → st.Obeys (g.child pid)) :
    Synced { s with procs := s.procs.insert pid st } g := by
  have hlook : ∀ q st', s.procs.lookup q = some st' → st'.Obeys (g.child q) →
      ∃ st', (s.procs.insert pid st).lookup q = some st' ∧ st'.Obeys (g.child q) := by
    intro q st' hst' hobeys
    by_cases hq : q = pid
    · subst hq
      exact ⟨st, AList.lookup_insert _, hst st' hst' hobeys⟩
    · exact ⟨st', (AList.lookup_insert_ne hq).trans hst', hobeys⟩
  have huntold : ∀ q, s.Untold g q → { s with procs := s.procs.insert pid st }.Untold g q := by
    rintro q ⟨hq, st', hst', hobeys⟩
    obtain ⟨st'', hst'', hobeys'⟩ := hlook q st' hst' (hq ▸ hobeys)
    exact ⟨hq, st'', hst'', hq ▸ hobeys'⟩
  refine h.keep (fun _ hp => hp) (fun _ hp => .inr hp) (fun _ => rfl) (fun _ _ hres => ⟨hres, rfl⟩)
    (fun _ hp => hp) (fun p _ _ => hlook _) (fun job hcur hid hgone => ?_) ?_
  · obtain ⟨hnot, heq⟩ := h.own job hcur hid hgone
    refine ⟨fun hin => hnot ?_, heq⟩
    rcases (AList.mem_insert _).mp hin with heq | hin
    · rw [heq]
      exact hmem
    · exact hin
  · have hpoint := h.point
    unfold Shell.Poised at hpoint ⊢
    dsimp only
    split at hpoint
    next => exact huntold _ hpoint
    next => exact ⟨hpoint.1, huntold _ hpoint.2⟩
    next => exact hpoint
    next => exact hpoint
    next => trivial

theorem Synced.fork (h : Synced s g) (hcur : s.current = none) {pid : Pid} (hpid : pid ∉ s.procs) {pc : Pc}
    (hpoint : { s with procs := s.procs.insert pid .running, pc := pc }.Poised
      { g with child := Function.update g.child pid false }) :
    Synced { s with procs := s.procs.insert pid .running, pc := pc }
      { g with child := Function.update g.child pid false } where
  minds p hp hlive := by
    have hshown : s.Shown p := .inl (hp.resolve_right (by rw [hcur]; exact nofun))
    have hne : (s.entry p).jobProcessId ≠ pid := fun heq => hpid (heq ▸ (h.minds p hshown).mem hlive)
    obtain ⟨hsame, st, hst, hobeys⟩ := h.minds p hshown hlive
    exact ⟨hsame.trans (Function.update_of_ne hne ..).symm, st, (AList.lookup_insert_ne hne).trans hst,
      hobeys⟩
  own job hjob := by
    rw [hcur] at hjob
    cases hjob
  status p hp _ := by
    refine h.status p hp fun hres => ?_
    rw [Shell.resuming, hcur] at hres
    cases hres.2
  point := hpoint

/-- An object is made, and `fg` is not at work. -/
theorem Synced.object (h : Synced s g) (hobjs : ∀ p, s.Shown p → p ∈ s.objs) (hres : s.pc.resumes = false)
    {ptr : Ptr} (hptr : ptr ∉ s.objs) {j : JobEntry}
    (hobeys : ∀ st, s.procs.lookup j.jobProcessId = some st → st.Obeys (g.child j.jobProcessId))
    (hlist : ∀ p ∈ t.jobs.jobsList,
      p ∈ s.jobs.jobsList ∨ p = ptr ∧ (j.jobStatus = .stopped ↔ g.child j.jobProcessId))
    (hcur : ∀ p, t.current = some p → s.current = some p ∨ p = ptr)
    (hentry : t.entry = Function.update s.entry ptr j)
    (hreaped : t.reaped = Function.update s.reaped ptr (s.procs.lookup j.jobProcessId).isNone)
    (hprocs : t.procs = s.procs)
    (hpoint : t.Poised { g with job := Function.update g.job ptr (g.child j.jobProcessId) }) :
    Synced t { g with job := Function.update g.job ptr (g.child j.jobProcessId) } := by
  have hkeep : ∀ p, s.Shown p → t.entry p = s.entry p ∧ t.reaped p = s.reaped p ∧
      Function.update g.job ptr (g.child j.jobProcessId) p = g.job p := by
    intro p hp
    have hne : p ≠ ptr := by
      rintro rfl
      exact hptr (hobjs p hp)
    rw [hentry, hreaped]
    simp [hne]
  have hself : t.entry ptr = j ∧ t.reaped ptr = (s.procs.lookup j.jobProcessId).isNone ∧
      Function.update g.job ptr (g.child j.jobProcessId) ptr = g.child j.jobProcessId := by
    rw [hentry, hreaped]
    simp
  refine ⟨fun p hp => ?_, fun p hp hid hgone => ?_, fun p hp _ => ?_, hpoint⟩
  · have hcases : s.Shown p ∨ p = ptr := by
      rcases hp with hp | hp
      · exact (hlist p hp).imp .inl And.left
      · exact (hcur p hp).imp_left .inr
    intro hlive
    dsimp only
    rcases hcases with hp | rfl
    · rw [(hkeep p hp).2.1] at hlive
      rw [(hkeep p hp).1, (hkeep p hp).2.2, hprocs]
      exact h.minds p hp hlive
    · rw [hself.2.1] at hlive
      obtain ⟨st, hst⟩ := Option.isSome_iff_exists.mp (Option.isNone_eq_false_iff.mp hlive)
      rw [hself.1, hself.2.2, hprocs]
      exact ⟨rfl, st, hst, hobeys st hst⟩
  · dsimp only
    rcases hcur p hp with hp | rfl
    · rw [(hkeep p (.inr hp)).1] at hid ⊢
      rw [(hkeep p (.inr hp)).2.1] at hgone
      rw [(hkeep p (.inr hp)).2.2, hprocs]
      exact h.own p hp hid hgone
    · rw [hself.2.1, Option.isNone_iff_eq_none] at hgone
      rw [hself.1, hself.2.2, hprocs]
      refine ⟨fun hmem => ?_, rfl⟩
      have hsome := AList.lookup_isSome.mpr hmem
      rw [hgone] at hsome
      cases hsome
  · dsimp only
    rcases hlist p hp with hp | ⟨rfl, hst⟩
    · rw [(hkeep p (.inl hp)).1, (hkeep p (.inl hp)).2.2]
      refine h.status p hp fun hr => ?_
      rw [Shell.resuming, hres] at hr
      cases hr.1
    · rw [hself.1, hself.2.2]
      exact hst

/-- A job gets a signal. What must be shown is what holds of this job. -/
theorem Synced.signal (h : Synced s g) {job : Ptr} {sig : ℤ} (hagree : s.othersAgree job sig)
    (hlist : ∀ p ∈ t.jobs.jobsList, p ≠ job → p ∈ s.jobs.jobsList) (hjob : s.Shown job)
    (hcur : t.current = s.current) (hid : ∀ p, (t.entry p).jobId = (s.entry p).jobId)
    (hpid : ∀ p, (t.entry p).jobProcessId = (s.entry p).jobProcessId) (hreaped : t.reaped = s.reaped)
    (hprocs : t.procs = s.procs.sent (s.entry job).jobProcessId sig)
    (hstop : isStopping sig → sig = sigStop ∨ s.current = none ∧ (s.reaped job ∨ g.job job = true))
    (hstatus : ∀ p, p ≠ job → (t.entry p).jobStatus = (s.entry p).jobStatus)
    (hres : ∀ p, p ≠ job → ¬ s.resuming p)
    (hself : job ∈ t.jobs.jobsList → ¬ t.resuming job → ((t.entry job).jobStatus = .stopped ↔
      (g.signal s (s.entry job).jobProcessId sig).job job))
    (hpoint : t.Poised (g.signal s (s.entry job).jobProcessId sig)) :
    Synced t (g.signal s (s.entry job).jobProcessId sig) where
  minds p hp := by
    have hshown : s.Shown p := by
      by_cases hne : p = job
      · exact hne ▸ hjob
      · exact hp.imp (fun hp => hlist p hp hne) fun hp => hcur ▸ hp
    refine (h.minds p hshown).signal (hpid p) (by rw [hreaped]) hprocs fun hlive hsame hs => ?_
    refine (hstop hs).imp_right fun ⟨hnone, hlast⟩ => ?_
    by_cases hne : p = job
    · subst hne
      exact hlast.resolve_left (by simp [hlive])
    · have hmem : p ∈ s.jobs.jobsList := hshown.resolve_right (by rw [hnone]; exact nofun)
      have hshows := List.all_eq_true.mp hagree p hmem
      exact (h.status p hmem (hres p hne)).mp (by simpa [hne, hlive, hsame, hs] using hshows)
  own job' hcur' hid' hgone := by
    rw [hid] at hid'
    rw [hreaped] at hgone
    obtain ⟨hnot, heq⟩ := h.own job' (hcur ▸ hcur') hid' hgone
    rw [hpid, hprocs, Procs.mem_sent, Told.signal_missed (.inl hgone), Told.signal_child, if_neg]
    · exact ⟨hnot, heq⟩
    · rintro ⟨hsame, hmem⟩
      exact hnot (hsame ▸ hmem)
  status p hp hr := by
    by_cases hne : p = job
    · subst hne
      exact hself hp hr
    · rw [hstatus p hne]
      have hmem := hlist p hp hne
      exact Told.signal_other hagree hmem hne (h.status p hmem (hres p hne))
  point := hpoint

end Shapes

end OsHomework.Smash
