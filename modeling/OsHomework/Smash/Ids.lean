import OsHomework.Smash.Steps

/-!
# Job identifiers

`maxJobID` starts with any value and is wrong after most removals. It is right where it matters: every
command that makes a job with `addJob(pid, status, cmd_line)` has called `removeFinishedJobs` before, which
computes it afresh, and so has the command whose foreground job has the id -1 when Ctrl-Z gives it a real
one.

* `Listed`: the ids in the list are distinct and positive;
* `Shell.pids`: the processes of the list;
* `IdInv`: with what is known of `maxJobID` and of the foreground job. `IdInv.step` is the step lemma;
* **`ids_distinct_and_next`**: over every run, and what id `addJob` hands out.
-/

set_option autoImplicit false

namespace OsHomework.Smash

/-- The ids in the jobs list. -/
def Shell.ids (s : Shell) : List ℤ := Smash.ids s.entry s.jobs.jobsList

/-- The points at which no foreground job is published. -/
def Pc.idle : Pc → Bool
  | .fgCont .. | .fgRemove .. | .wait .. | .clear .. => false
  | _ => true

/-- The points between `removeFinishedJobs` and the job that the command makes. -/
def Pc.allocates : Pc → Bool
  | .body .. | .fork2 .. | .add .. | .foreground .. => true
  | _ => false

/-- The points at which `fg` has not yet removed its job. -/
def Pc.resumes : Pc → Bool
  | .fgCont .. | .fgRemove .. => true
  | _ => false

theorem Pc.idle_of_allocates {pc : Pc} (h : pc.allocates) : pc.idle := by
  cases pc <;> first | rfl | cases h

/-- The jobs in the list have distinct positive ids. -/
structure Listed (s : Shell) : Prop where
  made : ∀ p ∈ s.jobs.jobsList, p ∈ s.objs
  nodup : s.ids.Nodup
  pos : ∀ i ∈ s.ids, 0 < i

section Listed

variable {s t : Shell}

theorem nodup_of_subperm {α : Type} {l l' : List α} (h : l'.Nodup) (hsub : l.Subperm l') : l.Nodup := by
  obtain ⟨k, hperm, hsub⟩ := hsub
  exact hperm.nodup_iff.mp (hsub.nodup h)

theorem Listed.mono (h : Listed s) (hjobs : t.jobs.jobsList.Subperm s.jobs.jobsList)
    (hid : ∀ p, (t.entry p).jobId = (s.entry p).jobId) (hobjs : t.objs = s.objs) : Listed t := by
  have hids : t.ids.Subperm s.ids := by
    have hmap : t.ids = t.jobs.jobsList.map fun p => (s.entry p).jobId :=
      List.map_congr_left fun p _ => hid p
    obtain ⟨l, hperm, hsub⟩ := hjobs
    rw [hmap]
    exact ⟨_, hperm.map _, hsub.map _⟩
  refine ⟨fun p hp => ?_, ?_, fun i hi => h.pos i (hids.subset hi)⟩
  · rw [hobjs]
    exact h.made p (hjobs.subset hp)
  · exact nodup_of_subperm h.nodup hids

theorem ids_append {p : Ptr} (hjobs : t.jobs.jobsList = s.jobs.jobsList ++ [p])
    (hid : ∀ q ∈ s.jobs.jobsList, (t.entry q).jobId = (s.entry q).jobId) :
    t.ids = s.ids ++ [(t.entry p).jobId] := by
  unfold Shell.ids Smash.ids
  rw [hjobs, List.map_append, List.map_congr_left hid]
  rfl

theorem Listed.append (h : Listed s) {p : Ptr} (hjobs : t.jobs.jobsList = s.jobs.jobsList ++ [p])
    (hid : ∀ q ∈ s.jobs.jobsList, (t.entry q).jobId = (s.entry q).jobId) (hp : p ∈ t.objs)
    (hobjs : ∀ q ∈ s.objs, q ∈ t.objs) (hnew : (t.entry p).jobId ∉ s.ids) (hpos : 0 < (t.entry p).jobId) :
    Listed t := by
  have hids := ids_append hjobs hid
  refine ⟨fun q hq => ?_, ?_, fun i hi => ?_⟩
  · rw [hjobs, List.mem_append, List.mem_singleton] at hq
    rcases hq with hq | rfl
    · exact hobjs q (h.made q hq)
    · exact hp
  · rw [hids, ← List.concat_eq_append]
    exact h.nodup.concat hnew
  · rw [hids, List.mem_append, List.mem_singleton] at hi
    rcases hi with hi | rfl
    · exact h.pos i hi
    · exact hpos

end Listed

/-- The processes of the jobs in the list. -/
def Shell.pids (s : Shell) : List Pid := s.jobs.jobsList.map fun p => (s.entry p).jobProcessId

section Pids

variable {s t : Shell}

theorem mem_pids {pid : Pid} :
    pid ∈ s.pids ↔ ∃ p ∈ s.jobs.jobsList, (s.entry p).jobProcessId = pid :=
  List.mem_map

theorem pids_congr (hjobs : t.jobs.jobsList = s.jobs.jobsList)
    (hpid : ∀ p ∈ s.jobs.jobsList, (t.entry p).jobProcessId = (s.entry p).jobProcessId) :
    t.pids = s.pids := by
  unfold Shell.pids
  rw [hjobs]
  exact List.map_congr_left hpid

theorem pids_append {p : Ptr} (hjobs : t.jobs.jobsList = s.jobs.jobsList ++ [p])
    (hpid : ∀ q ∈ s.jobs.jobsList, (t.entry q).jobProcessId = (s.entry q).jobProcessId) :
    t.pids = s.pids ++ [(t.entry p).jobProcessId] := by
  unfold Shell.pids
  rw [hjobs, List.map_append, List.map_congr_left hpid]
  rfl

theorem pids_subperm (hjobs : t.jobs.jobsList.Subperm s.jobs.jobsList)
    (hpid : ∀ p, (t.entry p).jobProcessId = (s.entry p).jobProcessId) : t.pids.Subperm s.pids := by
  obtain ⟨l, hperm, hsub⟩ := hjobs
  have hmap : t.pids = t.jobs.jobsList.map fun p => (s.entry p).jobProcessId :=
    List.map_congr_left fun p _ => hpid p
  rw [hmap]
  exact ⟨_, hperm.map _, hsub.map _⟩

/-- Among distinct values, the first occurrence of `k` is the only one. -/
theorem ne_of_mem_eraseP {α β : Type} [DecidableEq β] {f : α → β} {l : List α} {k : β} {x : α}
    (h : (l.map f).Nodup) (hx : x ∈ l.eraseP fun y => f y = k) : f x ≠ k := by
  induction l with
  | nil => cases hx
  | cons a l ih =>
    obtain ⟨ha, hl⟩ := List.nodup_cons.mp h
    by_cases hk : f a = k
    · rw [List.eraseP_cons_of_pos (by simpa using hk)] at hx
      intro hxk
      exact ha (hk ▸ hxk ▸ List.mem_map_of_mem hx)
    · rw [List.eraseP_cons_of_neg (by simpa using hk)] at hx
      cases hx with
      | head => exact hk
      | tail _ hx => exact ih hl hx

theorem notMem_pids_of_remove {jobId stale : ℤ} {job : Ptr} (hids : s.ids.Nodup) (hpids : s.pids.Nodup)
    (hjob : job ∈ s.jobs.jobsList) (hid : (s.entry job).jobId = jobId)
    (hjobs : t.jobs = s.jobs.removeJobById s.entry jobId stale) (hentry : t.entry = s.entry) :
    (s.entry job).jobProcessId ∉ t.pids := by
  intro hmem
  obtain ⟨p, hp, heq⟩ := mem_pids.mp hmem
  rw [hjobs, JobsList.removeJobById, JobsList.removeFirst_jobsList] at hp
  rw [hentry] at heq
  have hsame : p = job := List.inj_on_of_nodup_map hpids (List.mem_of_mem_eraseP hp) hjob heq
  exact ne_of_mem_eraseP hids hp (hsame ▸ hid)

end Pids

/-- The invariant: where an id will be handed out, `maxJobID` is the largest id of the list. -/
structure IdInv (s : Shell) : Prop extends Listed s where
  idle : s.pc.idle → s.current = none
  known : s.pc.allocates → s.jobs.maxJobID = largest s.ids
  resumed : s.pc.resumes → ∀ job, s.current = some job → 0 < (s.entry job).jobId
  foreground : ∀ job, s.current = some job → job ∈ s.objs ∧
    (0 < (s.entry job).jobId ∨ (s.entry job).jobId = -1 ∧ s.jobs.maxJobID = largest s.ids)

section Moves

variable {s t : Shell}

theorem IdInv.of_idle (hl : Listed t) (hcur : t.current = none)
    (hknown : t.pc.allocates → t.jobs.maxJobID = largest t.ids) : IdInv t :=
  { hl with
    idle := fun _ => hcur
    known := hknown
    resumed := fun _ job hjob => by rw [hcur] at hjob; cases hjob
    foreground := fun job hjob => by rw [hcur] at hjob; cases hjob }

theorem IdInv.of_current {job : Ptr} (hl : Listed t) (hcur : t.current = some job)
    (hpc : t.pc.idle = false) (hobj : job ∈ t.objs)
    (hid : 0 < (t.entry job).jobId ∨
      t.pc.resumes = false ∧ (t.entry job).jobId = -1 ∧ t.jobs.maxJobID = largest t.ids) : IdInv t where
  toListed := hl
  idle hidle := by
    rw [hpc] at hidle
    cases hidle
  known hall := by
    rw [Pc.idle_of_allocates hall] at hpc
    cases hpc
  resumed hres job' hjob' := by
    obtain rfl := Option.some.inj (hcur.symm.trans hjob')
    rcases hid with hid | ⟨hres', -⟩
    · exact hid
    · rw [hres'] at hres
      cases hres
  foreground job' hjob' := by
    obtain rfl := Option.some.inj (hcur.symm.trans hjob')
    exact ⟨hobj, hid.imp_right And.right⟩

/-- A step while a job is in the foreground: the list and the ids stay. -/
theorem IdInv.of_busy (h : IdInv s) (hjobs : t.jobs = s.jobs)
    (hid : ∀ p, (t.entry p).jobId = (s.entry p).jobId) (hobjs : t.objs = s.objs)
    (hcur : t.current = s.current) (hpc : t.pc = s.pc ∨ t.pc.idle = false)
    (hres : t.pc.resumes → s.pc.resumes) : IdInv t := by
  have hids : t.ids = s.ids := by
    unfold Shell.ids Smash.ids
    rw [hjobs]
    exact List.map_congr_left fun p _ => hid p
  refine { h.toListed.mono (by rw [hjobs]) hid hobjs with
    idle := ?_, known := ?_, resumed := ?_, foreground := ?_ }
  · intro hidle
    rcases hpc with hpc | hpc
    · rw [hcur]
      exact h.idle (hpc ▸ hidle)
    · rw [hpc] at hidle
      cases hidle
  · intro hall
    rcases hpc with hpc | hpc
    · rw [hids, hjobs]
      exact h.known (hpc ▸ hall)
    · rw [Pc.idle_of_allocates hall] at hpc
      cases hpc
  · intro hr job hjob
    rw [hid]
    exact h.resumed (hres hr) job (hcur ▸ hjob)
  · intro job hjob
    rw [hid, hids, hjobs, hobjs]
    exact h.foreground job (hcur ▸ hjob)

theorem largest_succ (l : List ℤ) : largest l + 1 ∉ l ∧ 0 < largest l + 1 := by
  refine ⟨fun hmem => ?_, ?_⟩
  · have := le_largest hmem
    omega
  · have := largest_nonneg l
    omega

theorem update_of_mem {e : Entries} {objs : List Ptr} {q p : Ptr} {j : JobEntry} (hq : q ∈ objs)
    (hp : p ∉ objs) : Function.update e p j q = e q := by
  apply Function.update_of_ne
  rintro rfl
  exact hp hq

/-- `addJob(pid, status, cmd_line)` where `maxJobID` is right: the next id is handed out, and `maxJobID` is
right again. -/
theorem Listed.addJob {a : Answer} {pid : Pid} {st : Status} {cmdLine : List Char} (h : Listed s)
    (hmax : s.jobs.maxJobID = largest s.ids) (ht : s.addJob a pid st cmdLine = some t) :
    Listed t ∧ t.ids = s.ids ++ [largest s.ids + 1] ∧ t.jobs.maxJobID = largest t.ids ∧
      ∀ q ∈ s.objs, t.entry q = s.entry q ∧ q ∈ t.objs := by
  obtain ⟨hptr, ht⟩ := addJob_eq ht
  have hjobs : t.jobs.jobsList = s.jobs.jobsList ++ [a.ptr] := by rw [ht]
  have hobjs : t.objs = a.ptr :: s.objs := by rw [ht]
  have hkeep : ∀ q ∈ s.objs, t.entry q = s.entry q := fun q hq => by
    rw [ht]
    exact update_of_mem hq hptr
  have hid : ∀ q ∈ s.jobs.jobsList, (t.entry q).jobId = (s.entry q).jobId :=
    fun q hq => by rw [hkeep q (h.made q hq)]
  have hnew : (t.entry a.ptr).jobId = largest s.ids + 1 := by
    rw [ht, ← hmax]
    simp
  have hids : t.ids = s.ids ++ [largest s.ids + 1] := hnew ▸ ids_append hjobs hid
  have hmem : ∀ q ∈ s.objs, q ∈ t.objs := fun q hq => by
    rw [hobjs]
    exact List.mem_cons_of_mem _ hq
  obtain ⟨hfresh, hpos⟩ := largest_succ s.ids
  refine ⟨h.append hjobs hid (by rw [hobjs]; exact List.mem_cons_self) hmem (hnew ▸ hfresh) (hnew ▸ hpos),
    hids, ?_, fun q hq => ⟨hkeep q hq, hmem q hq⟩⟩
  rw [hids, largest_append, max_eq_right (by omega), ht, hmax]

theorem Listed.addJob_old (h : Listed s) {job : Ptr} (hobj : job ∈ s.objs)
    (hpos : 0 < (s.entry job).jobId) (hjobs : t.jobs = s.jobs.addJob s.entry job)
    (hid : ∀ p, (t.entry p).jobId = (s.entry p).jobId) (hobjs : t.objs = s.objs) : Listed t := by
  unfold JobsList.addJob at hjobs
  split at hjobs
  next hnone =>
    refine h.append (p := job) (by rw [hjobs]) (fun q _ => hid q) (hobjs ▸ hobj)
      (fun q hq => hobjs ▸ hq) ?_ ?_
    · intro hmem
      rw [hid] at hmem
      obtain ⟨q, hq, heq⟩ := List.mem_map.mp hmem
      have hne := List.find?_eq_none.mp hnone q hq
      exact hne (decide_eq_true heq)
    · rw [hid]
      exact hpos
  next => exact h.mono (by rw [hjobs]) hid hobjs

theorem eraseP_subperm (l : List Ptr) (sel : Ptr → Bool) : (l.eraseP sel).Subperm l :=
  (List.eraseP_sublist).subperm

theorem mem_of_getJobById {J : JobsList} {e : Entries} {jobId : ℤ} {job : Ptr}
    (h : J.getJobById e jobId = some job) : job ∈ J.jobsList ∧ (e job).jobId = jobId := by
  unfold JobsList.getJobById at h
  refine ⟨List.mem_of_find?_eq_some h, ?_⟩
  simpa using List.find?_some h

theorem Listed.ne_of_new (h : Listed s) {p q : Ptr} (hp : p ∉ s.objs) (hq : q ∈ s.jobs.jobsList) :
    q ≠ p := by
  rintro rfl
  exact hp (h.made _ hq)

theorem Listed.jobId_pos (h : Listed s) {job : Ptr} (hjob : job ∈ s.jobs.jobsList) :
    0 < (s.entry job).jobId :=
  h.pos _ (List.mem_map.mpr ⟨job, hjob, rfl⟩)

theorem IdInv.busy (h : IdInv s) {job : Ptr} (hcur : s.current = some job) : s.pc.idle = false := by
  by_contra hidle
  have hnone := h.idle (by simpa using hidle)
  rw [hcur] at hnone
  cases hnone

/-- Ctrl-Z gives a real id to the job of an external command. -/
theorem IdInv.stopNew {a : Answer} {job : Ptr} {procs : Procs} {err : List String} {pid : Pid}
    {cmdLine : List Char} (h : IdInv s) (hcur : s.current = some job) (hid : (s.entry job).jobId = -1)
    (ht : { s with entry := setJobStatus s.entry job .stopped, procs := procs, stderr := err }.addJob a
      pid .stopped cmdLine = some t) : IdInv t := by
  obtain ⟨hobj, hpos | ⟨-, hmax⟩⟩ := h.foreground job hcur
  · omega
  generalize hv : { s with entry := setJobStatus s.entry job .stopped, procs := procs, stderr := err } = v
    at ht
  have hids : v.ids = s.ids := by
    rw [← hv]
    exact List.map_congr_left fun p _ => setJobStatus_jobId ..
  have hlv : Listed v := by
    rw [← hv]
    exact h.toListed.mono (.refl _) (fun p => setJobStatus_jobId ..) rfl
  have hmaxv : v.jobs.maxJobID = largest v.ids := by
    rw [hids, ← hmax, ← hv]
  obtain ⟨hl, -, hmaxt, hkeep⟩ := hlv.addJob hmaxv ht
  obtain ⟨hjob, hobjt⟩ := hkeep job (by rw [← hv]; exact hobj)
  obtain ⟨-, ht⟩ := addJob_eq ht
  have hpc : t.pc = s.pc := by rw [ht, ← hv]
  have hidt : (t.entry job).jobId = -1 := by rw [hjob, ← hv, setJobStatus_jobId, hid]
  refine .of_current hl (by rw [ht, ← hv]; exact hcur) (hpc ▸ h.busy hcur) hobjt
    (.inr ⟨?_, hidt, hmaxt⟩)
  -- before its job is removed, `fg` has a job with a positive id
  by_contra hres
  have hpos := h.resumed (by rw [← hpc]; simpa using hres) job hcur
  omega

/-- **Every step keeps the invariant.** -/
theorem IdInv.step {l : Act} (h : IdInv s) (hst : Step s l t) : IdInv t := by
  have hself : s.jobs.jobsList.Subperm s.jobs.jobsList := .refl _
  cases hst.moves with
  | line c hpc =>
    refine .of_idle (h.toListed.mono hself (fun _ => rfl) rfl) (h.idle (by rw [hpc]; rfl)) ?_
    intro hall
    cases hk : c.kind.sweeps <;> simp [hk, Pc.allocates] at hall
  | reap a c pid hpc hz =>
    exact .of_idle (h.toListed.mono hself (fun _ => rfl) rfl) (h.idle (by rw [hpc]; rfl)) nofun
  | swept a c hpc =>
    exact .of_idle (h.toListed.mono hself (fun _ => rfl) rfl) (h.idle (by rw [hpc]; rfl)) nofun
  | remove a c pid hpc =>
    refine .of_idle (h.toListed.mono ?_ (fun _ => rfl) rfl) (h.idle (by rw [hpc]; rfl)) nofun
    rw [JobsList.removeJobByPid, JobsList.removeFirst_jobsList]
    exact eraseP_subperm _ _
  | scan a c hpc =>
    exact .of_idle (h.toListed.mono (List.filter_sublist).subperm (fun _ => rfl) rfl)
      (h.idle (by rw [hpc]; rfl)) fun _ => rfl
  | settle a _ hpc hpc' hs =>
    have hidle : s.pc.idle := by
      obtain ⟨c, hc | hc⟩ := hpc <;> rw [hc] <;> rfl
    refine .of_idle (h.toListed.mono hs.jobs.subperm hs.jobId hs.objs) (hs.current ▸ h.idle hidle) ?_
    intro hall
    rcases hpc' with hpc' | hpc' <;> rw [hpc'] at hall <;> cases hall
  | publish a c jobId job hpc hk hjob =>
    obtain ⟨hmem, -⟩ := mem_of_getJobById hjob
    have hpos := h.jobId_pos hmem
    exact .of_current (h.toListed.mono hself (fun p => setJobStatus_jobId ..) rfl) rfl rfl
      (h.made job hmem) (.inl (by simpa using hpos))
  | fork a c pid hpc hchild hpid hk hb =>
    exact .of_idle (h.toListed.mono hself (fun _ => rfl) rfl) (h.idle (by rw [hpc]; rfl))
      fun _ => h.known (by rw [hpc]; rfl)
  | forkBackground a c pid hpc hchild hpid hk =>
    exact .of_idle (h.toListed.mono hself (fun _ => rfl) rfl) (h.idle (by rw [hpc]; rfl))
      fun _ => h.known (by rw [hpc]; rfl)
  | forkPipe a c pid hpc hchild hpid hk =>
    exact .of_idle (h.toListed.mono hself (fun _ => rfl) rfl) (h.idle (by rw [hpc]; rfl))
      fun _ => h.known (by rw [hpc]; rfl)
  | forkPipe2 a c pid hpc hchild hpid =>
    exact .of_idle (h.toListed.mono hself (fun _ => rfl) rfl) (h.idle (by rw [hpc]; rfl))
      fun _ => h.known (by rw [hpc]; rfl)
  | add a c pid st u hpc hu =>
    have hknown := h.known (by rw [hpc]; rfl)
    obtain ⟨hl, hids, hmax, -⟩ := h.toListed.addJob hknown hu
    obtain ⟨-, hu⟩ := addJob_eq hu
    have hcur : u.current = none := by
      rw [hu]
      exact h.idle (by rw [hpc]; rfl)
    split
    next =>
      -- a pipe publishes the job it has added
      have hmem : a.ptr ∈ u.jobs.jobsList := by simp [hu]
      exact .of_current ⟨hl.made, hl.nodup, hl.pos⟩ rfl rfl (hl.made _ hmem) (.inl (hl.jobId_pos hmem))
    next => exact .of_idle ⟨hl.made, hl.nodup, hl.pos⟩ hcur nofun
  | foreground a c pid u hpc hu =>
    have hknown := h.known (by rw [hpc]; rfl)
    obtain ⟨hptr, hu⟩ := newEntry_eq hu
    have hkeep : ∀ q ∈ s.jobs.jobsList, u.entry q = s.entry q := fun q hq => by
      rw [hu]
      exact update_of_mem (h.made q hq) hptr
    have hjobs : u.jobs = s.jobs := by rw [hu]
    have hids : u.ids = s.ids := by
      unfold Shell.ids Smash.ids
      rw [hjobs]
      exact List.map_congr_left fun q hq => by rw [hkeep q hq]
    have hl : Listed u := by
      refine ⟨fun p hp => ?_, hids ▸ h.nodup, hids ▸ h.pos⟩
      rw [show u.objs = a.ptr :: s.objs by rw [hu]]
      exact List.mem_cons_of_mem _ (h.made p (hjobs ▸ hp))
    have hmax : u.jobs.maxJobID = largest u.ids := by rw [hids, hjobs, hknown]
    exact .of_current ⟨hl.made, hl.nodup, hl.pos⟩ rfl rfl (by simp [hu]) (.inr ⟨rfl, by simp [hu], hmax⟩)
  | fgCont a c jobId pid err hpc =>
    exact h.of_busy rfl (fun _ => rfl) rfl rfl (.inr rfl) fun _ => by rw [hpc]; rfl
  | fgRemove a c jobId pid hpc =>
    refine IdInv.mk (h.toListed.mono ?_ (fun _ => rfl) rfl) nofun nofun nofun ?_
    · rw [JobsList.removeJobById, JobsList.removeFirst_jobsList]
      exact eraseP_subperm _ _
    · intro job hjob
      exact ⟨(h.foreground job hjob).1, .inl (h.resumed (by rw [hpc]; rfl) job hjob)⟩
  | waitReap a c pid hpc hz => exact h.of_busy rfl (fun _ => rfl) rfl rfl (.inr rfl) nofun
  | waitStop a c pid hpc hl => exact h.of_busy rfl (fun _ => rfl) rfl rfl (.inr rfl) nofun
  | waitFail a c pid err hpc hl => exact h.of_busy rfl (fun _ => rfl) rfl rfl (.inr rfl) nofun
  | clear a c pid hpc => exact .of_idle (h.toListed.mono hself (fun _ => rfl) rfl) rfl nofun
  | ignoreZ a hcur => exact h
  | ignoreC hcur => exact h
  | stopNew a job err u hcur hid hu => exact h.stopNew hcur hid hu
  | stopOld a job err hcur hid =>
    obtain ⟨hobj, hpos | ⟨hneg, -⟩⟩ := h.foreground job hcur
    · exact .of_current (h.toListed.addJob_old hobj hpos rfl (fun p => setJobStatus_jobId ..) rfl) hcur
        (h.busy hcur) hobj (.inl (by simpa using hpos))
    · exact absurd hneg hid
  | kill job err hcur =>
    exact h.of_busy rfl (fun p => setJobStatus_jobId ..) rfl rfl (.inl rfl) id
  | exit pid hmem => exact h.of_busy rfl (fun _ => rfl) rfl rfl (.inl rfl) id
  | stop pid hmem => exact h.of_busy rfl (fun _ => rfl) rfl rfl (.inl rfl) id
  | cont pid hmem => exact h.of_busy rfl (fun _ => rfl) rfl rfl (.inl rfl) id

end Moves

theorem idInv_start (maxJobID : ℤ) (entry : Entries) : IdInv (start maxJobID entry) :=
  .of_idle ⟨nofun, List.nodup_nil, nofun⟩ rfl nofun

theorem IdInv.of_run {maxJobID : ℤ} {entry : Entries} {ls : List Act} {s : Shell}
    (h : Run Step (start maxJobID entry) ls s) : IdInv s :=
  h.invariant (idInv_start maxJobID entry) fun _ _ _ hi hst => hi.step hst

/-- **Job identifiers.** In every run the ids in the jobs list are distinct and positive, and the id that a
command gets from `addJob(pid, status, cmd_line)` is one more than the largest. -/
theorem ids_distinct_and_next {maxJobID : ℤ} {entry : Entries} {ls : List Act} {s : Shell}
    (h : Run Step (start maxJobID entry) ls s) :
    s.ids.Nodup ∧ (∀ i ∈ s.ids, 0 < i) ∧
      ∀ c pid st a t, s.pc = .add c pid st → Step s (.shell a) t →
        t.jobs.jobsList = s.jobs.jobsList ++ [a.ptr] ∧
          (t.entry a.ptr).jobId = largest s.ids + 1 ∧ (t.entry a.ptr).jobProcessId = pid := by
  have hinv := IdInv.of_run h
  refine ⟨hinv.nodup, hinv.pos, fun c pid st a t hpc hst => ?_⟩
  have hmax := hinv.known (by rw [hpc]; rfl)
  cases hst.moves with
  | add a c' pid' st' u hpc' hu =>
    obtain ⟨rfl, rfl, rfl⟩ := Pc.add.inj (hpc.symm.trans hpc')
    obtain ⟨-, rfl⟩ := addJob_eq hu
    rw [← hmax]
    split <;> simp [Shell.done]
  | _ => simp_all

/-- `sleep 9`, in the background or not. -/
def sleepCmd (isBackground : Bool) : Cmd where
  kind := .external
  argv := [['s', 'l', 'e', 'e', 'p'], ['9']]
  isBackground := isBackground
  cmdLine := ['s', 'l', 'e', 'e', 'p', ' ', '9'] ++ if isBackground then ['&'] else []

/-- No child has ended; the next child has the number `n`, and so has the next object. -/
def quietAnswer (n : ℕ) : Answer := ⟨none, some n, n, 0, 0⟩

/-- A shell that starts with `maxJobID` at 7. -/
def sevenShell : Shell := start 7 fun _ => ⟨0, 0, .finished, [], 0⟩

/-- `sleep 9&` twice, up to the second `addJob`. -/
def twoSleeps : List Act :=
  [.line (sleepCmd true), .shell (quietAnswer 1), .shell (quietAnswer 1), .shell (quietAnswer 1),
    .shell (quietAnswer 1), .line (sleepCmd true), .shell (quietAnswer 2), .shell (quietAnswer 2),
    .shell (quietAnswer 2)]

theorem ids_distinct_and_next_twoSleeps :
    ∃ s t, Run Step sevenShell twoSleeps s ∧ s.ids = [1] ∧ s.pc = .add (sleepCmd true) 2 .background ∧
      Step s (.shell (quietAnswer 2)) t ∧ (t.entry 2).jobId = 2 := by
  have hs : ((exec step sevenShell twoSleeps).map fun s => (s.ids, s.pc)) =
      some ([1], .add (sleepCmd true) 2 .background) := by decide
  obtain ⟨s, hrun, heq⟩ := Option.map_eq_some_iff.mp hs
  obtain ⟨hids, hpc⟩ := Prod.mk.inj heq
  have ht : ((exec step sevenShell twoSleeps).bind (step · (.shell (quietAnswer 2)))).isSome := by decide
  rw [hrun] at ht
  obtain ⟨t, ht : Step s (.shell (quietAnswer 2)) t⟩ := Option.isSome_iff_exists.mp ht
  have hnext := (ids_distinct_and_next (Run.of_exec hrun)).2.2 _ _ _ _ _ hpc ht
  refine ⟨s, t, Run.of_exec hrun, hids, hpc, ht, ?_⟩
  have hid := hnext.2.1
  rw [hids] at hid
  exact hid

end OsHomework.Smash
