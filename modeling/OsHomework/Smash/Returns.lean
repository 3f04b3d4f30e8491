import Mathlib.Data.Fintype.EquivFin
import OsHomework.Lib.Ending
import OsHomework.Smash.Ids

/-!
# The shell comes back to its prompt

What the shell does between two lines is bounded, whatever the signals and the children do in between.

* `Pc.due`, `Shell.due`: a potential. A line pays 11 into it, and every step of the shell takes one out:
  a child costs two steps when `removeFinishedJobs` reaps it, and the line that starts it pays for them;
* **`Moves.due`**: no other step raises it: signals and children leave it as it is;
* **`shell_steps_le`**: the steps of the shell in a run, counted;
* `Awake`: the shell does not wait for a child whose stop has been reported;
* **`shell_can_step`**: it goes on, unless it is `Shell.Home` or waits for a child that runs;
* `HomeStep`: a step of the shell, or the end of the child it waits for; **`comes_home`**: every schedule of them ends,
  and it ends at home.
-/

set_option autoImplicit false

namespace OsHomework.Smash

/-! ## The children, counted -/

namespace Procs

variable (t : Procs) {u : Procs} {pid : Pid} {st : Proc}

/-- The number of the children that have not been reaped. -/
def count : ℕ := t.keys.length

theorem count_congr (h : ∀ q, q ∈ t ↔ q ∈ u) : t.count = u.count := by
  apply List.Perm.length_eq
  rw [List.perm_ext_iff_of_nodup t.keys_nodup u.keys_nodup]
  exact fun q => h q

theorem count_insert (h : pid ∉ t) : Procs.count (t.insert pid st) = t.count + 1 := by
  have hkeys : pid ∉ t.keys := h
  rw [count, AList.keys_insert, List.erase_of_not_mem hkeys, List.length_cons]
  rfl

theorem count_update (h : pid ∈ t) : Procs.count (t.insert pid st) = t.count := by
  apply count_congr
  intro q
  rw [AList.mem_insert]
  exact ⟨fun hq => hq.elim (fun e => e ▸ h) id, .inr⟩

theorem count_erase (h : pid ∈ t) : Procs.count (t.erase pid) + 1 = t.count := by
  have hkeys : pid ∈ t.keys := h
  have hpos : 0 < t.keys.length := List.length_pos_of_mem hkeys
  rw [count, AList.keys_erase, List.length_erase_of_mem hkeys, count]
  omega

end Procs

/-! ## The potential -/

/-- What the shell has to do before it is back at the prompt, the children not counted. -/
def Pc.due : Pc → ℕ
  | .prompt | .exited => 0
  | .clear _ _ => 1
  | .wait _ _ => 2
  | .add _ _ _ | .foreground _ _ | .fgRemove _ _ _ => 3
  | .fgCont _ _ _ => 4
  | .fork2 _ => 6
  | .body _ => 9
  | .scan _ => 10
  | .sweep _ => 11
  | .reaped _ _ => 12

/-- The potential: two steps for every child, and what the shell is about to do. -/
def Shell.due (s : Shell) : ℕ := 2 * s.procs.count + s.pc.due

theorem Pc.due_le (pc : Pc) : pc.due ≤ 12 := by
  cases pc <;> simp [Pc.due]

def Act.isShell : Act → Bool
  | .shell _ => true
  | _ => false

def Act.isLine : Act → Bool
  | .line _ => true
  | _ => false

section Due

variable {s t : Shell} {l : Act}

theorem Procs.mem_of_lookup {t : Procs} {pid : Pid} {st : Proc} (h : t.lookup pid = some st) : pid ∈ t :=
  AList.lookup_isSome.mp (by simp [h])

theorem Procs.count_sent (t : Procs) (pid : Pid) (sig : ℤ) : (t.sent pid sig).count = t.count :=
  Procs.count_congr _ (Procs.mem_sent t pid sig)

/-- A step of the shell lowers the potential, if it does so for the point before and after. -/
theorem due_of_shell {a : Answer} {n : ℕ} {pc pc' : Pc} (hpc : s.pc = pc) (hn : t.procs.count = n)
    (hpc' : t.pc = pc') (h : 2 * n + pc'.due < 2 * s.procs.count + pc.due) :
    (Act.shell a).isShell.toNat + t.due ≤ s.due + 11 * (Act.shell a).isLine.toNat := by
  subst hn hpc hpc'
  change 1 + (2 * t.procs.count + t.pc.due) ≤ 2 * s.procs.count + s.pc.due + 11 * 0
  omega

/-- **What a step does to the potential.** -/
theorem Moves.due (h : Moves s l t) : l.isShell.toNat + t.due ≤ s.due + 11 * l.isLine.toNat := by
  -- the signals and the children leave the point and the number of children as they are
  have hkeep : ∀ u : Shell, u.pc = s.pc → u.procs.count = s.procs.count → 0 + u.due ≤ s.due + 11 * 0 := by
    intro u hpc hprocs
    rw [Shell.due, Shell.due, hpc, hprocs]
    omega
  cases h with
  | line c hpc =>
    change 0 + (2 * s.procs.count + Pc.due _) ≤ (2 * s.procs.count + s.pc.due) + 11 * 1
    rw [hpc]
    split <;> simp only [Pc.due] <;> omega
  | reap a c pid hpc hz =>
    have hcount := s.procs.count_erase (Procs.mem_of_lookup hz)
    exact due_of_shell hpc rfl rfl (by simp only [Shell.reap, Pc.due]; omega)
  | swept a c hpc => exact due_of_shell hpc rfl rfl (by simp [Pc.due])
  | remove a c pid hpc => exact due_of_shell hpc rfl rfl (by simp [Pc.due])
  | scan a c hpc => exact due_of_shell hpc rfl rfl (by simp [Pc.due])
  | settle a t hpc hpc' hset =>
    have hcount : t.procs.count = s.procs.count := Procs.count_congr _ hset.procs
    obtain ⟨c, hpc | hpc⟩ := hpc <;> obtain hpc' | hpc' := hpc' <;>
      exact due_of_shell hpc hcount hpc' (by simp [Pc.due])
  | publish a c jobId job hpc _ _ => exact due_of_shell hpc rfl rfl (by simp [Pc.due])
  | fork a c pid hpc _ hnew _ _ =>
    exact due_of_shell hpc (s.procs.count_insert hnew) rfl (by simp only [Pc.due]; omega)
  | forkBackground a c pid hpc _ hnew _ =>
    exact due_of_shell hpc (s.procs.count_insert hnew) rfl (by simp only [Pc.due]; omega)
  | forkPipe a c pid hpc _ hnew _ =>
    exact due_of_shell hpc (s.procs.count_insert hnew) rfl (by simp only [Pc.due]; omega)
  | forkPipe2 a c pid hpc _ hnew =>
    exact due_of_shell hpc (s.procs.count_insert hnew) rfl (by simp only [Pc.due]; omega)
  | add a c pid st u hpc hu =>
    obtain ⟨-, rfl⟩ := addJob_eq hu
    split
    next => exact due_of_shell hpc rfl rfl (by simp [Pc.due])
    next => exact due_of_shell hpc rfl rfl (by simp [Pc.due, Shell.done])
  | foreground a c pid u hpc hu =>
    obtain ⟨-, rfl⟩ := newEntry_eq hu
    exact due_of_shell hpc rfl rfl (by simp [Pc.due])
  | fgCont a c jobId pid err hpc =>
    exact due_of_shell hpc (s.procs.count_sent pid sigCont) rfl (by simp [Pc.due])
  | fgRemove a c jobId pid hpc => exact due_of_shell hpc rfl rfl (by simp [Pc.due])
  | waitReap a c pid hpc hz =>
    have hcount := s.procs.count_erase (Procs.mem_of_lookup hz)
    exact due_of_shell hpc rfl rfl (by simp only [Shell.reap, Pc.due]; omega)
  | waitStop a c pid hpc hstop =>
    exact due_of_shell hpc (s.procs.count_update (Procs.mem_of_lookup hstop)) rfl (by simp [Pc.due])
  | waitFail a c pid err hpc _ => exact due_of_shell hpc rfl rfl (by simp [Pc.due])
  | clear a c pid hpc => exact due_of_shell hpc rfl rfl (by simp [Pc.due])
  | ignoreZ a _ => exact hkeep _ rfl rfl
  | ignoreC _ => exact hkeep _ rfl rfl
  | stopNew a job err u _ _ hu =>
    obtain ⟨-, rfl⟩ := addJob_eq hu
    exact hkeep _ rfl (s.procs.count_sent _ _)
  | stopOld a job err _ _ => exact hkeep _ rfl (s.procs.count_sent _ _)
  | kill job err _ => exact hkeep _ rfl (s.procs.count_sent _ _)
  | exit pid hpid => exact hkeep _ rfl (s.procs.count_update hpid)
  | stop pid hpid => exact hkeep _ rfl (s.procs.count_update hpid)
  | cont pid hpid => exact hkeep _ rfl (s.procs.count_update hpid)

end Due

/-- **The steps of the shell, counted.** In a run of the shell, its children and the signals there are at most 11
steps of the shell for every line read; and from a state reached, with no line, at most two for every child that has
not been reaped, and 12. -/
theorem shell_steps_le {maxJobID : ℤ} {entry : Entries} {ls : List Act} {s : Shell}
    (h : Run Step (start maxJobID entry) ls s) :
    ls.countP Act.isShell ≤ 11 * ls.countP Act.isLine ∧
      ∀ ls' t, Run Step s ls' t → ls'.countP Act.isLine = 0 →
        ls'.countP Act.isShell ≤ 2 * s.procs.keys.length + 12 := by
  have hdue : ∀ (s : Shell) (l : Act) (t : Shell), Step s l t →
      l.isShell.toNat + t.due ≤ s.due + 11 * l.isLine.toNat := fun _ _ _ hl => hl.moves.due
  constructor
  · have hle := h.countP_add_le hdue
    have hstart : (start maxJobID entry).due = 0 := rfl
    omega
  · intro ls' t h' hno
    have hle := h'.countP_add_le hdue
    have hpc := s.pc.due_le
    have hs : s.due = 2 * s.procs.keys.length + s.pc.due := rfl
    omega

/-- Two jobs in the background: at most 16 steps follow before the next line. -/
theorem shell_steps_le_twoSleeps : ∃ s, Run Step sevenShell twoSleeps s ∧ ∀ ls t, Run Step s ls t →
    ls.countP Act.isLine = 0 → ls.countP Act.isShell ≤ 16 := by
  obtain ⟨s, hs, hkeys⟩ : ∃ s, exec step sevenShell twoSleeps = some s ∧ s.procs.keys.length = 2 := ⟨_, rfl, rfl⟩
  refine ⟨s, Run.of_exec hs, ?_⟩
  simpa [hkeys] using (shell_steps_le (Run.of_exec hs)).2

/-! ## Where the shell waits -/

/-- The child that the shell waits for, or has started or resumed to wait for. -/
def Pc.awaits : Pc → Option Pid
  | .add _ pid _ | .foreground _ pid | .fgRemove _ _ pid | .wait _ pid => some pid
  | _ => none

/-- No stop of this child has been reported. -/
def Awake (s : Shell) : Prop := ∀ pid, s.pc.awaits = some pid → s.procs.lookup pid ≠ some (.stopped true)

section Awake

variable {s t : Shell} {l : Act}

theorem Proc.stopped_of_receive {st : Proc} {sig : ℤ} (h : st.receive sig = .stopped true) : st = .stopped true := by
  cases st with
  | zombie => cases h
  | running =>
    simp only [Proc.receive] at h
    split_ifs at h
    simp at h
  | stopped r =>
    simp only [Proc.receive] at h
    split_ifs at h
    exact h

theorem Procs.stopped_of_sent {t : Procs} {pid q : Pid} {sig : ℤ}
    (h : (t.sent pid sig).lookup q = some (.stopped true)) : t.lookup q = some (.stopped true) := by
  unfold Procs.sent at h
  cases hk : t.kill pid sig with
  | none => simpa [hk] using h
  | some u =>
    rw [hk, Option.getD_some, Procs.lookup_kill hk] at h
    split_ifs at h
    · obtain ⟨st, hst, hrec⟩ := Option.map_eq_some_iff.mp h
      rw [hst, Proc.stopped_of_receive hrec]
    · exact h

theorem Procs.stopped_of_insert {t : Procs} {pid q : Pid} {st : Proc} (hst : st ≠ .stopped true)
    (h : (t.insert pid st).lookup q = some (.stopped true)) : t.lookup q = some (.stopped true) := by
  by_cases hq : q = pid
  · subst hq
    rw [AList.lookup_insert] at h
    exact absurd (Option.some.inj h) hst
  · rwa [AList.lookup_insert_ne hq] at h

theorem Awake.mono (h : Awake s) (hpc : t.pc.awaits = s.pc.awaits)
    (hprocs : ∀ pid, t.procs.lookup pid = some (.stopped true) → s.procs.lookup pid = some (.stopped true)) :
    Awake t :=
  fun pid hpid hstop => h pid (hpc ▸ hpid) (hprocs pid hstop)

theorem Awake.of_none (h : t.pc.awaits = none) : Awake t := by
  intro pid hpid
  rw [h] at hpid
  cases hpid

theorem Awake.of_fork {pid : Pid} {pc : Pc} (h : pc.awaits = some pid) :
    Awake { s with procs := s.procs.insert pid .running, pc := pc } := by
  intro q hq
  obtain rfl : pid = q := Option.some.inj (h.symm.trans hq)
  simp

/-- **The shell does not fall asleep**: no step makes it wait for a child whose stop has been reported. -/
theorem Awake.step (h : Awake s) (hl : Step s l t) : Awake t := by
  cases hl.moves with
  | line c _ => exact .of_none (by dsimp only; split <;> rfl)
  | reap | swept | remove | scan | publish | waitReap | waitStop | waitFail | clear => exact .of_none rfl
  | settle a t _ hpc => exact .of_none (by obtain hpc | hpc := hpc <;> rw [hpc] <;> rfl)
  | forkPipe => exact .of_none rfl
  | fork | forkBackground | forkPipe2 => exact .of_fork rfl
  | add a c pid st u hpc hu =>
    obtain ⟨-, rfl⟩ := addJob_eq hu
    split
    next => exact h.mono (by rw [hpc]; rfl) fun _ => id
    next => exact .of_none rfl
  | foreground a c pid u hpc hu =>
    obtain ⟨-, rfl⟩ := newEntry_eq hu
    exact h.mono (by rw [hpc]; rfl) fun _ => id
  | fgCont a c jobId pid err hpc =>
    -- SIGCONT ends the stop
    intro q hq
    obtain rfl : pid = q := Option.some.inj hq
    rw [Procs.lookup_sent _ _ (by decide), if_pos rfl]
    cases s.procs.lookup pid with
    | none => simp
    | some st => cases st <;> simp [Proc.receive, sigCont, sigKill, sigStop]
  | fgRemove a c jobId pid hpc => exact h.mono (by rw [hpc]; rfl) fun _ => id
  | ignoreZ | ignoreC => exact h
  | stopNew a job err u _ _ hu =>
    obtain ⟨-, rfl⟩ := addJob_eq hu
    exact h.mono rfl fun _ => Procs.stopped_of_sent
  | stopOld | kill => exact h.mono rfl fun _ => Procs.stopped_of_sent
  | exit | stop | cont => exact h.mono rfl fun _ => Procs.stopped_of_insert (by decide)

theorem awake_of_run {maxJobID : ℤ} {entry : Entries} {ls : List Act} (h : Run Step (start maxJobID entry) ls s) :
    Awake s :=
  h.invariant (.of_none rfl) fun _ _ _ hi hl => hi.step hl

end Awake

/-- The shell is at the prompt or has ended, or the next id is not an `int`. -/
def Shell.Home (s : Shell) : Prop :=
  s.pc = .prompt ∨ s.pc = .exited ∨ ∃ c pid st, s.pc = .add c pid st ∧ intMax ≤ s.jobs.maxJobID

section CanStep

variable {s : Shell} {c : Cmd}

theorem exists_newEntry (s : Shell) (jobId : ℤ) (pid : Pid) (st : Status) (cmdLine : List Char) :
    ∃ a t, s.newEntry a jobId pid st cmdLine = some t := by
  obtain ⟨p, hp⟩ := Infinite.exists_notMem_finset s.objs.toFinset
  exact ⟨⟨none, none, p, 0, 0⟩, _, if_neg (by simpa using hp)⟩

theorem exists_body (s : Shell) (c : Cmd) : ∃ a t, s.body c a = some t := by
  refine ⟨⟨none, none, 0, 0, 0⟩, ?_⟩
  have hfork : ∀ next, ∃ t, s.fork ⟨none, none, 0, 0, 0⟩ next = some t := fun _ => ⟨_, rfl⟩
  unfold Shell.body
  split
  next => exact ⟨_, rfl⟩
  next => exact ⟨_, rfl⟩
  next => exact ⟨_, rfl⟩
  next => exact ⟨_, rfl⟩
  next => exact ⟨_, rfl⟩
  next => exact hfork _
  next =>
    split
    next => exact ⟨_, rfl⟩
    next => exact hfork _
  next =>
    split
    next => exact ⟨_, rfl⟩
    next => exact hfork _
  next => exact ⟨_, rfl⟩

/-- `waitpid(-1, NULL, WNOHANG)` returns, with a child that has ended if there is one. -/
theorem exists_sweep (hpc : s.pc = .sweep c) : ∃ a t, s.shellStep a = some t := by
  unfold Shell.shellStep
  rw [hpc]
  by_cases hall : s.procs.entries.all fun x => x.2 ≠ .zombie
  · exact ⟨⟨none, none, 0, 0, 0⟩, _, if_pos hall⟩
  · rw [List.all_eq_true] at hall
    push Not at hall
    obtain ⟨⟨pid, st⟩, hmem, hst⟩ := hall
    have hlook : s.procs.lookup pid = some .zombie := by
      rw [AList.mem_lookup_iff.mpr hmem]
      simpa using hst
    exact ⟨⟨some pid, none, 0, 0, 0⟩, _, if_pos hlook⟩

/-- **The shell goes on**, unless it is home or waits for a child that runs. -/
theorem shell_can_step (h : Awake s) (hhome : ¬ s.Home)
    (hwait : ∀ c pid, s.pc = .wait c pid → s.procs.lookup pid ≠ some .running) :
    ∃ a t, s.shellStep a = some t := by
  cases hpc : s.pc with
  | prompt => exact absurd (.inl hpc) hhome
  | exited => exact absurd (.inr (.inl hpc)) hhome
  | sweep c => exact exists_sweep hpc
  | body c =>
    obtain ⟨a, t, ht⟩ := exists_body s c
    exact ⟨a, t, by simpa only [Shell.shellStep, hpc] using ht⟩
  | add c pid st =>
    have hlt : s.jobs.maxJobID < intMax := by
      by_contra hge
      exact hhome (.inr (.inr ⟨c, pid, st, hpc, not_lt.mp hge⟩))
    obtain ⟨a, t, ht⟩ := exists_newEntry s (s.jobs.maxJobID + 1) pid st c.cmdLine
    simp only [Shell.shellStep, hpc, Shell.addJob, if_pos hlt]
    exact ⟨a, by rw [ht]; exact ⟨_, rfl⟩⟩
  | foreground c pid =>
    obtain ⟨a, t, ht⟩ := exists_newEntry s (-1) pid .foreground c.cmdLine
    simp only [Shell.shellStep, hpc]
    exact ⟨a, by rw [ht]; exact ⟨_, rfl⟩⟩
  | wait c pid =>
    have hstop : s.procs.lookup pid ≠ some (.stopped true) := h pid (by rw [hpc]; rfl)
    have hrun := hwait c pid hpc
    refine ⟨⟨none, none, 0, 0, 0⟩, ?_⟩
    simp only [Shell.shellStep, hpc, Shell.waitpid]
    split
    next => exact ⟨_, rfl⟩
    next => exact ⟨_, rfl⟩
    next => exact ⟨_, rfl⟩
    next hlook => exact absurd hlook hstop
    next hlook => exact absurd hlook hrun
  | scan c => exact ⟨⟨none, none, 0, 0, 0⟩, _, by simp only [Shell.shellStep, hpc, scanLoop_spec]; rfl⟩
  | _ => exact ⟨⟨none, none, 0, 0, 0⟩, _, by simp only [Shell.shellStep, hpc]; rfl⟩

end CanStep

/-! ## The way home -/

/-- A step of the shell, or the end of the child that it waits for. -/
inductive HomeStep (s : Shell) : Act → Shell → Prop
  | shell {a : Answer} {t : Shell} : Step s (.shell a) t → HomeStep s (.shell a) t
  | exit {c : Cmd} {pid : Pid} {t : Shell} : s.pc = .wait c pid → Step s (.exit pid) t → HomeStep s (.exit pid) t

/-- 1 if the shell waits for a child that has not ended. -/
def Shell.unended (s : Shell) : ℕ :=
  match s.pc with
  | .wait _ pid => if s.procs.lookup pid = some .zombie then 0 else 1
  | _ => 0

section Home

variable {s t : Shell} {l : Act}

theorem Shell.unended_le (s : Shell) : s.unended ≤ 1 := by
  unfold Shell.unended
  split
  next => split <;> omega
  next => omega

theorem HomeStep.step (h : HomeStep s l t) : Step s l t := by
  cases h with
  | shell h => exact h
  | exit _ h => exact h

/-- Every step leads nearer. -/
theorem HomeStep.nearer (h : HomeStep s l t) : 2 * t.due + t.unended < 2 * s.due + s.unended := by
  have hdue := h.step.moves.due
  cases h with
  | shell h =>
    have hlt : 1 + t.due ≤ s.due + 11 * 0 := hdue
    have := t.unended_le
    omega
  | @exit c pid _ hpc h =>
    have hle : 0 + t.due ≤ s.due + 11 * 0 := hdue
    obtain ⟨st', hst', rfl⟩ := Option.map_eq_some_iff.mp h
    obtain ⟨st, hst, hf⟩ := Option.bind_eq_some_iff.mp hst'
    split_ifs at hf with hz
    obtain rfl := Option.some.inj hf
    have hs : s.unended = 1 := by simp [Shell.unended, hpc, hst, hz]
    have ht : Shell.unended { s with procs := s.procs.insert pid .zombie } = 0 := by simp [Shell.unended, hpc]
    omega

theorem Awake.home (h : Awake s) (hfinal : Final HomeStep s) : s.Home := by
  by_contra hhome
  obtain ⟨a, t, ht⟩ := shell_can_step h hhome fun c pid hpc hrun =>
    hfinal (.exit pid) { s with procs := s.procs.insert pid .zombie }
      (.exit hpc (by simp [Step, Smash.step, Shell.childStep, hrun]))
  exact hfinal (.shell a) t (.shell ht)

end Home

/-- **The shell comes home.** In every state that a run reaches:

where the shell has no step, it is home, or waits for a child that runs; and every schedule of its steps and of the
ends of the children it waits for comes to an end, where it is home. -/
theorem comes_home {maxJobID : ℤ} {entry : Entries} {ls : List Act} {s : Shell}
    (h : Run Step (start maxJobID entry) ls s) :
    ((∀ a t, ¬ Step s (.shell a) t) →
      s.Home ∨ ∃ c pid, s.pc = .wait c pid ∧ s.procs.lookup pid = some .running) ∧
    (∀ ls' t, Run HomeStep s ls' t →
      ls'.length ≤ 4 * s.procs.keys.length + 25 ∧ (Final HomeStep t → t.Home)) ∧
    ∃ ls' t, Run HomeStep s ls' t ∧ Final HomeStep t := by
  have hs := awake_of_run h
  have hstep : ∀ (s : Shell) l t, Awake s → HomeStep s l t →
      Awake t ∧ 2 * t.due + t.unended < 2 * s.due + s.unended := fun s l t hs hl => ⟨hs.step hl.step, hl.nearer⟩
  refine ⟨fun hno => ?_, fun ls' t h' => ⟨?_, ?_⟩, exists_run_final hs hstep⟩
  · by_contra hneither
    rw [not_or] at hneither
    obtain ⟨a, t, ht⟩ := shell_can_step hs hneither.1 fun c pid hpc hrun => hneither.2 ⟨c, pid, hpc, hrun⟩
    exact hno a t ht
  · have hle := h'.length_add_le hs hstep
    have hpc := s.pc.due_le
    have hun := s.unended_le
    have hdue : s.due = 2 * s.procs.keys.length + s.pc.due := rfl
    omega
  · exact (h'.invariant hs fun s l t hs hl => (hstep s l t hs hl).1).home

/-- `sleep 9`, up to `waitpid`. -/
theorem comes_home_sleep : ∃ ls s, Run Step sevenShell ls s ∧ s.pc = .wait (sleepCmd false) 1 ∧
    s.procs.lookup 1 = some .running ∧ ∃ ls' t, Run HomeStep s ls' t ∧ t.Home := by
  obtain ⟨s, hs, hpc, hrun⟩ : ∃ s, exec step sevenShell (.line (sleepCmd false) ::
      List.replicate 4 (.shell (quietAnswer 1))) = some s ∧ s.pc = .wait (sleepCmd false) 1 ∧
      s.procs.lookup 1 = some .running := ⟨_, rfl, rfl, rfl⟩
  obtain ⟨-, hall, ls', t, h', hfinal⟩ := comes_home (Run.of_exec hs)
  exact ⟨_, s, Run.of_exec hs, hpc, hrun, ls', t, h', (hall ls' t h').2 hfinal⟩

end OsHomework.Smash
