import Mathlib.Algebra.Order.BigOperators.Group.Finset
import OsHomework.Lib.Ending
import OsHomework.Server.Locks
import OsHomework.Server.Order

/-!
# The server drains

Without new connections the server comes to rest, and then everything it has accepted is closed.

* `DrainStep`: a step that accepts no connection; no waiter wakes up by itself;
* `MainPc.rank`, `WorkerPc.rank`, `work`: what is left to do. A connection in the queue counts for the loop of
  the worker that takes it;
* **`mainStep_work`**, **`workerStep_work`**: every step does some of it;
* `incoming`, **`DrainStep.incoming_le`**: the connections that wait or may still be enqueued become no more, so
  `queue_size` does not overflow;
* `MainPc.locks`, `WorkerPc.locks` and their like: the statements that wait for a mutex;
  `main_can_step`, `worker_can_step`: all others can be executed, but for the two waits and `Accept`;
* **`Final.mutex2`**, **`Final.mutex`**: when nothing can be executed, no mutex is held. Who holds `mutex2` waits
  for nothing, and who holds `mutex` for `mutex2` at most;
* **`server_drains`**.
-/

set_option autoImplicit false

namespace OsHomework.Server

open Queue Finset

/-- Nothing comes from outside: `main` does not accept, and nobody wakes up by itself. -/
def Label.drains {n : ℕ} (s : Sys n) : Label n → Prop
  | .main _ => s.main ≠ .accept
  | .worker _ _ => True
  | .spuriousMain | .spuriousWorker _ => False

/-- A step that accepts no connection. -/
def DrainStep {n : ℕ} (conf : Conf) (s : Sys n) (l : Label n) (t : Sys n) : Prop := Step conf s l t ∧ l.drains s

/-! ## What is left to do -/

/-- What `main` has left to do before its next `Accept`, the work that it hands over included. -/
def MainPc.rank : MainPc → ℕ
  | .accept => 0
  | .grow | .dropUnlockDone => 1
  | .close _ => 2
  | .dropUnlockClose _ => 3
  | .signal => 6
  | .enqueueUnlock => 7
  | .enqueueBody _ => 21
  | .enqueueLock _ => 22
  | .dropUnlock _ | .waitUnlock _ | .waiting _ => 23
  | .waitTest _ | .headBody _ | .randomBody _ => 24
  | .waitLock _ | .woken _ | .headLock _ | .randomLock _ => 25
  | .overload _ => 26
  | .testUnlock _ _ => 27
  | .test _ => 28
  | .testLock _ => 29

/-- What a worker has left to do before it waits. -/
def WorkerPc.rank : WorkerPc → ℕ
  | .waiting => 0
  | .wait => 1
  | .unlock2 none => 2
  | .look _ => 3
  | .lock2 _ => 4
  | .lock | .woken _ => 5
  | .close _ => 6
  | .signal2 _ => 9
  | .decUnlock _ => 10
  | .dec _ => 11
  | .decLock _ => 12
  | .handle _ => 13
  | .unlock _ => 14
  | .unlock2 (some _) => 15

theorem MainPc.rank_le (pc : MainPc) : pc.rank ≤ 29 := by
  cases pc <;> simp [MainPc.rank]

theorem WorkerPc.rank_le (pc : WorkerPc) : pc.rank ≤ 15 := by
  cases pc with
  | unlock2 element => cases element <;> simp [WorkerPc.rank]
  | _ => simp [WorkerPc.rank]

variable {n : ℕ}

/-- What the workers have left to do. -/
def workersRank (worker : Fin n → WorkerPc) : ℕ := ∑ i, (worker i).rank

/-- What is left to do. -/
def work (s : Sys n) : ℕ := 13 * s.queue.queueSize.toNat + workersRank s.worker + s.main.rank

theorem workersRank_update (worker : Fin n → WorkerPc) (i : Fin n) (pc : WorkerPc) :
    workersRank (Function.update worker i pc) + (worker i).rank = workersRank worker + pc.rank :=
  sum_update WorkerPc.rank worker i pc

theorem work_le (s : Sys n) : work s ≤ 13 * s.queue.queueSize.toNat + 15 * n + 29 := by
  have h₁ : workersRank s.worker ≤ ∑ _i : Fin n, 15 := sum_le_sum fun i _ => (s.worker i).rank_le
  have h₂ := s.main.rank_le
  rw [sum_const, card_univ, Fintype.card_fin, smul_eq_mul] at h₁
  rw [work]
  omega

section Work

variable {conf : Conf} {env : Env n} {s t : Sys n} {i : Fin n} {l : Label n}

theorem work_lt_of_main (hw : t.worker = s.worker) (hq : t.queue.queueSize ≤ s.queue.queueSize)
    (hm : t.main.rank < s.main.rank) : work t < work s := by
  rw [work, work, hw]
  omega

theorem rank_handleOverloading (c : Request) (p : Policy) :
    (handleOverloading c p).rank < (MainPc.overload c).rank := by
  cases p <;> simp [handleOverloading, MainPc.rank]

/-- **A step of `main` does some of the work**, unless it accepts. -/
theorem mainStep_work (h : Placed s) (hacc : s.main ≠ .accept) (hs : mainStep conf env s = some t) :
    work t < work s := by
  have hsize := h.size_nonneg
  cases hm : s.main with
  | accept => exact absurd hm hacc
  | headBody c =>
    simp only [mainStep, hm] at hs
    rcases headBody_cases h.holds hs with ⟨-, rfl⟩ | ⟨x, q, -, -, hq, rfl⟩
    · exact work_lt_of_main rfl le_rfl (by rw [hm]; simp [MainPc.rank])
    · exact work_lt_of_main rfl (by simp only; omega) (by rw [hm]; simp [MainPc.rank])
  | randomBody c =>
    simp only [mainStep, hm] at hs
    rcases randomBody_cases h.holds hs with ⟨-, rfl⟩ | ⟨q, fds, -, hwf, -, hsub, -, rfl⟩
    · exact work_lt_of_main rfl le_rfl (by rw [hm]; simp [MainPc.rank])
    · have hle := hsub.length_le
      have hq : q.queueSize ≤ s.queue.queueSize := by
        rw [hwf.size_connfds, h.wf.size_connfds]
        omega
      exact work_lt_of_main rfl hq (by rw [hm]; simp [MainPc.rank])
  | enqueueBody c =>
    -- the connection will cost a worker its loop
    obtain ⟨q, -, -, hq, rfl⟩ := enqueueBody_cases h.holds hm hs
    simp only [work, hm, MainPc.rank]
    omega
  | signal =>
    simp only [mainStep, hm, signalCond] at hs
    split at hs <;> split_ifs at hs with hi <;> cases hs
    · next i _ =>
      have hr := workersRank_update s.worker i (.woken true)
      rw [isWaiting_iff.mp hi] at hr
      simp only [WorkerPc.rank] at hr
      simp only [work, hm, MainPc.rank]
      omega
    · exact work_lt_of_main rfl le_rfl (by rw [hm]; simp [MainPc.rank])
  | overload c =>
    simp only [mainStep, hm, Option.some.injEq] at hs
    subst hs
    exact work_lt_of_main rfl le_rfl (by rw [hm]; exact rank_handleOverloading c _)
  | waitTest c =>
    simp only [mainStep, hm] at hs
    split_ifs at hs <;> cases hs <;> exact work_lt_of_main rfl le_rfl (by rw [hm]; simp [MainPc.rank])
  | waiting c => simp [mainStep, hm] at hs
  | testUnlock c isOverloaded =>
    simp only [mainStep, hm, Option.some.injEq] at hs
    subst hs
    exact work_lt_of_main rfl le_rfl (by rw [hm]; cases isOverloaded <;> simp [MainPc.rank])
  | waitUnlock c | close c =>
    simp only [mainStep, hm, Option.some.injEq] at hs
    subst hs
    exact work_lt_of_main rfl le_rfl (by rw [hm]; simp only; split_ifs <;> simp [MainPc.rank])
  | grow =>
    simp only [mainStep, hm, Option.some.injEq] at hs
    subst hs
    exact work_lt_of_main rfl le_rfl (by rw [hm]; simp [MainPc.rank])
  | _ =>
    simp only [mainStep, hm] at hs
    try split_ifs at hs
    cases hs
    exact work_lt_of_main rfl le_rfl (by rw [hm]; simp [MainPc.rank])

theorem work_lt_of_worker {pc : WorkerPc} (hw : t.worker = Function.update s.worker i pc)
    (hq : t.queue = s.queue) (hm : t.main = s.main) (hr : pc.rank < (s.worker i).rank) : work t < work s := by
  have := workersRank_update s.worker i pc
  rw [work, work, hw, hq, hm]
  omega

/-- **A step of a worker does some of the work.** -/
theorem workerStep_work (h : Placed s) (hs : workerStep env s i = some t) : work t < work s := by
  have hsize := h.size_nonneg
  cases hm : s.worker i with
  | look signalled =>
    simp only [workerStep, hm] at hs
    rcases lookBody_cases h.holds hs with ⟨-, rfl⟩ | ⟨q, j, hc, hwf, hq, rfl⟩
    · exact work_lt_of_worker rfl rfl rfl (by rw [hm]; simp [WorkerPc.rank])
    · -- the connection is no longer in the queue
      have hr := workersRank_update s.worker i (.unlock2 (some j))
      have hq0 : 0 ≤ q.queueSize := by
        rw [hwf.size]
        exact Int.natCast_nonneg _
      rw [hm] at hr
      simp only [WorkerPc.rank] at hr
      simp only [work, Sys.goto]
      omega
  | unlock2 element =>
    cases element <;> simp only [workerStep, hm, Option.some.injEq] at hs <;> subst hs <;>
      exact work_lt_of_worker rfl rfl rfl (by rw [hm]; simp [WorkerPc.rank])
  | signal2 j =>
    simp only [workerStep, hm] at hs
    split at hs <;> cases hs
    · next c hc =>
      have hr := workersRank_update s.worker i (.close j)
      rw [hm] at hr
      simp only [WorkerPc.rank] at hr
      simp only [work, Sys.goto, hc, MainPc.rank]
      omega
    · exact work_lt_of_worker rfl rfl rfl (by rw [hm]; simp [WorkerPc.rank])
  | waiting => simp [workerStep, hm] at hs
  | _ =>
    simp only [workerStep, hm] at hs
    try split_ifs at hs
    cases hs
    exact work_lt_of_worker rfl rfl rfl (by rw [hm]; simp [WorkerPc.rank])

theorem DrainStep.work (hs : DrainStep conf s l t) (h : Placed s) : work t < work s := by
  obtain ⟨hs, hl⟩ := hs
  cases l with
  | main env => exact mainStep_work h hl hs
  | worker i env => exact workerStep_work h hs
  | spuriousMain | spuriousWorker i => exact hl.elim

end Work

/-! ## What may still be enqueued -/

/-- The connections in the queue, and the one that `main` may add to them. -/
def incoming (s : Sys n) : ℕ := s.queue.connfds.length + s.main.held.length

theorem MainPc.length_held_le (pc : MainPc) : pc.held.length ≤ 1 := by
  cases pc <;> simp [MainPc.held]

section Incoming

variable {conf : Conf} {s t : Sys n} {l : Label n}

theorem Shifts.incoming_le (h : Shifts s t) (ha : t.accepted = s.accepted) : incoming t ≤ incoming s := by
  unfold incoming
  cases h with
  | stays hq _ hm _ =>
    rw [hq]
    exact Nat.add_le_add_left hm.length_le _
  | accepts _ _ _ _ hacc => omega
  | enqueues hq _ hm _ =>
    rw [hq, hm, List.length_append, List.length_nil]
    omega
  | takes i x hq _ hm _ _ | dropsHead c x _ hq _ hm _ _ =>
    rw [hq, hm, List.length_cons]
    omega
  | dropsRandom c _ hq _ hm _ =>
    rw [hm]
    exact Nat.add_le_add_right hq.length_le _

theorem incoming_le_intMax (h : Placed s) (hsize : s.queue.queueSize < intMax) : (incoming s : ℤ) ≤ intMax := by
  have h₁ := s.main.length_held_le
  have h₂ := h.wf.size_connfds
  unfold incoming
  omega

/-- When `main` is about to enqueue its connection, `queue_size` can be incremented. -/
theorem lt_intMax_of_incoming {c : Request} (h : Placed s) (hm : s.main = .enqueueBody c)
    (hin : (incoming s : ℤ) ≤ intMax) : s.queue.queueSize < intMax := by
  have hsize := h.wf.size_connfds
  rw [incoming, hm] at hin
  simp only [MainPc.held, List.length_singleton] at hin
  omega

theorem mainStep_accepted {env : Env n} (hacc : s.main ≠ .accept) (hs : mainStep conf env s = some t) :
    t.accepted = s.accepted := by
  cases hm : s.main <;> simp only [mainStep, hm, headBody, randomBody, signalCond] at hs
  case accept => exact absurd hm hacc
  all_goals (repeat' split at hs) <;> cases hs <;> rfl

theorem workerStep_accepted {env : Env n} {i : Fin n} (hs : workerStep env s i = some t) :
    t.accepted = s.accepted := by
  cases hm : s.worker i with
  | unlock2 element => cases element <;> simp only [workerStep, hm] at hs <;> cases hs <;> rfl
  | _ =>
    simp only [workerStep, hm, lookBody] at hs
    (repeat' split at hs) <;> cases hs <;> rfl

theorem DrainStep.accepted (hs : DrainStep conf s l t) : t.accepted = s.accepted := by
  obtain ⟨hs, hl⟩ := hs
  cases l with
  | main env => exact mainStep_accepted hl hs
  | worker i env => exact workerStep_accepted hs
  | spuriousMain | spuriousWorker i => exact hl.elim

/-- **No connection comes in.** -/
theorem DrainStep.incoming_le (hs : DrainStep conf s l t) (h : Placed s) : incoming t ≤ incoming s :=
  (hs.1.shifts h).incoming_le hs.accepted

end Incoming

/-! ## What can be executed -/

/-- The next statement locks `mutex`. -/
def MainPc.locks : MainPc → Bool
  | .headLock _ | .randomLock _ | .enqueueLock _ => true
  | _ => false

/-- The next statement locks `mutex2`. -/
def MainPc.locks2 : MainPc → Bool
  | .testLock _ | .waitLock _ | .woken _ => true
  | _ => false

def WorkerPc.locks : WorkerPc → Bool
  | .lock | .woken _ => true
  | _ => false

def WorkerPc.locks2 : WorkerPc → Bool
  | .lock2 _ | .decLock _ => true
  | _ => false

section Can

variable {conf : Conf} {env : Env n} {s t : Sys n} {i : Fin n}

/-- `malloc` has a node, and a signal finds its waiter. -/
theorem exists_env (s : Sys n) : ∃ env : Env n, env.node ∉ s.queue.allocated ∧ env.node ≠ 0 ∧
    (signalCond env s).isSome := by
  obtain ⟨node, hnode⟩ : ∃ node, node ∉ 0 :: s.queue.allocated := Infinite.exists_notMem_finset
    (0 :: s.queue.allocated).toFinset |>.imp fun node h => by simpa using h
  rw [List.mem_cons, not_or] at hnode
  by_cases hw : ∃ i, (s.worker i).isWaiting = true
  · obtain ⟨i, hi⟩ := hw
    exact ⟨envOf node (some i), hnode.2, hnode.1, by simp [signalCond, envOf, hi]⟩
  · simp only [not_exists, Bool.not_eq_true] at hw
    exact ⟨envOf node none, hnode.2, hnode.1, by simp [signalCond, envOf, hw]⟩

/-- `main` can go on, unless it waits for a connection, a signal or a mutex. -/
theorem main_can_step (h : Placed s) (hin : (incoming s : ℤ) ≤ intMax) (hacc : s.main ≠ .accept)
    (hwait : ∀ c, s.main ≠ .waiting c) (h₁ : s.main.locks = true → s.mutex = none)
    (h₂ : s.main.locks2 = true → s.mutex2 = none) :
    ∃ env, (mainStep conf env s).isSome := by
  obtain ⟨env, hnode, h0, hsig⟩ := exists_env s
  refine ⟨env, ?_⟩
  cases hm : s.main with
  | accept => exact absurd hm hacc
  | waiting c => exact absurd hm (hwait c)
  | headBody c => exact (bodies_defined h).1 c (.inl hm)
  | randomBody c => exact (bodies_defined h).1 c (.inr hm)
  | enqueueBody c =>
    obtain ⟨q, he, -⟩ := enqueue_spec c.connfd c.arrivalTime h.wf h0 hnode (lt_intMax_of_incoming h hm hin)
    simp [mainStep, hm, hnode, he]
  | signal => simpa [mainStep, hm] using hsig
  | headLock c | randomLock c | enqueueLock c =>
    rw [hm] at h₁
    simp [mainStep, hm, h₁ rfl]
  | testLock c | waitLock c | woken c =>
    rw [hm] at h₂
    simp [mainStep, hm, h₂ rfl]
  | waitTest c =>
    simp only [mainStep, hm]
    split_ifs <;> rfl
  | _ => simp [mainStep, hm]

theorem worker_can_step (env : Env n) (h : Placed s) (hwait : s.worker i ≠ .waiting)
    (h₁ : (s.worker i).locks = true → s.mutex = none) (h₂ : (s.worker i).locks2 = true → s.mutex2 = none) :
    (workerStep env s i).isSome := by
  cases hm : s.worker i with
  | waiting => exact absurd hm hwait
  | look signalled => exact (@bodies_defined _ ⟨.dt, 0⟩ _ _ h).2 i signalled hm
  | lock | woken signalled =>
    rw [hm] at h₁
    simp [workerStep, hm, h₁ rfl]
  | lock2 signalled | decLock j =>
    rw [hm] at h₂
    simp [workerStep, hm, h₂ rfl]
  | unlock2 element => cases element <;> simp [workerStep, hm]
  | signal2 j =>
    simp only [workerStep, hm]
    split <;> rfl
  | _ => simp [workerStep, hm]

/-- Who holds `mutex2` waits for nothing. -/
theorem main_holds2 {pc : MainPc} (h : pc.holdsMutex2 = true) :
    pc ≠ .accept ∧ (∀ c, pc ≠ .waiting c) ∧ pc.locks = false ∧ pc.locks2 = false := by
  cases pc <;> first | (cases h; done) | exact ⟨by simp, by simp, rfl, rfl⟩

theorem worker_holds2 {pc : WorkerPc} (h : pc.holdsMutex2 = true) :
    pc ≠ .waiting ∧ pc.locks = false ∧ pc.locks2 = false := by
  cases pc <;> first | (cases h; done) | exact ⟨by simp, rfl, rfl⟩

/-- Who holds `mutex` waits for `mutex2` at most. -/
theorem main_holds {pc : MainPc} (h : pc.holdsMutex = true) :
    pc ≠ .accept ∧ (∀ c, pc ≠ .waiting c) ∧ pc.locks = false := by
  cases pc <;> first | (cases h; done) | exact ⟨by simp, by simp, rfl⟩

theorem worker_holds {pc : WorkerPc} (h : pc.holdsMutex = true) : pc ≠ .waiting ∧ pc.locks = false := by
  cases pc <;> first | (cases h; done) | exact ⟨by simp, rfl⟩

theorem final_main (h : Final (DrainStep conf) s) (hacc : s.main ≠ .accept) :
    ¬ ∃ env, (mainStep conf env s).isSome := by
  rintro ⟨env, hs⟩
  obtain ⟨t, hs⟩ := Option.isSome_iff_exists.mp hs
  exact h (.main env) t ⟨hs, hacc⟩

theorem final_worker (h : Final (DrainStep conf) s) : ¬ (workerStep env s i).isSome := by
  intro hs
  obtain ⟨t, hs⟩ := Option.isSome_iff_exists.mp hs
  exact h (.worker i env) t ⟨hs, trivial⟩

/-- **Nobody holds `mutex2`**, since its owner could go on. -/
theorem Locked.final_mutex2 (hl : Locked s) (hp : Placed s) (hin : (incoming s : ℤ) ≤ intMax)
    (h : Final (DrainStep conf) s) : s.mutex2 = none := by
  cases ho : s.mutex2 with
  | none => rfl
  | some t =>
    have hholds := (hl.mutex2 t).mpr ho
    cases t with
    | main =>
      obtain ⟨hacc, hwait, h₁, h₂⟩ := main_holds2 hholds
      refine absurd (main_can_step hp hin hacc hwait ?_ ?_) (final_main h hacc)
      · simp [h₁]
      · simp [h₂]
    | worker i =>
      obtain ⟨hwait, h₁, h₂⟩ := worker_holds2 hholds
      refine absurd (worker_can_step (envOf 0 none) hp hwait ?_ ?_) (final_worker h)
      · simp [h₁]
      · simp [h₂]

/-- **Nobody holds `mutex`** either. -/
theorem Locked.final_mutex (hl : Locked s) (hp : Placed s) (hin : (incoming s : ℤ) ≤ intMax)
    (h : Final (DrainStep conf) s) : s.mutex = none := by
  have h₂ := hl.final_mutex2 hp hin h
  cases ho : s.mutex with
  | none => rfl
  | some t =>
    have hholds := (hl.mutex t).mpr ho
    cases t with
    | main =>
      obtain ⟨hacc, hwait, h₁⟩ := main_holds hholds
      exact absurd (main_can_step hp hin hacc hwait (by simp [h₁]) fun _ => h₂) (final_main h hacc)
    | worker i =>
      obtain ⟨hwait, h₁⟩ := worker_holds hholds
      exact absurd (worker_can_step (envOf 0 none) hp hwait (by simp [h₁]) fun _ => h₂) (final_worker h)

end Can

/-! ## The end of a run -/

/-- What holds in every state of every run. -/
structure Sound (conf : Conf) (capacity : ℤ) (s : Sys n) : Prop where
  locked : Locked s
  alert : Alert conf s
  tally : Tally conf capacity s

section End

variable {conf : Conf} {capacity : ℤ} {s t : Sys n} {l : Label n} {ls ls' : List (Label n)}

theorem Sound.step (h : Sound conf capacity s) (hs : Step conf s l t) : Sound conf capacity t :=
  ⟨h.locked.step h.tally.placed hs, h.alert.step hs, h.tally.step hs⟩

theorem sound_of_run (hrun : Run (Step conf) (init n capacity) ls s) : Sound conf capacity s :=
  hrun.invariant ⟨locked_init n capacity, alert_init conf n capacity, tally_init conf n capacity⟩
    fun _ _ _ h hs => h.step hs

/-- **The server at rest.** -/
structure Idle (s : Sys n) : Prop where
  main : s.main = .accept
  workers : ∀ i, s.worker i = .waiting
  queue : s.queue.contents = []
  working : s.numOfCurrWorking = 0
  closed : ∀ k < s.accepted, s.closed.count (k : ℤ) = 1

/-- When all the workers wait and no signal is on its way, nothing is left in the queue or in work. -/
theorem Sound.all_waiting (h : Sound conf capacity s) (hn : 1 ≤ n) (hall : ∀ i, s.worker i = .waiting)
    (howes : s.main.owesSignal = false) : s.queue.queueSize = 0 ∧ s.numOfCurrWorking = 0 := by
  constructor
  · have h₁ := h.alert.cond ⟨0, hn⟩ (hall _)
    have h₂ := h.alert.placed.size_nonneg
    have h₃ : numSignalled s.worker = 0 := by simp [numSignalled, hall, WorkerPc.signalled]
    rw [howes, h₃] at h₁
    simp only [Bool.toNat_false] at h₁
    omega
  · rw [h.tally.counted]
    simp [numBusy, hall, WorkerPc.busy]

/-- `main` does not wait for `cond2` then. -/
theorem Sound.main_awake (h : Sound conf capacity s) (hn : 1 ≤ n) (hcap : 1 ≤ capacity)
    (hall : ∀ i, s.worker i = .waiting) (c : Request) : s.main ≠ .waiting c := by
  intro hc
  obtain ⟨hsize, hwork⟩ := h.all_waiting hn hall (by rw [hc]; rfl)
  have hno : ¬ waitCond conf s := by
    have := h.tally.initial
    unfold waitCond
    rw [hsize, hwork]
    split
    · simp
    · omega
  obtain ⟨i, hi⟩ := h.alert.cond2 c hc hno
  rw [hall i] at hi
  cases hi

/-- **Where nothing can be executed, the server is at rest.** -/
theorem Sound.idle (h : Sound conf capacity s) (hn : 1 ≤ n) (hcap : 1 ≤ capacity)
    (hin : (incoming s : ℤ) ≤ intMax) (hfinal : Final (DrainStep conf) s) : Idle s := by
  have hp := h.tally.placed
  have h₁ := h.locked.final_mutex hp hin hfinal
  have h₂ := h.locked.final_mutex2 hp hin hfinal
  have hall : ∀ i, s.worker i = .waiting := fun i => by
    by_contra hwait
    exact final_worker hfinal (worker_can_step (envOf 0 none) hp hwait (fun _ => h₁) fun _ => h₂)
  have hmain : s.main = .accept := by
    by_contra hacc
    exact final_main hfinal hacc
      (main_can_step hp hin hacc (h.main_awake hn hcap hall) (fun _ => h₁) fun _ => h₂)
  obtain ⟨hsize, hwork⟩ := h.all_waiting hn hall (by rw [hmain]; rfl)
  have hempty : s.queue.contents = [] := by
    have := hp.wf.size
    rw [hsize] at this
    exact List.eq_nil_of_length_eq_zero (by omega)
  refine ⟨hmain, hall, hempty, hwork, fun k hk => ?_⟩
  -- the connection is in one place, and there is no other
  have hplace := hp.places k
  have hheld : heldByWorkers s k = 0 := by simp [heldByWorkers, hall, WorkerPc.held]
  rw [places, hheld, hmain, connfds, hempty, if_pos (by omega)] at hplace
  simpa [MainPc.held] using hplace

end End

/-- **The server drains.** From every state that a run reaches with fewer than `INT_MAX` connections in the queue,
under every policy and every schedule in which the requests handled come to their end:

without new connections there are at most `13 * queue_size + 15 * n + 29` steps, so every schedule comes to an
end; and where no step is left, the server is at rest. Then `main` is at its `Accept`, the workers wait, nothing is
in the queue or in work, and every connection accepted has been closed exactly once. -/
theorem server_drains {conf : Conf} {capacity : ℤ} {ls : List (Label n)} {s : Sys n} (hn : 1 ≤ n)
    (hcap : 1 ≤ capacity) (hrun : Run (Step conf) (init n capacity) ls s) (hsize : s.queue.queueSize < intMax) :
    (∀ ls' t, Run (DrainStep conf) s ls' t →
      ls'.length ≤ 13 * s.queue.queueSize.toNat + 15 * n + 29 ∧ t.accepted = s.accepted ∧
        (Final (DrainStep conf) t → Idle t)) ∧
      ∃ ls' t, Run (DrainStep conf) s ls' t ∧ Final (DrainStep conf) t := by
  have hs := sound_of_run hrun
  have hstep : ∀ (t : Sys n) l u, Sound conf capacity t → DrainStep conf t l u →
      Sound conf capacity u ∧ work u < work t := fun t l u ht hl => ⟨ht.step hl.1, hl.work ht.tally.placed⟩
  refine ⟨fun ls' t hrun' => ⟨?_, ?_, fun hfinal => ?_⟩, exists_run_final hs hstep⟩
  · have h₁ := hrun'.length_add_le hs hstep
    have h₂ := work_le s
    omega
  · exact hrun'.invariant (I := fun t => t.accepted = s.accepted) rfl fun _ _ _ h hl => hl.accepted.trans h
  · have hroom : Sound conf capacity t ∧ (incoming t : ℤ) ≤ intMax :=
      hrun'.invariant (I := fun t => Sound conf capacity t ∧ (incoming t : ℤ) ≤ intMax)
        ⟨hs, incoming_le_intMax hs.tally.placed hsize⟩ fun t l u ht hl =>
          ⟨(hstep t l u ht.1 hl).1, (Int.ofNat_le.mpr (hl.incoming_le ht.1.tally.placed)).trans ht.2⟩
    exact hroom.1.idle hn hcap hroom.2 hfinal

/-- Two connections at a server with one worker. -/
theorem server_drains_two : ∃ s : Sys 1, Run (Step ⟨.dt, 0⟩) (init 1 2) (arrive 1 none ++ arrive 2 none) s ∧
    s.accepted = 2 ∧ s.closed = [] ∧
      ∃ ls t, Run (DrainStep ⟨.dt, 0⟩) s ls t ∧ t.accepted = 2 ∧ Idle t := by
  obtain ⟨s, hs, ha, hc, hq⟩ : ∃ s : Sys 1,
      exec (step ⟨.dt, 0⟩) (init 1 2) (arrive 1 none ++ arrive 2 none) = some s ∧
        s.accepted = 2 ∧ s.closed = [] ∧ s.queue.queueSize = 2 := by
    refine ⟨_, rfl, ?_⟩
    decide
  have hrun : Run (Step ⟨.dt, 0⟩) (init 1 2) (arrive 1 none ++ arrive 2 none) s := Run.of_exec hs
  obtain ⟨hall, ls, t, hdrain, hfinal⟩ := server_drains le_rfl one_le_two hrun (by rw [hq]; decide)
  obtain ⟨-, hacc, hidle⟩ := hall ls t hdrain
  exact ⟨s, hrun, ha, hc, ls, t, hdrain, hacc.trans ha, hidle hfinal⟩

end OsHomework.Server
