import OsHomework.Lib.Mutex
import OsHomework.Server.Wakeups

/-!
# The two mutexes

* `MainPc.holdsMutex2`, `WorkerPc.holdsMutex2`: who holds `mutex2`;
* `mainStep_turn`, `workerStep_turn`: a step locks a mutex when it is free, or unlocks one that it holds;
* `Locked`: the invariant. The owner of a mutex is the thread that is between its lock and its unlock;
* `Sys.writes`, `Sys.uses`: which shared variables the next statement of a thread writes or uses;
  `mainStep_queue` and its like say that it depends on no other;
* `common_mutex`: which mutex protects what; **`race_free`**: there is no data race.
-/

set_option autoImplicit false

namespace OsHomework.Server

def MainPc.holdsMutex2 : MainPc → Bool
  | .test _ | .testUnlock _ _ | .waitTest _ | .waitUnlock _ => true
  | _ => false

def WorkerPc.holdsMutex2 : WorkerPc → Bool
  | .look _ | .unlock2 _ | .dec _ | .decUnlock _ => true
  | _ => false

variable {n : ℕ}

/-- The thread is between its lock of `mutex` and its unlock. -/
def Sys.holdsMutex (s : Sys n) : Thread n → Bool
  | .main => s.main.holdsMutex
  | .worker i => (s.worker i).holdsMutex

/-- The thread is between its lock of `mutex2` and its unlock. -/
def Sys.holdsMutex2 (s : Sys n) : Thread n → Bool
  | .main => s.main.holdsMutex2
  | .worker i => (s.worker i).holdsMutex2

/-- The owners of the mutexes are the threads that hold them. -/
structure Locked (s : Sys n) : Prop where
  mutex : Owned s.mutex s.holdsMutex
  mutex2 : Owned s.mutex2 s.holdsMutex2

section Steps

variable {conf : Conf} {env : Env n} {s t : Sys n} {i : Fin n}

theorem holds_handleOverloading (c : Request) (p : Policy) :
    (handleOverloading c p).holdsMutex = false ∧ (handleOverloading c p).holdsMutex2 = false := by
  cases p <;> exact ⟨rfl, rfl⟩

/-- A step of `main` locks a mutex when it is free, or unlocks one that it holds. -/
theorem mainStep_turn (h : Placed s) (hs : mainStep conf env s = some t) :
    Turn (.main : Thread n) s.mutex s.main.holdsMutex t.mutex t.main.holdsMutex ∧
      Turn (.main : Thread n) s.mutex2 s.main.holdsMutex2 t.mutex2 t.main.holdsMutex2 := by
  cases hm : s.main with
  | testLock c | waitLock c | woken c =>
    simp only [mainStep, hm] at hs
    split_ifs at hs with hfree
    cases hs
    rw [hfree]
    exact ⟨.keep _ _, .acquire _⟩
  | headLock c | randomLock c | enqueueLock c =>
    simp only [mainStep, hm] at hs
    split_ifs at hs with hfree
    cases hs
    rw [hfree]
    exact ⟨.acquire _, .keep _ _⟩
  | testUnlock c isOverloaded =>
    simp only [mainStep, hm, Option.some.injEq] at hs
    subst hs
    cases isOverloaded <;> exact ⟨.keep _ _, .release _⟩
  | waitUnlock c =>
    simp only [mainStep, hm, Option.some.injEq] at hs
    subst hs
    by_cases hbf : conf.policy = .bf
    · simp only [hbf, if_true]
      exact ⟨.keep _ _, .release _⟩
    · simp only [hbf, if_false]
      exact ⟨.keep _ _, .release _⟩
  | waitTest c =>
    simp only [mainStep, hm] at hs
    split_ifs at hs <;> cases hs
    · exact ⟨.keep _ _, .release _⟩
    · exact ⟨.keep _ _, .keep _ _⟩
  | overload c =>
    simp only [mainStep, hm, Option.some.injEq] at hs
    subst hs
    dsimp only
    rw [(holds_handleOverloading c conf.policy).1, (holds_handleOverloading c conf.policy).2]
    exact ⟨.keep _ _, .keep _ _⟩
  | headBody c =>
    simp only [mainStep, hm] at hs
    rcases headBody_cases h.holds hs with ⟨-, rfl⟩ | ⟨x, q, -, -, -, rfl⟩ <;> exact ⟨.keep _ _, .keep _ _⟩
  | randomBody c =>
    simp only [mainStep, hm] at hs
    rcases randomBody_cases h.holds hs with ⟨-, rfl⟩ | ⟨q, fds, -, -, -, -, -, rfl⟩ <;>
      exact ⟨.keep _ _, .keep _ _⟩
  | enqueueBody c =>
    obtain ⟨q, -, -, -, rfl⟩ := enqueueBody_cases h.holds hm hs
    exact ⟨.keep _ _, .keep _ _⟩
  | dropUnlock c | dropUnlockClose c | dropUnlockDone | enqueueUnlock =>
    simp only [mainStep, hm, Option.some.injEq] at hs
    subst hs
    exact ⟨.release _, .keep _ _⟩
  | close c =>
    simp only [mainStep, hm, Option.some.injEq] at hs
    subst hs
    by_cases hdyn : conf.policy = .dynamic
    · simp only [hdyn, if_true]
      exact ⟨.keep _ _, .keep _ _⟩
    · simp only [hdyn, if_false]
      exact ⟨.keep _ _, .keep _ _⟩
  | signal =>
    simp only [mainStep, hm, signalCond] at hs
    split at hs <;> split_ifs at hs <;> cases hs <;> exact ⟨.keep _ _, .keep _ _⟩
  | waiting c => simp [mainStep, hm] at hs
  | accept | test c | grow =>
    simp only [mainStep, hm, Option.some.injEq] at hs
    subst hs
    exact ⟨.keep _ _, .keep _ _⟩

/-- So does a step of a worker. -/
theorem workerStep_turn (h : Placed s) (hs : workerStep env s i = some t) :
    Turn (.worker i) s.mutex (s.worker i).holdsMutex t.mutex (t.worker i).holdsMutex ∧
      Turn (.worker i) s.mutex2 (s.worker i).holdsMutex2 t.mutex2 (t.worker i).holdsMutex2 := by
  cases hm : s.worker i with
  | lock | woken signalled =>
    simp only [workerStep, hm] at hs
    split_ifs at hs with hfree
    cases hs
    simp only [Sys.goto, Function.update_self, hfree]
    exact ⟨.acquire _, .keep _ _⟩
  | lock2 signalled | decLock j =>
    simp only [workerStep, hm] at hs
    split_ifs at hs with hfree
    cases hs
    simp only [Sys.goto, Function.update_self, hfree]
    exact ⟨.keep _ _, .acquire _⟩
  | look signalled =>
    simp only [workerStep, hm] at hs
    rcases lookBody_cases h.holds hs with ⟨-, rfl⟩ | ⟨q, j, -, -, -, rfl⟩ <;>
      simp only [Sys.goto, Function.update_self] <;> exact ⟨.keep _ _, .keep _ _⟩
  | unlock2 element =>
    cases element <;> simp only [workerStep, hm, Option.some.injEq] at hs <;> subst hs <;>
      simp only [Sys.goto, Function.update_self] <;> exact ⟨.keep _ _, .release _⟩
  | decUnlock j =>
    simp only [workerStep, hm, Option.some.injEq] at hs
    subst hs
    simp only [Sys.goto, Function.update_self]
    exact ⟨.keep _ _, .release _⟩
  | wait | unlock j =>
    simp only [workerStep, hm, Option.some.injEq] at hs
    subst hs
    simp only [Sys.goto, Function.update_self]
    exact ⟨.release _, .keep _ _⟩
  | signal2 j =>
    simp only [workerStep, hm] at hs
    split at hs <;> cases hs <;> simp only [Sys.goto, Function.update_self] <;> exact ⟨.keep _ _, .keep _ _⟩
  | waiting => simp [workerStep, hm] at hs
  | handle j | dec j | close j =>
    simp only [workerStep, hm, Option.some.injEq] at hs
    subst hs
    simp only [Sys.goto, Function.update_self]
    exact ⟨.keep _ _, .keep _ _⟩

theorem holds_wake {pc : WorkerPc} {b : Bool} (h : pc = .waiting) :
    (WorkerPc.woken b).holdsMutex = pc.holdsMutex ∧ (WorkerPc.woken b).holdsMutex2 = pc.holdsMutex2 := by
  rw [h]
  exact ⟨rfl, rfl⟩

theorem Locked.mainStep (h : Locked s) (hp : Placed s) (hs : mainStep conf env s = some t) : Locked t := by
  obtain ⟨h₁, h₂⟩ := mainStep_turn hp hs
  have hother : ∀ j, (t.worker j).holdsMutex = (s.worker j).holdsMutex ∧
      (t.worker j).holdsMutex2 = (s.worker j).holdsMutex2 := by
    intro j
    obtain ⟨-, hw, -⟩ := mainStep_frame hp hs
    rcases hw with hw | ⟨i, hi, hw⟩
    · rw [hw]
      exact ⟨rfl, rfl⟩
    · rw [hw]
      by_cases hj : j = i
      · rw [hj, Function.update_self]
        exact holds_wake hi
      · rw [Function.update_of_ne hj]
        exact ⟨rfl, rfl⟩
  constructor
  · refine h.mutex.turn h₁ fun u hu => ?_
    cases u with
    | main => exact absurd rfl hu
    | worker j => exact (hother j).1
  · refine h.mutex2.turn h₂ fun u hu => ?_
    cases u with
    | main => exact absurd rfl hu
    | worker j => exact (hother j).2

theorem Locked.workerStep (h : Locked s) (hp : Placed s) (hs : workerStep env s i = some t) : Locked t := by
  obtain ⟨h₁, h₂⟩ := workerStep_turn hp hs
  obtain ⟨pc, hw, -, hmain, -⟩ := workerStep_frame hp hs
  have hother : ∀ u, u ≠ Thread.worker i → t.holdsMutex u = s.holdsMutex u ∧ t.holdsMutex2 u = s.holdsMutex2 u := by
    intro u hu
    cases u with
    | main =>
      show t.main.holdsMutex = s.main.holdsMutex ∧ t.main.holdsMutex2 = s.main.holdsMutex2
      rcases hmain with hm | ⟨c, hm, hm'⟩
      · rw [hm]
        exact ⟨rfl, rfl⟩
      · rw [hm, hm']
        exact ⟨rfl, rfl⟩
    | worker j =>
      have hj : j ≠ i := fun heq => hu (congrArg _ heq)
      show (t.worker j).holdsMutex = (s.worker j).holdsMutex ∧ (t.worker j).holdsMutex2 = (s.worker j).holdsMutex2
      rw [hw, Function.update_of_ne hj]
      exact ⟨rfl, rfl⟩
  exact ⟨h.mutex.turn h₁ fun u hu => (hother u hu).1, h.mutex2.turn h₂ fun u hu => (hother u hu).2⟩

theorem Locked.congr (h : Locked s) (h₁ : t.mutex = s.mutex) (h₂ : t.mutex2 = s.mutex2)
    (hholds : ∀ u, t.holdsMutex u = s.holdsMutex u ∧ t.holdsMutex2 u = s.holdsMutex2 u) : Locked t := by
  refine ⟨fun u => ?_, fun u => ?_⟩
  · rw [(hholds u).1, h₁, h.mutex u]
  · rw [(hholds u).2, h₂, h.mutex2 u]

theorem Locked.step {l : Label n} (h : Locked s) (hp : Placed s) (hs : Step conf s l t) : Locked t := by
  cases l with
  | main env => exact h.mainStep hp hs
  | worker i env => exact h.workerStep hp hs
  | spuriousMain =>
    simp only [Step, Server.step] at hs
    split at hs
    next c hc =>
      cases hs
      refine h.congr rfl rfl fun u => ?_
      cases u with
      | main =>
        show (MainPc.woken c).holdsMutex = s.main.holdsMutex ∧ (MainPc.woken c).holdsMutex2 = s.main.holdsMutex2
        rw [hc]
        exact ⟨rfl, rfl⟩
      | worker j => exact ⟨rfl, rfl⟩
    next => cases hs
  | spuriousWorker i =>
    simp only [Step, Server.step] at hs
    split_ifs at hs with hi
    cases hs
    refine h.congr rfl rfl fun u => ?_
    cases u with
    | main => exact ⟨rfl, rfl⟩
    | worker j =>
      show (Function.update s.worker i (.woken false) j).holdsMutex = (s.worker j).holdsMutex ∧
        (Function.update s.worker i (.woken false) j).holdsMutex2 = (s.worker j).holdsMutex2
      by_cases hj : j = i
      · rw [hj, Function.update_self]
        exact holds_wake (isWaiting_iff.mp hi)
      · rw [Function.update_of_ne hj]
        exact ⟨rfl, rfl⟩

end Steps

theorem locked_init (n : ℕ) (capacity : ℤ) : Locked (init n capacity) := by
  constructor <;> intro t <;> cases t <;> simp [init, Sys.holdsMutex, Sys.holdsMutex2, MainPc.holdsMutex,
    MainPc.holdsMutex2, WorkerPc.holdsMutex, WorkerPc.holdsMutex2]

theorem locked_of_run {conf : Conf} {capacity : ℤ} {ls : List (Label n)} {s : Sys n}
    (hrun : Run (Step conf) (init n capacity) ls s) : Locked s :=
  (hrun.invariant (I := fun s => Placed s ∧ Locked s) ⟨placed_init n capacity, locked_init n capacity⟩
    fun _ _ _ h hs => ⟨h.1.step hs, h.2.step h.1 hs⟩).2

/-! ## The shared variables -/

/-- What more than one thread reads or writes. -/
inductive Shared where
  | queue | numOfCurrWorking

/-- The next statement writes the variable. -/
def MainPc.writes : MainPc → Shared → Bool
  | .headBody _, .queue | .randomBody _, .queue | .enqueueBody _, .queue => true
  | _, _ => false

/-- The next statement reads or writes the variable. -/
def MainPc.uses : MainPc → Shared → Bool
  | .test _, _ | .waitTest _, _ => true
  | pc, x => pc.writes x

/-- A worker reads nothing that it does not write. -/
def WorkerPc.uses : WorkerPc → Shared → Bool
  | .look _, _ | .dec _, .numOfCurrWorking => true
  | _, _ => false

def Sys.writes (s : Sys n) : Thread n → Shared → Bool
  | .main => s.main.writes
  | .worker i => (s.worker i).uses

def Sys.uses (s : Sys n) : Thread n → Shared → Bool
  | .main => s.main.uses
  | .worker i => (s.worker i).uses

section Uses

variable {conf : Conf} {env : Env n} {s t : Sys n} {i : Fin n}

/-- A statement of `main` that does not use the queue does the same whatever is in it. -/
theorem mainStep_queue (h : s.main.uses .queue = false) (queue : Queue) :
    mainStep conf env { s with queue } = (mainStep conf env s).map fun t => { t with queue } := by
  cases hm : s.main <;> rw [hm] at h <;> simp only [mainStep, hm] <;> try (split_ifs <;> rfl)
  case test | waitTest | headBody | randomBody | enqueueBody => cases h
  case signal =>
    unfold signalCond
    split <;> split_ifs <;> rfl
  all_goals rfl

/-- A statement that does not write the queue leaves it as it is. -/
theorem mainStep_keeps_queue (h : s.main.writes .queue = false) (hs : mainStep conf env s = some t) :
    t.queue = s.queue := by
  cases hm : s.main <;> rw [hm] at h <;> simp only [mainStep, hm] at hs
  case headBody | randomBody | enqueueBody => cases h
  case signal =>
    unfold signalCond at hs
    split at hs <;> split_ifs at hs <;> cases hs <;> rfl
  all_goals (try split_ifs at hs) <;> cases hs <;> rfl

theorem mainStep_numOfCurrWorking (h : s.main.uses .numOfCurrWorking = false) (numOfCurrWorking : ℤ) :
    mainStep conf env { s with numOfCurrWorking } =
      (mainStep conf env s).map fun t => { t with numOfCurrWorking } := by
  cases hm : s.main <;> rw [hm] at h <;> simp only [mainStep, hm, headBody, randomBody] <;>
    try (split_ifs <;> rfl)
  case test | waitTest => cases h
  case signal =>
    unfold signalCond
    split <;> split_ifs <;> rfl
  case headBody =>
    split
    · split_ifs <;> rfl
    · rfl
  case randomBody =>
    split_ifs
    · rfl
    · split <;> rfl
  case enqueueBody =>
    split_ifs
    · rfl
    · split <;> rfl
  all_goals rfl

/-- A statement of a worker that does not use the queue does the same whatever is in it. -/
theorem workerStep_queue (h : (s.worker i).uses .queue = false) (queue : Queue) :
    workerStep env { s with queue } i = (workerStep env s i).map fun t => { t with queue } := by
  cases hm : s.worker i <;> rw [hm] at h <;> simp only [workerStep, hm] <;> try (split_ifs <;> rfl)
  case look => cases h
  case unlock2 element => cases element <;> rfl
  case signal2 => split <;> rfl
  all_goals rfl

theorem workerStep_numOfCurrWorking (h : (s.worker i).uses .numOfCurrWorking = false) (numOfCurrWorking : ℤ) :
    workerStep env { s with numOfCurrWorking } i =
      (workerStep env s i).map fun t => { t with numOfCurrWorking } := by
  cases hm : s.worker i <;> rw [hm] at h <;> simp only [workerStep, hm] <;> try (split_ifs <;> rfl)
  case look | dec => cases h
  case unlock2 element => cases element <;> rfl
  case signal2 => split <;> rfl
  all_goals rfl

end Uses

/-- `main` uses a shared variable with a mutex, and writes the queue with `mutex`. -/
theorem main_protected {pc : MainPc} {x : Shared} (h : pc.uses x = true) :
    pc.holdsMutex2 = true ∨ x = .queue ∧ pc.holdsMutex = true := by
  cases pc <;> cases x <;> first | exact .inl rfl | exact .inr ⟨rfl, rfl⟩ | cases h

/-- A worker uses the queue with both mutexes, and `num_of_curr_working` with `mutex2`. -/
theorem worker_protected {pc : WorkerPc} {x : Shared} (h : pc.uses x = true) :
    pc.holdsMutex2 = true ∧ (x = .queue → pc.holdsMutex = true) := by
  cases pc with
  | look signalled => exact ⟨rfl, fun _ => rfl⟩
  | dec j =>
    cases x with
    | queue => cases h
    | numOfCurrWorking => exact ⟨rfl, fun hx => by cases hx⟩
  | _ => cases h

theorem uses_of_writes {s : Sys n} {t : Thread n} {x : Shared} (h : s.writes t x = true) : s.uses t x = true := by
  cases t with
  | main =>
    show s.main.uses x = true
    replace h : s.main.writes x = true := h
    cases hm : s.main <;> rw [hm] at h <;> cases x <;> first | rfl | cases h
  | worker i => exact h

/-- **Two threads that use a shared variable hold a mutex in common**, unless both only read it. -/
theorem common_mutex {s : Sys n} {t u : Thread n} {x : Shared} (hne : t ≠ u) (ht : s.writes t x = true)
    (hu : s.uses u x = true) :
    s.holdsMutex t = true ∧ s.holdsMutex u = true ∨ s.holdsMutex2 t = true ∧ s.holdsMutex2 u = true := by
  cases t with
  | main =>
    cases u with
    | main => exact absurd rfl hne
    | worker j =>
      obtain ⟨h₂, h₁⟩ := worker_protected hu
      rcases main_protected (uses_of_writes ht) with hm | ⟨hx, hm⟩
      · exact .inr ⟨hm, h₂⟩
      · exact .inl ⟨hm, h₁ hx⟩
  | worker i =>
    obtain ⟨h₂, h₁⟩ := worker_protected (uses_of_writes ht)
    cases u with
    | main =>
      rcases main_protected hu with hm | ⟨hx, hm⟩
      · exact .inr ⟨h₂, hm⟩
      · exact .inl ⟨h₁ hx, hm⟩
    | worker j => exact .inr ⟨h₂, (worker_protected hu).1⟩

/-- **There is no data race**, in any state of any run, under any policy: the owner of a mutex is exactly the
thread between its lock and its unlock, and while a thread is about to write the queue or
`num_of_curr_working`, no other is about to read or write it. -/
theorem race_free {conf : Conf} {capacity : ℤ} {ls : List (Label n)} {s : Sys n}
    (hrun : Run (Step conf) (init n capacity) ls s) :
    (∀ t, s.holdsMutex t = true ↔ s.mutex = some t) ∧ (∀ t, s.holdsMutex2 t = true ↔ s.mutex2 = some t) ∧
      ∀ t u x, t ≠ u → s.writes t x = true → s.uses u x = false := by
  have h := locked_of_run hrun
  refine ⟨h.mutex, h.mutex2, fun t u x hne ht => ?_⟩
  by_contra hu
  rcases common_mutex hne ht (Bool.eq_true_of_not_eq_false hu) with ⟨h₁, h₂⟩ | ⟨h₁, h₂⟩
  · exact hne (h.mutex.exclusive h₁ h₂)
  · exact hne (h.mutex2.exclusive h₁ h₂)

/-- A worker is about to look at the queue, and `main` has a connection to test for. -/
theorem race_free_look : ∃ s : Sys 1, Run (Step ⟨.dt, 0⟩) (init 1 1)
      [.worker 0 (envOf 0 none), .worker 0 (envOf 0 none), .main (envOf 0 none)] s ∧
    s.writes (.worker 0) .queue = true ∧ s.uses .main .queue = false := by
  obtain ⟨s, hs, hw⟩ : ∃ s : Sys 1, exec (step ⟨.dt, 0⟩) (init 1 1)
      [.worker 0 (envOf 0 none), .worker 0 (envOf 0 none), .main (envOf 0 none)] = some s ∧
      s.writes (.worker 0) .queue = true := ⟨_, rfl, rfl⟩
  have hrun : Run (Step ⟨.dt, 0⟩) (init 1 1)
    [.worker 0 (envOf 0 none), .worker 0 (envOf 0 none), .main (envOf 0 none)] s := Run.of_exec hs
  exact ⟨s, hrun, hw, (race_free hrun).2.2 (.worker 0) .main .queue (by simp) hw⟩

end OsHomework.Server
