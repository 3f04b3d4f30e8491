import OsHomework.Server.Capacity

/-!
# No wake-up is lost

`main` signals `cond` after it has enqueued and unlocked, and a worker signals `cond2` after it has
decremented and unlocked.

* `MainPc.holdsMutex`, `WorkerPc.holdsMutex`: who holds `mutex`;
* `WorkerPc.sawEmpty`: the worker has found the queue empty and is going to wait. It keeps `mutex` from
  the one to the other, so nothing is enqueued in between;
* `WorkerPc.signalled`: the worker was woken by a signal and has not looked at the queue since;
* `MainPc.owesSignal`, `WorkerPc.owesSignal2`: between the change and the signal;
* `Alert`: the invariant; **`Alert.mainStep`**, **`Alert.workerStep`**, `Alert.step`;
* **`no_lost_wakeup`**: what it says about every run;
* **`queueSize_le_woken`**: the same count, of the workers that a signal has woken and that do not run yet.
-/

set_option autoImplicit false

namespace OsHomework.Server

open Queue Finset

def MainPc.holdsMutex : MainPc → Bool
  | .headBody _ | .randomBody _ | .dropUnlock _ | .dropUnlockClose _ | .dropUnlockDone | .enqueueBody _
  | .enqueueUnlock => true
  | _ => false

def WorkerPc.holdsMutex : WorkerPc → Bool
  | .lock2 _ | .look _ | .unlock2 _ | .wait | .unlock _ => true
  | _ => false

/-- The worker has found the queue empty and is going to wait. -/
def WorkerPc.sawEmpty : WorkerPc → Bool
  | .unlock2 none | .wait => true
  | _ => false

/-- A signal has woken the worker, and it has not looked at the queue since. -/
def WorkerPc.signalled : WorkerPc → Bool
  | .woken b | .lock2 b | .look b => b
  | _ => false

/-- A signal has woken the worker, and it does not run yet. -/
def WorkerPc.wokenUp : WorkerPc → Bool
  | .woken b => b
  | _ => false

/-- `main` has enqueued and not yet signalled. -/
def MainPc.owesSignal : MainPc → Bool
  | .enqueueUnlock | .signal => true
  | _ => false

/-- The worker has decremented and not yet signalled. -/
def WorkerPc.owesSignal2 : WorkerPc → Bool
  | .decUnlock _ | .signal2 _ => true
  | _ => false

theorem WorkerPc.holdsMutex_of_sawEmpty {pc : WorkerPc} (h : pc.sawEmpty = true) :
    pc.holdsMutex = true := by
  cases pc <;> simp_all [WorkerPc.sawEmpty, WorkerPc.holdsMutex]

/-- A worker that runs and has not looked at the queue yet holds `mutex`. -/
theorem WorkerPc.signalled_of_not_holdsMutex {pc : WorkerPc} (h : pc.holdsMutex = false) :
    pc.signalled = pc.wokenUp := by
  cases pc with
  | lock2 | look => cases h
  | _ => rfl

variable {n : ℕ}

/-- The number of workers that were signalled and have not looked at the queue since. -/
def numSignalled (worker : Fin n → WorkerPc) : ℕ := ∑ i, (worker i).signalled.toNat

theorem numSignalled_update (worker : Fin n → WorkerPc) (i : Fin n) (pc : WorkerPc) :
    numSignalled (Function.update worker i pc) + (worker i).signalled.toNat =
      numSignalled worker + pc.signalled.toNat :=
  sum_update (fun pc : WorkerPc => pc.signalled.toNat) worker i pc

/-- The number of workers that were signalled and do not run yet. -/
def numWoken (worker : Fin n → WorkerPc) : ℕ := ∑ i, (worker i).wokenUp.toNat

/-- **Every waiting connection has a worker that will look for it**, and `main` does not sleep while there
is room, unless a signal is on its way. -/
structure Alert (conf : Conf) (s : Sys n) : Prop where
  placed : Placed s
  mainOwns : s.main.holdsMutex = true → s.mutex = some .main
  workerOwns : ∀ i, (s.worker i).holdsMutex = true → s.mutex = some (.worker i)
  empty : ∀ i, (s.worker i).sawEmpty = true → s.queue.queueSize = 0
  cond : ∀ i, s.worker i = .waiting →
    s.queue.queueSize ≤ numSignalled s.worker + s.main.owesSignal.toNat
  cond2 : ∀ c, s.main = .waiting c → ¬ waitCond conf s → ∃ i, (s.worker i).owesSignal2 = true

section Steps

variable {conf : Conf} {env : Env n} {s t : Sys n} {i : Fin n}

theorem Placed.size_nonneg (h : Placed s) : 0 ≤ s.queue.queueSize := by
  rw [h.wf.size]; exact Int.natCast_nonneg _

theorem Alert.main_moves (h : Alert conf s) (hp : Placed t) (hw : t.worker = s.worker)
    (hsize : t.queue.queueSize ≤ s.queue.queueSize)
    (howes : s.main.owesSignal = true → t.main.owesSignal = true)
    (hown : t.main.holdsMutex = true → t.mutex = some .main)
    (hkeep : ∀ i, s.mutex = some (.worker i) → t.mutex = some (.worker i))
    (hwait : ∀ c, t.main = .waiting c → waitCond conf t) : Alert conf t := by
  refine ⟨hp, hown, ?_, ?_, ?_, fun c hc hn => absurd (hwait c hc) hn⟩
  · rw [hw]
    exact fun i hi => hkeep i (h.workerOwns i hi)
  · rw [hw]
    intro i hi
    have h₁ := h.empty i hi
    have h₂ := hp.size_nonneg
    omega
  · rw [hw]
    intro i hi
    have h₁ := h.cond i hi
    have h₂ : s.main.owesSignal.toNat ≤ t.main.owesSignal.toNat := Bool.toNat_le_toNat howes
    omega

/-- A step of `main` outside the critical sections of `mutex`. -/
theorem Alert.main_outside {pc : MainPc} {b : Option (Thread n)} {k : ℤ} {a : ℕ} {l : List ℤ}
    (h : Alert conf s)
    (hp : Placed { s with capacity := k, mutex2 := b, main := pc, accepted := a, closed := l })
    (howes : s.main.owesSignal = false) (hown : pc.holdsMutex = false)
    (hwait : ∀ c, pc = .waiting c → waitCond conf s ∧ k = s.capacity) :
    Alert conf { s with capacity := k, mutex2 := b, main := pc, accepted := a, closed := l } := by
  apply h.main_moves hp rfl le_rfl (by simp [howes]) (by simp [hown]) (fun _ hi => hi)
  intro c hc
  obtain ⟨h₁, rfl⟩ := hwait c hc
  exact h₁

theorem Alert.main_locks {pc : MainPc} (h : Alert conf s)
    (hp : Placed { s with mutex := some .main, main := pc }) (howes : s.main.owesSignal = false)
    (hfree : s.mutex = none) (hwait : ∀ c, pc ≠ .waiting c) :
    Alert conf { s with mutex := some .main, main := pc } :=
  h.main_moves hp rfl le_rfl (by simp [howes]) (fun _ => rfl)
    (fun i hi => absurd (hfree.symm.trans hi) (by simp)) fun c hc => absurd hc (hwait c)

theorem Alert.main_unlocks {pc : MainPc} (h : Alert conf s)
    (hp : Placed { s with mutex := none, main := pc }) (hheld : s.main.holdsMutex = true)
    (howes : s.main.owesSignal = true → pc.owesSignal = true) (hown : pc.holdsMutex = false)
    (hwait : ∀ c, pc ≠ .waiting c) : Alert conf { s with mutex := none, main := pc } :=
  h.main_moves hp rfl le_rfl howes (by simp [hown])
    (fun i hi => absurd ((h.mainOwns hheld).symm.trans hi) (by simp)) fun c hc => absurd hc (hwait c)

/-- **`main` enqueues**: no worker is between its look and its wait, since `main` has `mutex`. -/
theorem Alert.enqueues {q : Queue} (h : Alert conf s)
    (hp : Placed { s with queue := q, main := .enqueueUnlock }) (hheld : s.main.holdsMutex = true)
    (howes : s.main.owesSignal = false) (hsize : q.queueSize = s.queue.queueSize + 1) :
    Alert conf { s with queue := q, main := .enqueueUnlock } := by
  have hmain := h.mainOwns hheld
  refine ⟨hp, fun _ => hmain, h.workerOwns, fun i hi => ?_, fun i hi => ?_, by simp⟩
  · have := h.workerOwns i (WorkerPc.holdsMutex_of_sawEmpty hi)
    rw [hmain] at this
    simp at this
  · have := h.cond i hi
    rw [howes] at this
    simp only [hsize, MainPc.owesSignal, Bool.toNat_true, Bool.toNat_false] at this ⊢
    omega

/-- **`main` signals `cond`**: a waiter, if there is one, counts as signalled from now on. -/
theorem Alert.signals (h : Alert conf s) (hm : s.main = .signal) (hp : Placed t)
    (hs : signalCond env s = some t) : Alert conf t := by
  unfold signalCond at hs
  split at hs
  · next i _ =>
    split_ifs at hs with hi
    cases hs
    have hi := isWaiting_iff.mp hi
    have hsig := numSignalled_update s.worker i (.woken true)
    rw [hi] at hsig
    refine ⟨hp, by simp [MainPc.holdsMutex], fun j hj => ?_, fun j hj => ?_, fun j hj => ?_, by simp⟩
    · by_cases hji : j = i
      · subst hji
        simp [WorkerPc.holdsMutex] at hj
      · simp only [Function.update_of_ne hji] at hj
        exact h.workerOwns j hj
    · by_cases hji : j = i
      · subst hji
        simp [WorkerPc.sawEmpty] at hj
      · simp only [Function.update_of_ne hji] at hj
        exact h.empty j hj
    · have := h.cond i hi
      rw [hm] at this
      simp only [WorkerPc.signalled, MainPc.owesSignal, Bool.toNat_true, Bool.toNat_false] at this hsig ⊢
      omega
  · split_ifs at hs with hno
    cases hs
    refine ⟨hp, by simp [MainPc.holdsMutex], h.workerOwns, h.empty, fun j hj => ?_, by simp⟩
    have := hno j
    simp only at hj
    rw [hj] at this
    exact absurd this (by simp [WorkerPc.isWaiting])

/-- **A step of `main`.** -/
theorem Alert.mainStep (h : Alert conf s) (hs : mainStep conf env s = some t) : Alert conf t := by
  have hp := h.placed.mainStep hs
  have hown := h.mainOwns
  cases hm : s.main with
  | headBody c =>
    rw [hm] at hown
    simp only [Server.mainStep, hm] at hs
    rcases headBody_cases h.placed.holds hs with ⟨-, rfl⟩ | ⟨x, q, -, -, hsize, rfl⟩
    · exact h.main_moves hp rfl le_rfl (by simp [hm, MainPc.owesSignal]) (fun _ => hown rfl)
        (fun _ hi => hi) (by simp)
    · exact h.main_moves hp rfl (by simp only; omega) (by simp [hm, MainPc.owesSignal])
        (fun _ => hown rfl) (fun _ hi => hi) (by simp)
  | randomBody c =>
    rw [hm] at hown
    simp only [Server.mainStep, hm] at hs
    rcases randomBody_cases h.placed.holds hs with ⟨-, rfl⟩ | ⟨q, fds, -, hw, -, hsub, -, rfl⟩
    · exact h.main_moves hp rfl le_rfl (by simp [hm, MainPc.owesSignal]) (fun _ => hown rfl)
        (fun _ hi => hi) (by simp)
    · refine h.main_moves hp rfl ?_ (by simp [hm, MainPc.owesSignal])
        (fun _ => hown rfl) (fun _ hi => hi) (by simp)
      have := hsub.length_le
      simp only [hw.size_connfds, h.placed.wf.size_connfds]
      omega
  | enqueueBody c =>
    obtain ⟨q, -, -, hsize, rfl⟩ := enqueueBody_cases h.placed.holds hm hs
    exact h.enqueues hp (by rw [hm]; rfl) (by rw [hm]; rfl) hsize
  | signal =>
    simp only [Server.mainStep, hm] at hs
    exact h.signals hm hp hs
  | headLock c | randomLock c | enqueueLock c =>
    simp only [Server.mainStep, hm] at hs
    split_ifs at hs with hfree
    cases hs
    exact h.main_locks hp (by rw [hm]; rfl) hfree (by simp)
  | dropUnlock c | dropUnlockClose c | dropUnlockDone | enqueueUnlock =>
    simp only [Server.mainStep, hm, Option.some.injEq] at hs
    subst hs
    exact h.main_unlocks hp (by rw [hm]; rfl) (by rw [hm]; simp [MainPc.owesSignal]) rfl (by simp)
  | overload c =>
    simp only [Server.mainStep, hm, Option.some.injEq] at hs
    subst hs
    refine h.main_outside hp (by rw [hm]; rfl) ?_ fun c hc => ?_
    · cases conf.policy <;> rfl
    · cases hpol : conf.policy <;> simp [hpol, handleOverloading] at hc
  | waitTest c =>
    simp only [Server.mainStep, hm] at hs
    split_ifs at hs with hwait <;> cases hs
    · exact h.main_outside hp (by rw [hm]; rfl) rfl fun _ _ => ⟨hwait, rfl⟩
    · exact h.main_outside hp (by rw [hm]; rfl) rfl (by simp)
  | waiting c => simp [Server.mainStep, hm] at hs
  | testUnlock c isOverloaded | waitUnlock c | close c =>
    simp only [Server.mainStep, hm, Option.some.injEq] at hs
    subst hs
    refine h.main_outside hp (by rw [hm]; rfl) ?_ ?_ <;> split_ifs <;> simp [MainPc.holdsMutex]
  | grow =>
    simp only [Server.mainStep, hm, Option.some.injEq] at hs
    subst hs
    exact h.main_outside hp (by rw [hm]; rfl) rfl (by simp)
  | _ =>
    simp only [Server.mainStep, hm] at hs
    try split_ifs at hs
    cases hs
    exact h.main_outside hp (by rw [hm]; rfl) rfl (by simp)

/-- **A worker moves on**, and the queue does not grow. -/
theorem Alert.worker_moves {pc : WorkerPc} (h : Alert conf s) (hp : Placed t)
    (hw : t.worker = Function.update s.worker i pc) (hmain : t.main = s.main)
    (hsize : t.queue.queueSize + (s.worker i).signalled.toNat ≤
      s.queue.queueSize + pc.signalled.toNat ∨ t.queue.queueSize = 0)
    (hle : t.queue.queueSize ≤ s.queue.queueSize)
    (hown : pc.holdsMutex = true → t.mutex = some (.worker i))
    (hkeep : ∀ u, u ≠ .worker i → s.mutex = some u → t.mutex = some u)
    (hempty : pc.sawEmpty = true → t.queue.queueSize = 0)
    (hwait : pc = .waiting → t.queue.queueSize = 0)
    (hcond2 : waitCond conf s → ¬ waitCond conf t → pc.owesSignal2 = true)
    (howes : (s.worker i).owesSignal2 = true → pc.owesSignal2 = true ∨ ∀ c, s.main ≠ .waiting c) :
    Alert conf t := by
  have hnon := hp.size_nonneg
  refine ⟨hp, fun hm => ?_, fun j hj => ?_, fun j hj => ?_, fun j hj => ?_, fun c hc hn => ?_⟩
  · rw [hmain] at hm
    exact hkeep _ (by simp) (h.mainOwns hm)
  · rw [hw] at hj
    by_cases hji : j = i
    · subst hji
      rw [Function.update_self] at hj
      exact hown hj
    · rw [Function.update_of_ne hji] at hj
      exact hkeep _ (by simp [hji]) (h.workerOwns j hj)
  · rw [hw] at hj
    by_cases hji : j = i
    · subst hji
      rw [Function.update_self] at hj
      exact hempty hj
    · rw [Function.update_of_ne hji] at hj
      have := h.empty j hj
      omega
  · rw [hw] at hj ⊢
    rw [hmain]
    rcases hsize with hsize | hzero
    · by_cases hji : j = i
      · subst hji
        rw [Function.update_self] at hj
        rw [hwait hj]
        omega
      · rw [Function.update_of_ne hji] at hj
        have h₁ := h.cond j hj
        have h₂ := numSignalled_update s.worker i pc
        omega
    · rw [hzero]
      omega
  · rw [hmain] at hc
    rw [hw]
    by_cases hs : waitCond conf s
    · exact ⟨i, by rw [Function.update_self]; exact hcond2 hs hn⟩
    · obtain ⟨j, hj⟩ := h.cond2 c hc hs
      by_cases hji : j = i
      · subst hji
        exact ⟨j, by rw [Function.update_self]; exact (howes hj).resolve_right fun hno => hno c hc⟩
      · exact ⟨j, by rwa [Function.update_of_ne hji]⟩

theorem waitCond_congr (hq : t.queue.queueSize + t.numOfCurrWorking =
    s.queue.queueSize + s.numOfCurrWorking) (hc : t.capacity = s.capacity) :
    waitCond conf t ↔ waitCond conf s := by
  unfold waitCond
  rw [hq, hc]

theorem Alert.goto {pc : WorkerPc} {a b : Option (Thread n)} {l : List ℤ} (h : Alert conf s)
    (hp : Placed ({ s with mutex := a, mutex2 := b, closed := l }.goto i pc))
    (hsig : (s.worker i).signalled = true → pc.signalled = true)
    (hown : pc.holdsMutex = true → a = some (.worker i))
    (hkeep : ∀ u, u ≠ .worker i → s.mutex = some u → a = some u)
    (hempty : pc.sawEmpty = true ∨ pc = .waiting → s.queue.queueSize = 0)
    (howes : (s.worker i).owesSignal2 = true → pc.owesSignal2 = true ∨ ∀ c, s.main ≠ .waiting c) :
    Alert conf ({ s with mutex := a, mutex2 := b, closed := l }.goto i pc) := by
  refine h.worker_moves hp rfl rfl (.inl ?_) le_rfl hown hkeep (fun he => hempty (.inl he))
    (fun he => hempty (.inr he)) (fun h₁ h₂ => absurd h₁ h₂) howes
  have := Bool.toNat_le_toNat hsig
  show s.queue.queueSize + _ ≤ s.queue.queueSize + _
  omega

theorem Alert.looks {b : Bool} (h : Alert conf s) (hm : s.worker i = .look b) (hp : Placed t)
    (hs : lookBody env s i = some t) : Alert conf t := by
  have hown : s.mutex = some (.worker i) := h.workerOwns i (by rw [hm]; rfl)
  have hb := Bool.toNat_le b
  rcases lookBody_cases h.placed.holds hs with ⟨hc, rfl⟩ | ⟨q, j, hc, hw, hsize, rfl⟩
  · have h0 : s.queue.queueSize = 0 := by rw [h.placed.wf.size_connfds, hc]; rfl
    exact h.worker_moves hp rfl rfl (.inr h0) le_rfl (fun _ => hown) (fun _ _ hu => hu) (fun _ => h0)
      (by simp) (fun h₁ h₂ => absurd h₁ h₂) (by simp [hm, WorkerPc.owesSignal2])
  · refine h.worker_moves hp rfl rfl (.inl ?_) ?_ (fun _ => hown) (fun _ _ hu => hu)
      (by simp [WorkerPc.sawEmpty]) (by simp) (fun h₁ h₂ => absurd h₁ ?_)
      (by simp [hm, WorkerPc.owesSignal2])
    · rw [hm]
      simp only [Sys.goto, hsize, WorkerPc.signalled, Bool.toNat_false]
      omega
    · simp only [Sys.goto]
      omega
    · rwa [waitCond_congr (s := s) (by simp only [Sys.goto]; omega) (by rfl)] at h₂

/-- **A step of a worker.** -/
theorem Alert.workerStep (h : Alert conf s) (hs : workerStep env s i = some t) : Alert conf t := by
  have hp := h.placed.workerStep hs
  have hown := h.workerOwns i
  have hsaw := h.empty i
  cases hm : s.worker i with
  | look signalled =>
    simp only [Server.workerStep, hm] at hs
    exact h.looks hm hp hs
  | dec j =>
    simp only [Server.workerStep, hm, Option.some.injEq] at hs
    subst hs
    exact h.worker_moves hp rfl rfl (.inl (by rw [hm]; exact le_rfl)) le_rfl
      (by simp [WorkerPc.holdsMutex]) (fun _ _ hu => hu) (by simp [WorkerPc.sawEmpty]) (by simp)
      (fun _ _ => rfl) (fun _ => .inl rfl)
  | signal2 j =>
    simp only [Server.workerStep, hm] at hs
    split at hs
    · next c hc =>
      -- `main` wakes up, and nothing is owed to it any more
      cases hs
      have hwoken : Alert conf { s with main := .woken c } :=
        h.main_outside (h.placed.congr rfl (by rw [hc]; rfl) rfl rfl rfl rfl) (by rw [hc]; rfl) rfl
          (by simp)
      exact hwoken.goto hp (by simp [hm, WorkerPc.signalled]) (by simp [WorkerPc.holdsMutex])
        (fun _ _ hu => hu) (by simp [WorkerPc.sawEmpty]) fun _ => .inr (by simp)
    · next hno =>
      cases hs
      exact h.goto hp (by simp [hm, WorkerPc.signalled]) (by simp [WorkerPc.holdsMutex])
        (fun _ _ hu => hu) (by simp [WorkerPc.sawEmpty]) fun _ => .inr hno
  | waiting => simp [Server.workerStep, hm] at hs
  | lock | woken signalled =>
    simp only [Server.workerStep, hm] at hs
    split_ifs at hs with hfree
    cases hs
    exact h.goto hp (by simp [hm, WorkerPc.signalled]) (fun _ => rfl)
      (fun u _ hu => absurd (hfree.symm.trans hu) (by simp)) (by simp [WorkerPc.sawEmpty])
      (by simp [hm, WorkerPc.owesSignal2])
  | unlock2 element =>
    rw [hm] at hown hsaw
    cases element <;> simp only [Server.workerStep, hm, Option.some.injEq] at hs <;> subst hs
    · exact h.goto hp (by simp [hm, WorkerPc.signalled]) (fun _ => hown rfl) (fun _ _ hu => hu)
        (fun _ => hsaw rfl) (by simp [hm, WorkerPc.owesSignal2])
    · exact h.goto hp (by simp [hm, WorkerPc.signalled]) (fun _ => hown rfl) (fun _ _ hu => hu)
        (by simp [WorkerPc.sawEmpty]) (by simp [hm, WorkerPc.owesSignal2])
  | wait | unlock j =>
    -- the mutex is released; it was the worker's
    rw [hm] at hown hsaw
    simp only [Server.workerStep, hm, Option.some.injEq] at hs
    subst hs
    refine h.goto hp (by simp [hm, WorkerPc.signalled]) (by simp [WorkerPc.holdsMutex])
      (fun u hu hmu => absurd (Option.some.inj ((hown rfl).symm.trans hmu)).symm hu) ?_
      (by simp [hm, WorkerPc.owesSignal2])
    first
      | exact fun _ => hsaw rfl
      | simp [WorkerPc.sawEmpty]
  | lock2 signalled =>
    rw [hm] at hown
    simp only [Server.workerStep, hm] at hs
    split_ifs at hs
    cases hs
    exact h.goto hp (by simp [hm, WorkerPc.signalled]) (fun _ => hown rfl) (fun _ _ hu => hu)
      (by simp [WorkerPc.sawEmpty]) (by simp [hm, WorkerPc.owesSignal2])
  | _ =>
    simp only [Server.workerStep, hm] at hs
    try split_ifs at hs
    cases hs
    exact h.goto hp (by simp [hm, WorkerPc.signalled]) (by simp [WorkerPc.holdsMutex])
      (fun _ _ hu => hu) (by simp [WorkerPc.sawEmpty]) (by simp [hm, WorkerPc.owesSignal2])

theorem Alert.step {l : Label n} (h : Alert conf s) (hs : Step conf s l t) : Alert conf t := by
  have hp := h.placed.step hs
  cases l with
  | main env => exact h.mainStep hs
  | worker i env => exact h.workerStep hs
  | spuriousMain =>
    simp only [Step, Server.step] at hs
    split at hs
    · next c hc =>
      cases hs
      exact h.main_outside hp (by rw [hc]; rfl) rfl (by simp)
    · cases hs
  | spuriousWorker i =>
    simp only [Step, Server.step] at hs
    split_ifs at hs with hi
    cases hs
    have hi := isWaiting_iff.mp hi
    exact h.goto hp (by simp [hi, WorkerPc.signalled]) (by simp [WorkerPc.holdsMutex])
      (fun _ _ hu => hu) (by simp [WorkerPc.sawEmpty]) (by simp [hi, WorkerPc.owesSignal2])

end Steps

/-- With no worker in a critical section, those that were signalled do not run yet. -/
theorem Alert.numSignalled_eq {conf : Conf} {s : Sys n} (h : Alert conf s)
    (hfree : ∀ i, s.mutex ≠ some (.worker i)) : numSignalled s.worker = numWoken s.worker := by
  refine sum_congr rfl fun i _ => ?_
  rw [WorkerPc.signalled_of_not_holdsMutex]
  rw [← Bool.not_eq_true]
  exact fun hholds => hfree i (h.workerOwns i hholds)

theorem alert_init (conf : Conf) (n : ℕ) (capacity : ℤ) : Alert conf (init n capacity) :=
  ⟨placed_init n capacity, by simp [init, MainPc.holdsMutex], by simp [init, WorkerPc.holdsMutex],
    by simp [init, WorkerPc.sawEmpty], by simp [init], by simp [init]⟩

/-- **No wake-up is lost**, in any state of any run, under any policy.

A worker that is blocked on `cond` leaves no more connections waiting than there are signalled workers that
have not looked at the queue since, and one more if `main` is between its enqueue and its signal. While
`main` is blocked on `cond2` and its condition is false, a worker is between its decrement and its signal.
So the server never sleeps as a whole. -/
theorem no_lost_wakeup {conf : Conf} {capacity : ℤ} {ls : List (Label n)} {s : Sys n} (hn : 1 ≤ n)
    (hcap : 1 ≤ capacity) (hrun : Run (Step conf) (init n capacity) ls s) :
    ((∃ i, s.worker i = .waiting) →
      s.queue.queueSize ≤ numSignalled s.worker + s.main.owesSignal.toNat) ∧
    (∀ c, s.main = .waiting c → ¬ waitCond conf s → ∃ i, (s.worker i).owesSignal2 = true) ∧
    ¬ ((∃ c, s.main = .waiting c) ∧ ∀ i, s.worker i = .waiting) := by
  have h : Alert conf s := hrun.invariant (alert_init conf n capacity) fun _ _ _ h hs => h.step hs
  have ht : Tally conf capacity s :=
    hrun.invariant (tally_init conf n capacity) fun _ _ _ h hs => h.step hs
  refine ⟨fun ⟨i, hi⟩ => h.cond i hi, h.cond2, ?_⟩
  rintro ⟨⟨c, hc⟩, hall⟩
  -- nothing is waiting and nothing is in work
  have hsize : s.queue.queueSize = 0 := by
    have h₁ := h.cond ⟨0, hn⟩ (hall _)
    have h₂ := h.placed.size_nonneg
    have h₃ : numSignalled s.worker = 0 := by
      simp [numSignalled, hall, WorkerPc.signalled]
    rw [hc, h₃] at h₁
    simp only [MainPc.owesSignal, Bool.toNat_false] at h₁
    omega
  have hwork : s.numOfCurrWorking = 0 := by
    rw [ht.counted]
    simp [numBusy, hall, WorkerPc.busy]
  have hno : ¬ waitCond conf s := by
    have := ht.initial
    unfold waitCond
    rw [hsize, hwork]
    split
    · simp
    · omega
  obtain ⟨i, hi⟩ := h.cond2 c hc hno
  rw [hall i] at hi
  simp [WorkerPc.owesSignal2] at hi

/-- **No more connections wait than workers were woken for them**, and one more if `main` is between its enqueue and
its signal: in every state in which a worker is blocked on `cond` and no worker is in a critical section of `mutex`. -/
theorem queueSize_le_woken {conf : Conf} {capacity : ℤ} {ls : List (Label n)} {s : Sys n}
    (hrun : Run (Step conf) (init n capacity) ls s) (hfree : ∀ i, s.mutex ≠ some (.worker i)) {i : Fin n}
    (hi : s.worker i = .waiting) : s.queue.queueSize ≤ numWoken s.worker + s.main.owesSignal.toNat := by
  have h : Alert conf s := hrun.invariant (alert_init conf n capacity) fun _ _ _ h hs => h.step hs
  rw [← h.numSignalled_eq hfree]
  exact h.cond i hi

/-- Two workers go to sleep, a connection wakes the first of them, and another one puts `main` to sleep. -/
def sleepers : List (Label 2) :=
  take 0 ++ take 1 ++ arrive 1 (some 0) ++ List.replicate 7 (.main (envOf 0 none))

/-- The second worker and `main` are blocked, and one connection is waiting for the first worker. -/
theorem no_lost_wakeup_sleepers : ∃ s, Run (Step ⟨.block, 0⟩) (init 2 1) sleepers s ∧
    s.worker 1 = .waiting ∧ s.main = .waiting ⟨1, 0⟩ ∧ s.queue.queueSize = 1 ∧
    s.queue.queueSize ≤ numSignalled s.worker + s.main.owesSignal.toNat := by
  obtain ⟨s, hs, hw, hm, hq⟩ : ∃ s, exec (step ⟨.block, 0⟩) (init 2 1) sleepers = some s ∧
      s.worker 1 = .waiting ∧ s.main = .waiting ⟨1, 0⟩ ∧ s.queue.queueSize = 1 :=
    ⟨_, rfl, rfl, rfl, rfl⟩
  have hrun : Run (Step ⟨.block, 0⟩) (init 2 1) sleepers s := Run.of_exec hs
  exact ⟨s, hrun, hw, hm, hq, (no_lost_wakeup (by norm_num) le_rfl hrun).1 ⟨1, hw⟩⟩

end OsHomework.Server
