import OsHomework.Server.Places

/-!
# The capacity of the server

The test for an overload is made under `mutex2`, and the enqueue later under `mutex`. The bound holds
because only `main` enqueues: between the two, the workers can only lower the sum.

* `WorkerPc.busy`: the worker has dequeued and not yet decremented;
* `mainStep_frame`, **`workerStep_frame`**: what a step changes of the count, the load and the capacity;
* `Tally`: `num_of_curr_working` counts the busy workers, under every policy;
* `MainPc.admits`: `main` is on its way to the enqueue and there is room for one more;
* `Bounded`: the invariant; **`Bounded.mainStep`**, `Bounded.workerStep`, `Bounded.step`. The drop at random is
  the one statement that needs a hypothesis;
* **`capacity_bound`**: the bound for the policies other than `random`.
-/

set_option autoImplicit false

namespace OsHomework.Server

open Queue Finset

/-- Dequeued and not yet decremented. -/
def WorkerPc.busy : WorkerPc → Bool
  | .unlock2 (some _) | .unlock _ | .handle _ | .decLock _ | .dec _ => true
  | .lock | .lock2 _ | .look _ | .unlock2 none | .wait | .waiting | .woken _ | .decUnlock _ | .signal2 _
  | .close _ => false

/-- `main` is going to enqueue, having seen that there is room. -/
def MainPc.admits (conf : Conf) : MainPc → Bool
  | .testUnlock _ isOverloaded => !isOverloaded
  | .waitUnlock _ => conf.policy ≠ .bf
  | .dropUnlock _ | .enqueueLock _ | .enqueueBody _ => true
  | _ => false

/-- `main` is in the random policy. -/
def MainPc.inRandom : MainPc → Bool
  | .randomLock _ | .randomBody _ => true
  | _ => false

variable {n : ℕ}

/-- The number of busy workers. -/
def numBusy (worker : Fin n → WorkerPc) : ℕ := ∑ i, (worker i).busy.toNat

theorem numBusy_eq_card (worker : Fin n → WorkerPc) :
    numBusy worker = (univ.filter fun i => (worker i).busy = true).card := by
  rw [card_filter, numBusy]
  apply sum_congr rfl
  intro i _
  cases (worker i).busy <;> rfl

theorem numBusy_update (worker : Fin n → WorkerPc) (i : Fin n) (pc : WorkerPc) :
    numBusy (Function.update worker i pc) + (worker i).busy.toNat = numBusy worker + pc.busy.toNat :=
  sum_update (fun pc : WorkerPc => pc.busy.toNat) worker i pc

/-- The connections waiting and in work. -/
def load (s : Sys n) : ℤ := s.queue.queueSize + s.numOfCurrWorking

/-- **`num_of_curr_working` counts the busy workers**, and the capacity lies between its initial value and
its limit. This holds under every policy. -/
structure Tally (conf : Conf) (capacity : ℤ) (s : Sys n) : Prop where
  placed : Placed s
  counted : s.numOfCurrWorking = numBusy s.worker
  initial : capacity ≤ s.capacity
  limit : s.capacity ≤ max capacity conf.maxSize

/-- **The load is at most the capacity**, and less if `main` is going to enqueue. -/
structure Bounded (conf : Conf) (capacity : ℤ) (s : Sys n) : Prop extends Tally conf capacity s where
  le : load s ≤ s.capacity
  room : s.main.admits conf = true → load s < s.capacity
  random : s.main.inRandom = true → conf.policy = .random

section Tally

variable {conf : Conf} {capacity : ℤ} {env : Env n} {s t : Sys n} {i : Fin n}

/-- A step of `main` wakes at most one worker, and changes the capacity only to raise it. -/
theorem mainStep_frame (h : Placed s) (hs : mainStep conf env s = some t) :
    t.numOfCurrWorking = s.numOfCurrWorking ∧
      (t.worker = s.worker ∨
        ∃ i, s.worker i = .waiting ∧ t.worker = Function.update s.worker i (.woken true)) ∧
      (t.capacity = s.capacity ∨ s.capacity < conf.maxSize ∧ t.capacity = s.capacity + 1) := by
  cases hm : s.main with
  | headBody c =>
    simp only [mainStep, hm] at hs
    rcases headBody_cases h.holds hs with ⟨-, rfl⟩ | ⟨x, q, -, -, -, rfl⟩ <;>
      exact ⟨rfl, .inl rfl, .inl rfl⟩
  | randomBody c =>
    simp only [mainStep, hm] at hs
    rcases randomBody_cases h.holds hs with ⟨-, rfl⟩ | ⟨q, fds, -, -, -, -, -, rfl⟩ <;>
      exact ⟨rfl, .inl rfl, .inl rfl⟩
  | enqueueBody c =>
    obtain ⟨q, -, -, -, rfl⟩ := enqueueBody_cases h.holds hm hs
    exact ⟨rfl, .inl rfl, .inl rfl⟩
  | signal =>
    simp only [mainStep, hm, signalCond] at hs
    split at hs
    · next i _ =>
      split_ifs at hs with hi
      cases hs
      exact ⟨rfl, .inr ⟨i, isWaiting_iff.mp hi, rfl⟩, .inl rfl⟩
    · split_ifs at hs
      cases hs
      exact ⟨rfl, .inl rfl, .inl rfl⟩
  | grow =>
    simp only [mainStep, hm, Option.some.injEq] at hs
    subst hs
    refine ⟨rfl, .inl rfl, ?_⟩
    by_cases hlt : s.capacity < conf.maxSize
    · exact .inr ⟨hlt, if_pos hlt⟩
    · exact .inl (if_neg hlt)
  | waiting c => simp [mainStep, hm] at hs
  | waitTest c =>
    simp only [mainStep, hm] at hs
    split_ifs at hs <;> cases hs <;> exact ⟨rfl, .inl rfl, .inl rfl⟩
  | testUnlock c b | waitUnlock c | close c =>
    simp only [mainStep, hm, Option.some.injEq] at hs
    subst hs
    exact ⟨rfl, .inl rfl, .inl rfl⟩
  | _ =>
    simp only [mainStep, hm] at hs
    try split_ifs at hs
    cases hs
    exact ⟨rfl, .inl rfl, .inl rfl⟩

theorem Tally.mainStep (h : Tally conf capacity s) (hs : mainStep conf env s = some t) :
    Tally conf capacity t := by
  obtain ⟨hk, hw, hc⟩ := mainStep_frame h.placed hs
  have hbusy : numBusy t.worker = numBusy s.worker := by
    rcases hw with hw | ⟨i, hi, hw⟩
    · rw [hw]
    · rw [hw]
      exact sum_update_of_eq (f := fun pc : WorkerPc => pc.busy.toNat) (by rw [hi]; rfl)
  have h₁ := h.initial
  have h₂ := h.limit
  exact ⟨h.placed.mainStep hs, by rw [hk, hbusy, h.counted], by omega, by omega⟩

/-- **A step of a worker moves that worker**, keeps the count of the busy ones, and does not raise the
load. -/
theorem workerStep_frame (h : Placed s) (hs : workerStep env s i = some t) :
    ∃ pc, t.worker = Function.update s.worker i pc ∧ t.capacity = s.capacity ∧
      (t.main = s.main ∨ ∃ c, s.main = .waiting c ∧ t.main = .woken c) ∧
      t.numOfCurrWorking + (s.worker i).busy.toNat = s.numOfCurrWorking + pc.busy.toNat ∧
      load t ≤ load s := by
  cases hm : s.worker i with
  | look signalled =>
    simp only [workerStep, hm] at hs
    rcases lookBody_cases h.holds hs with ⟨-, rfl⟩ | ⟨q, j, -, -, hsize, rfl⟩
    · exact ⟨_, rfl, rfl, .inl rfl, rfl, le_rfl⟩
    · -- one less is waiting, one more is in work
      refine ⟨_, rfl, rfl, .inl rfl, ?_, ?_⟩
      · simp [Sys.goto, WorkerPc.busy]
      · simp only [load, Sys.goto]
        omega
  | dec j =>
    simp only [workerStep, hm, Option.some.injEq] at hs
    subst hs
    refine ⟨_, rfl, rfl, .inl rfl, ?_, ?_⟩
    · simp [Sys.goto, WorkerPc.busy]
    · simp only [load, Sys.goto]
      omega
  | unlock2 element =>
    cases element <;> simp only [workerStep, hm, Option.some.injEq] at hs <;>
      (subst hs; exact ⟨_, rfl, rfl, .inl rfl, rfl, le_rfl⟩)
  | signal2 j =>
    simp only [workerStep, hm] at hs
    split at hs
    · next c hc =>
      cases hs
      exact ⟨_, rfl, rfl, .inr ⟨c, hc, rfl⟩, rfl, le_rfl⟩
    · cases hs
      exact ⟨_, rfl, rfl, .inl rfl, rfl, le_rfl⟩
  | waiting => simp [workerStep, hm] at hs
  | _ =>
    simp only [workerStep, hm] at hs
    try split_ifs at hs
    cases hs
    exact ⟨_, rfl, rfl, .inl rfl, rfl, le_rfl⟩

theorem Tally.workerStep (h : Tally conf capacity s) (hs : workerStep env s i = some t) :
    Tally conf capacity t := by
  obtain ⟨pc, hw, hc, -, hk, -⟩ := workerStep_frame h.placed hs
  have hb := numBusy_update s.worker i pc
  have hcount := h.counted
  refine ⟨h.placed.workerStep hs, ?_, by rw [hc]; exact h.initial, by rw [hc]; exact h.limit⟩
  rw [hw]
  omega

theorem Tally.step {l : Label n} (h : Tally conf capacity s) (hs : Step conf s l t) :
    Tally conf capacity t := by
  have hp := h.placed.step hs
  cases l with
  | main env => exact h.mainStep hs
  | worker i env => exact h.workerStep hs
  | spuriousMain =>
    simp only [Step, Server.step] at hs
    split at hs
    · cases hs
      exact ⟨hp, h.counted, h.initial, h.limit⟩
    · cases hs
  | spuriousWorker i =>
    simp only [Step, Server.step] at hs
    split_ifs at hs with hi
    cases hs
    refine ⟨hp, h.counted.trans ?_, h.initial, h.limit⟩
    exact congrArg Nat.cast (sum_update_of_eq (f := fun pc : WorkerPc => pc.busy.toNat)
      (by rw [isWaiting_iff.mp hi]; rfl)).symm

end Tally

theorem tally_init (conf : Conf) (n : ℕ) (capacity : ℤ) :
    Tally conf capacity (init n capacity) :=
  ⟨placed_init n capacity, by simp [init, numBusy, WorkerPc.busy], le_rfl, le_max_left _ _⟩

section Steps

variable {conf : Conf} {capacity : ℤ} {env : Env n} {s t : Sys n} {i : Fin n}

theorem Bounded.main_moves (h : Bounded conf capacity s) (ht : Tally conf capacity t)
    (hq : t.queue = s.queue) (hk : t.numOfCurrWorking = s.numOfCurrWorking)
    (hc : t.capacity = s.capacity) (hroom : t.main.admits conf = true → load s < s.capacity)
    (hr : t.main.inRandom = true → conf.policy = .random) : Bounded conf capacity t := by
  have hload : load t = load s := by rw [load, load, hq, hk]
  refine ⟨ht, ?_, ?_, hr⟩
  · rw [hload, hc]; exact h.le
  · rw [hload, hc]; exact hroom

theorem Bounded.main_silent (h : Bounded conf capacity s) (ht : Tally conf capacity t)
    (hq : t.queue = s.queue) (hk : t.numOfCurrWorking = s.numOfCurrWorking)
    (hc : t.capacity = s.capacity) (ha : t.main.admits conf = false)
    (hr : t.main.inRandom = false) : Bounded conf capacity t :=
  h.main_moves ht hq hk hc (by simp [ha]) (by simp [hr])

/-- Outside `bf`, the loop around the wait is left only when there is room. -/
theorem lt_capacity_of_not_waitCond (hbf : conf.policy ≠ .bf) (h : ¬ waitCond conf s) :
    load s < s.capacity := by
  unfold waitCond at h
  split at h
  · exact absurd ‹_› hbf
  · exact not_le.mp h

theorem Bounded.drops {q : Queue} {l : List ℤ} {pc : MainPc} (h : Bounded conf capacity s)
    (ht : Tally conf capacity { s with queue := q, closed := l, main := pc })
    (hq : q.queueSize < s.queue.queueSize) (hr : pc.inRandom = false) :
    Bounded conf capacity { s with queue := q, closed := l, main := pc } := by
  have hload : load { s with queue := q, closed := l, main := pc } < load s := by
    simp only [load]; omega
  exact ⟨ht, hload.le.trans h.le, fun _ => lt_of_lt_of_le hload h.le, by simp [hr]⟩

/-- **A step of `main`.** If it drops connections at random, it has to drop one at least. -/
theorem Bounded.mainStep (h : Bounded conf capacity s) (hother : conf.policy ≠ .other)
    (hrand : ∀ c, s.main = .randomBody c → s.queue.connfds.length ≠ 1)
    (hs : mainStep conf env s = some t) : Bounded conf capacity t := by
  have ht := h.toTally.mainStep hs
  have hroom := h.room
  have hran := h.random
  cases hm : s.main with
  | test c =>
    simp only [Server.mainStep, hm, Option.some.injEq] at hs
    subst hs
    refine h.main_moves ht rfl rfl rfl (fun ha => ?_) (by simp [MainPc.inRandom])
    simp only [MainPc.admits, Bool.not_eq_true', decide_eq_false_iff_not, not_le] at ha
    exact ha
  | testUnlock c isOverloaded =>
    simp only [Server.mainStep, hm, Option.some.injEq] at hs
    subst hs
    rw [hm] at hroom
    cases isOverloaded with
    | true => exact h.main_silent ht rfl rfl rfl rfl rfl
    | false => exact h.main_moves ht rfl rfl rfl (fun _ => hroom rfl) (by simp [MainPc.inRandom])
  | overload c =>
    simp only [Server.mainStep, hm, Option.some.injEq] at hs
    subst hs
    refine h.main_moves ht rfl rfl rfl (fun ha => ?_) fun hr => ?_
    · cases hpol : conf.policy <;>
        simp [hpol, handleOverloading, MainPc.admits] at ha hother
    · cases hpol : conf.policy <;> simp [hpol, handleOverloading, MainPc.inRandom] at hr ⊢
  | waitTest c =>
    simp only [Server.mainStep, hm] at hs
    split_ifs at hs with hwait <;> cases hs
    · exact h.main_silent ht rfl rfl rfl rfl rfl
    · refine h.main_moves ht rfl rfl rfl (fun ha => ?_) (by simp [MainPc.inRandom])
      simp only [MainPc.admits, decide_eq_true_eq] at ha
      exact lt_capacity_of_not_waitCond ha hwait
  | waitUnlock c =>
    simp only [Server.mainStep, hm, Option.some.injEq] at hs
    subst hs
    rw [hm] at hroom
    refine h.main_moves ht rfl rfl rfl (fun ha => hroom ?_) (by simp only; split_ifs <;> simp [MainPc.inRandom])
    simp only at ha
    split_ifs at ha with hbf
    · simp [MainPc.admits] at ha
    · simpa [MainPc.admits] using hbf
  | randomLock c =>
    simp only [Server.mainStep, hm] at hs
    split_ifs at hs
    cases hs
    rw [hm] at hran
    exact h.main_moves ht rfl rfl rfl (by simp [MainPc.admits]) fun _ => hran rfl
  | headBody c =>
    simp only [Server.mainStep, hm] at hs
    rcases headBody_cases h.placed.holds hs with ⟨-, rfl⟩ | ⟨x, q, -, -, hsize, rfl⟩
    · exact h.main_silent ht rfl rfl rfl rfl rfl
    · exact h.drops ht (by omega) rfl
  | randomBody c =>
    simp only [Server.mainStep, hm] at hs
    rcases randomBody_cases h.placed.holds hs with ⟨-, rfl⟩ | ⟨q, fds, hne, hw, hlen, -, hperm, rfl⟩
    · exact h.main_silent ht rfl rfl rfl rfl rfl
    · refine h.drops ht ?_ rfl
      have h₁ := hrand c hm
      have h₂ := List.length_pos_iff.mpr hne
      have h₃ := hperm.length_eq
      rw [List.length_append] at h₃
      rw [hw.size_connfds, h.placed.wf.size_connfds]
      omega
  | dropUnlock c =>
    simp only [Server.mainStep, hm, Option.some.injEq] at hs
    subst hs
    rw [hm] at hroom
    exact h.main_moves ht rfl rfl rfl (fun _ => hroom rfl) (by simp [MainPc.inRandom])
  | enqueueLock c =>
    simp only [Server.mainStep, hm] at hs
    split_ifs at hs
    cases hs
    rw [hm] at hroom
    exact h.main_moves ht rfl rfl rfl (fun _ => hroom rfl) (by simp [MainPc.inRandom])
  | enqueueBody c =>
    obtain ⟨q, -, -, hsize, rfl⟩ := enqueueBody_cases h.placed.holds hm hs
    rw [hm] at hroom
    have hlt := hroom rfl
    refine ⟨ht, ?_, by simp [MainPc.admits], by simp [MainPc.inRandom]⟩
    simp only [load] at hlt ⊢
    omega
  | close c =>
    simp only [Server.mainStep, hm, Option.some.injEq] at hs
    subst hs
    refine h.main_moves ht rfl rfl rfl ?_ ?_ <;> simp only <;> split_ifs <;>
      simp [MainPc.admits, MainPc.inRandom]
  | grow =>
    simp only [Server.mainStep, hm, Option.some.injEq] at hs
    subst hs
    have hle := h.le
    refine ⟨ht, ?_, by simp [MainPc.admits], by simp [MainPc.inRandom]⟩
    simp only [load] at hle ⊢
    split_ifs <;> omega
  | signal =>
    simp only [Server.mainStep, hm, signalCond] at hs
    split at hs
    · split_ifs at hs
      cases hs
      exact h.main_silent ht rfl rfl rfl rfl rfl
    · split_ifs at hs
      cases hs
      exact h.main_silent ht rfl rfl rfl rfl rfl
  | waiting c => simp [Server.mainStep, hm] at hs
  | _ =>
    simp only [Server.mainStep, hm] at hs
    try split_ifs at hs
    cases hs
    exact h.main_silent ht rfl rfl rfl rfl rfl

theorem Bounded.workerStep (h : Bounded conf capacity s) (hs : workerStep env s i = some t) :
    Bounded conf capacity t := by
  obtain ⟨pc, -, hc, hm, -, hload⟩ := workerStep_frame h.placed hs
  refine ⟨h.toTally.workerStep hs, ?_, fun ha => ?_, fun ha => ?_⟩
  · rw [hc]; exact hload.trans h.le
  · rcases hm with hm | ⟨c, -, hm⟩ <;> rw [hm] at ha
    · rw [hc]; exact lt_of_le_of_lt hload (h.room ha)
    · simp [MainPc.admits] at ha
  · rcases hm with hm | ⟨c, -, hm⟩ <;> rw [hm] at ha
    · exact h.random ha
    · simp [MainPc.inRandom] at ha

theorem Bounded.step {l : Label n} (h : Bounded conf capacity s) (hother : conf.policy ≠ .other)
    (hrand : ∀ c, s.main = .randomBody c → s.queue.connfds.length ≠ 1) (hs : Step conf s l t) :
    Bounded conf capacity t := by
  have ht := h.toTally.step hs
  cases l with
  | main env => exact h.mainStep hother hrand hs
  | worker i env => exact h.workerStep hs
  | spuriousMain =>
    simp only [Step, Server.step] at hs
    split at hs
    · cases hs
      exact h.main_silent ht rfl rfl rfl rfl rfl
    · cases hs
  | spuriousWorker i =>
    simp only [Step, Server.step] at hs
    split_ifs at hs
    cases hs
    exact ⟨ht, h.le, h.room, h.random⟩

end Steps

theorem bounded_init (conf : Conf) {capacity : ℤ} (h : 0 ≤ capacity) :
    Bounded conf capacity (init n capacity) := by
  refine ⟨tally_init conf n capacity, ?_, by simp [init, MainPc.admits],
    by simp [init, MainPc.inRandom]⟩
  simpa [init, load, createQueue] using h

/-- **The load never exceeds the capacity** under `block`, `dt`, `dh`, `bf` and `dynamic`: in every state of
every run, with `num_of_curr_working` the number of workers that have dequeued and not yet decremented.
The capacity stays within the larger of its initial value and `max_size`. -/
theorem capacity_bound {conf : Conf} {capacity : ℤ} {ls : List (Label n)} {s : Sys n}
    (hpol : conf.policy ≠ .random ∧ conf.policy ≠ .other) (hcap : 1 ≤ capacity)
    (hrun : Run (Step conf) (init n capacity) ls s) :
    s.queue.queueSize + s.numOfCurrWorking ≤ s.capacity ∧
      s.numOfCurrWorking = (univ.filter fun i => (s.worker i).busy = true).card ∧
      s.capacity ≤ max capacity conf.maxSize := by
  have h : Bounded conf capacity s := by
    apply hrun.invariant (bounded_init conf (by omega))
    intro t _ _ ht hs
    refine ht.step hpol.2 (fun c hm => absurd (ht.random ?_) hpol.1) hs
    rw [hm]
    rfl
  exact ⟨h.le, by rw [h.counted, numBusy_eq_card], h.limit⟩

/-- Under `dynamic`, a second connection meets a full server and raises its capacity to 2. -/
theorem capacity_bound_dynamic : ∃ s,
    Run (Step ⟨.dynamic, 2⟩) (init 1 1) (arrive 1 none ++ List.replicate 7 (.main (envOf 0 none))) s ∧
      s.capacity = 2 ∧ s.queue.queueSize + s.numOfCurrWorking ≤ 2 ∧ s.capacity ≤ max 1 2 := by
  obtain ⟨s, hs, hc⟩ : ∃ s, exec (step ⟨.dynamic, 2⟩) (init 1 1)
      (arrive 1 none ++ List.replicate 7 (.main (envOf 0 none))) = some s ∧ s.capacity = 2 := by
    refine ⟨_, rfl, ?_⟩
    decide
  have hrun : Run (Step ⟨.dynamic, 2⟩) (init 1 1)
      (arrive 1 none ++ List.replicate 7 (.main (envOf 0 none))) s := Run.of_exec hs
  have h := capacity_bound ⟨by decide, by decide⟩ le_rfl hrun
  exact ⟨s, hrun, hc, hc ▸ h.1, h.2.2⟩

end OsHomework.Server
