import OsHomework.Lib.Threads
import OsHomework.Server.Sections

/-!
# Every connection is in one place

* `MainPc.held`, `WorkerPc.held`: the connections a thread holds; `places s x`: in how many places the
  connection `x` is;
* `Placed`: the invariant; `Placed.congr`: a step that moves no connection keeps it;
* **`Placed.mainStep`**, **`Placed.workerStep`**, `Placed.step`: every step keeps it;
* **`one_place`**: in every run of the server.
-/

set_option autoImplicit false

namespace OsHomework.Server

open Queue Finset

/-- The connection that `main` holds. -/
def MainPc.held : MainPc → List ℤ
  | .accept | .dropUnlockDone | .grow | .enqueueUnlock | .signal => []
  | .testLock c | .test c | .testUnlock c _ | .overload c | .waitLock c | .waitTest c | .waiting c
  | .woken c | .waitUnlock c | .headLock c | .headBody c | .randomLock c | .randomBody c
  | .dropUnlock c | .dropUnlockClose c | .close c | .enqueueLock c | .enqueueBody c => [c.connfd]

/-- The connection that a worker holds. -/
def WorkerPc.held : WorkerPc → List ℤ
  | .unlock2 (some j) | .unlock j | .handle j | .decLock j | .dec j | .decUnlock j | .signal2 j
  | .close j => [j.connfd]
  | .lock | .lock2 _ | .look _ | .unlock2 none | .wait | .waiting | .woken _ => []

theorem held_handleOverloading (c : Request) (p : Policy) : (handleOverloading c p).held = [c.connfd] := by
  cases p <;> rfl

theorem isWaiting_iff {pc : WorkerPc} : pc.isWaiting = true ↔ pc = .waiting := by
  cases pc <;> simp [WorkerPc.isWaiting]

variable {n : ℕ}

/-- How often the workers hold `x`. -/
def heldByWorkers (s : Sys n) (x : ℤ) : ℕ := ∑ i, (s.worker i).held.count x

/-- In how many places `x` is: with `main`, in the queue, with a worker, or closed. -/
def places (s : Sys n) (x : ℤ) : ℕ :=
  s.main.held.count x + s.queue.connfds.count x + heldByWorkers s x + s.closed.count x

/-- **Every accepted connection is in one place**, and what workers have taken they still hold, or it
is closed. -/
structure Placed (s : Sys n) : Prop where
  wf : s.queue.WF
  places : ∀ x, places s x = if 0 ≤ x ∧ x < s.accepted then 1 else 0
  taken : ∀ x, (s.taken.map Prod.snd).count x ≤ heldByWorkers s x + s.closed.count x

section Steps

variable {conf : Conf} {env : Env n} {s t : Sys n} {i : Fin n}

theorem Placed.holds (h : Placed s) : Holds s.queue := by
  refine ⟨h.wf, fun x hx e => ?_⟩
  have h₁ := h.places x
  rw [if_neg (by omega), Server.places] at h₁
  have := List.count_pos_iff.mpr hx
  omega

theorem heldByWorkers_goto (s : Sys n) (i : Fin n) (pc : WorkerPc) (x : ℤ) :
    heldByWorkers (s.goto i pc) x + (s.worker i).held.count x =
      heldByWorkers s x + pc.held.count x :=
  sum_update (fun pc : WorkerPc => pc.held.count x) s.worker i pc

theorem Placed.goto {pc : WorkerPc} (h : Placed s) (hpc : pc.held = (s.worker i).held) :
    Placed (s.goto i pc) := by
  have hw : ∀ x, heldByWorkers (s.goto i pc) x = heldByWorkers s x := fun x => by
    have := heldByWorkers_goto s i pc x
    rw [hpc] at this
    omega
  refine ⟨h.wf, fun x => ?_, fun x => ?_⟩
  · have := h.places x
    rwa [Server.places, ← hw x] at this
  · rw [hw x]
    exact h.taken x

/-- **What `main` and the queue had is still there, or it is closed.** -/
theorem Placed.disposes {l : List ℤ} (h : Placed s) (hw : t.queue.WF)
    (hperm : (l ++ (t.main.held ++ t.queue.connfds)).Perm (s.main.held ++ s.queue.connfds))
    (hwk : t.worker = s.worker) (hc : t.closed = s.closed ++ l) (ha : t.accepted = s.accepted)
    (ht : t.taken = s.taken) : Placed t := by
  have hheld : ∀ x, heldByWorkers t x = heldByWorkers s x := fun x => by
    rw [heldByWorkers, heldByWorkers, hwk]
  refine ⟨hw, fun x => ?_, fun x => ?_⟩
  · have h₁ := h.places x
    have h₂ := hperm.count_eq x
    rw [Server.places] at h₁
    simp only [List.count_append] at h₂
    rw [Server.places, hheld x, hc, List.count_append, ha, ← h₁]
    omega
  · have := h.taken x
    rw [hheld x, hc, List.count_append, ht]
    omega

theorem Placed.congr (h : Placed s) (hq : t.queue = s.queue) (hm : t.main.held = s.main.held)
    (hwk : t.worker = s.worker) (hc : t.closed = s.closed) (ha : t.accepted = s.accepted)
    (ht : t.taken = s.taken) : Placed t :=
  h.disposes (l := []) (hq ▸ h.wf) (by rw [hq, hm]; rfl) hwk (by simpa using hc) ha ht

theorem Placed.accept (h : Placed s) (hm : s.main = .accept) (a : ℚ) :
    Placed { s with main := .testLock ⟨s.accepted, a⟩, accepted := s.accepted + 1 } := by
  refine ⟨h.wf, fun x => ?_, h.taken⟩
  have hx := h.places x
  rw [Server.places, hm] at hx
  rw [Server.places]
  show ([(s.accepted : ℤ)] : List ℤ).count x + s.queue.connfds.count x + heldByWorkers s x +
    s.closed.count x = _
  simp only [MainPc.held, List.count_nil, List.count_singleton, beq_iff_eq, Nat.cast_add,
    Nat.cast_one] at hx ⊢
  split_ifs at hx ⊢ <;> omega

/-- **A step of `main`**: what leaves its hands goes to the queue or is closed. -/
theorem Placed.mainStep (h : Placed s) (hs : mainStep conf env s = some t) : Placed t := by
  cases hm : s.main with
  | accept =>
    simp only [Server.mainStep, hm, Option.some.injEq] at hs
    subst hs
    exact h.accept hm env.time
  | headBody c =>
    simp only [Server.mainStep, hm] at hs
    rcases headBody_cases h.holds hs with ⟨-, rfl⟩ | ⟨y, q, hc, hw, -, rfl⟩
    · exact h.disposes h.wf (by rw [hm]; rfl) rfl rfl rfl rfl
    · refine h.disposes hw ?_ rfl rfl rfl rfl
      rw [hm, hc]
      exact List.Perm.swap _ _ _
  | randomBody c =>
    simp only [Server.mainStep, hm] at hs
    rcases randomBody_cases h.holds hs with ⟨-, rfl⟩ | ⟨q, fds, -, hw, -, -, hperm, rfl⟩
    · exact h.congr rfl (by rw [hm]; rfl) rfl rfl rfl rfl
    · refine h.disposes hw ?_ rfl rfl rfl rfl
      rw [hm]
      exact List.perm_middle.trans (hperm.cons _)
  | enqueueBody c =>
    obtain ⟨q, hw, hc, -, rfl⟩ := enqueueBody_cases h.holds hm hs
    refine h.disposes (l := []) hw ?_ rfl (by simp) rfl rfl
    rw [hm, hc]
    show (s.queue.connfds ++ [c.connfd]).Perm ([c.connfd] ++ s.queue.connfds)
    exact List.perm_append_comm
  | close c =>
    simp only [Server.mainStep, hm, Option.some.injEq] at hs
    subst hs
    refine h.disposes h.wf ?_ rfl rfl rfl rfl
    rw [hm]
    simp only
    split_ifs <;> rfl
  | signal =>
    simp only [Server.mainStep, hm, signalCond] at hs
    have hw : Placed { s with main := .accept } := h.congr rfl (by rw [hm]; rfl) rfl rfl rfl rfl
    split at hs
    · split_ifs at hs with hi
      cases hs
      exact hw.goto (by rw [show s.worker _ = .waiting from isWaiting_iff.mp hi]; rfl)
    · split_ifs at hs
      cases hs
      exact hw
  | overload c =>
    simp only [Server.mainStep, hm, Option.some.injEq] at hs
    subst hs
    exact h.congr rfl (by rw [hm]; exact held_handleOverloading c _) rfl rfl rfl rfl
  | _ =>
    -- the other statements move no connection
    simp only [Server.mainStep, hm] at hs
    (try split_ifs at hs) <;> cases hs <;> exact h.congr rfl (by rw [hm]; rfl) rfl rfl rfl rfl

/-- **A worker takes the oldest connection.** -/
theorem Placed.take {q : Queue} {j : Job} {k : ℤ} (h : Placed s) (hi : (s.worker i).held = [])
    (hc : s.queue.connfds = j.connfd :: q.connfds) (hw : q.WF) :
    Placed ({ s with
      queue := q, numOfCurrWorking := k, taken := s.taken ++ [(i, j.connfd)] }.goto i
        (.unlock2 (some j))) := by
  have hheld := heldByWorkers_goto { s with
    queue := q, numOfCurrWorking := k, taken := s.taken ++ [(i, j.connfd)] } i (.unlock2 (some j))
  simp only [hi, List.count_nil, Nat.add_zero] at hheld
  refine ⟨hw, fun x => ?_, fun x => ?_⟩
  · have := h.places x
    rw [Server.places, hc, List.count_cons] at this
    rw [Server.places, hheld x]
    show s.main.held.count x + q.connfds.count x + (heldByWorkers s x + [j.connfd].count x) +
      s.closed.count x = if 0 ≤ x ∧ x < (s.accepted : ℤ) then 1 else 0
    rw [List.count_singleton]
    omega
  · have := h.taken x
    rw [hheld x]
    show ((s.taken ++ [(i, j.connfd)]).map Prod.snd).count x ≤
      heldByWorkers s x + [j.connfd].count x + s.closed.count x
    rw [List.map_append, List.count_append]
    show (s.taken.map Prod.snd).count x + [j.connfd].count x ≤ _
    omega

/-- **A worker closes its connection.** -/
theorem Placed.close {j : Job} (h : Placed s) (hi : (s.worker i).held = [j.connfd]) :
    Placed ({ s with closed := s.closed ++ [j.connfd] }.goto i .lock) := by
  have hheld := heldByWorkers_goto { s with closed := s.closed ++ [j.connfd] } i .lock
  simp only [hi] at hheld
  refine ⟨h.wf, fun x => ?_, fun x => ?_⟩
  · have h₁ := h.places x
    have h₂ : heldByWorkers _ x + [j.connfd].count x = heldByWorkers s x + 0 := hheld x
    rw [Server.places] at h₁
    rw [Server.places]
    show s.main.held.count x + s.queue.connfds.count x + _ + (s.closed ++ [j.connfd]).count x =
      if 0 ≤ x ∧ x < (s.accepted : ℤ) then 1 else 0
    rw [List.count_append]
    omega
  · have h₁ := h.taken x
    have h₂ : heldByWorkers _ x + [j.connfd].count x = heldByWorkers s x + 0 := hheld x
    show (s.taken.map Prod.snd).count x ≤ _ + (s.closed ++ [j.connfd]).count x
    rw [List.count_append]
    omega

/-- **A step of a worker**: it takes a connection from the queue, and closes it in the end. -/
theorem Placed.workerStep (h : Placed s) (hs : workerStep env s i = some t) : Placed t := by
  cases hm : s.worker i with
  | look signalled =>
    simp only [Server.workerStep, hm] at hs
    rcases lookBody_cases h.holds hs with ⟨-, rfl⟩ | ⟨q, j, hc, hw, -, rfl⟩
    · exact h.goto (by rw [hm]; rfl)
    · exact h.take (by rw [hm]; rfl) hc hw
  | close j =>
    simp only [Server.workerStep, hm, Option.some.injEq] at hs
    subst hs
    exact h.close (by rw [hm]; rfl)
  | unlock2 element =>
    cases element <;> simp only [Server.workerStep, hm, Option.some.injEq] at hs <;>
      (subst hs; exact Placed.goto (h.congr rfl rfl rfl rfl rfl rfl) (congrArg WorkerPc.held hm).symm)
  | signal2 j =>
    simp only [Server.workerStep, hm] at hs
    split at hs
    · next c hc =>
      cases hs
      exact Placed.goto (h.congr rfl (by rw [hc]; rfl) rfl rfl rfl rfl)
        (congrArg WorkerPc.held hm).symm
    · cases hs
      exact h.goto (congrArg WorkerPc.held hm).symm
  | waiting => simp [Server.workerStep, hm] at hs
  | _ =>
    simp only [Server.workerStep, hm] at hs
    try split_ifs at hs
    cases hs
    exact Placed.goto (h.congr rfl rfl rfl rfl rfl rfl) (congrArg WorkerPc.held hm).symm

theorem Placed.step {l : Label n} (h : Placed s) (hs : Step conf s l t) : Placed t := by
  cases l with
  | main env => exact h.mainStep hs
  | worker i env => exact h.workerStep hs
  | spuriousMain =>
    simp only [Step, Server.step] at hs
    split at hs
    · next c hc =>
      cases hs
      exact h.congr rfl (by rw [hc]; rfl) rfl rfl rfl rfl
    · cases hs
  | spuriousWorker i =>
    simp only [Step, Server.step] at hs
    split_ifs at hs with hi
    cases hs
    exact h.goto (by rw [isWaiting_iff.mp hi]; rfl)

end Steps

theorem placed_init (n : ℕ) (capacity : ℤ) : Placed (init n capacity) := by
  refine ⟨wf_createQueue, fun x => ?_, fun x => by simp [init]⟩
  rw [places, if_neg (by simp [init]), heldByWorkers]
  simp [init, MainPc.held, WorkerPc.held, Queue.connfds, contents_createQueue]

theorem placed_of_run {conf : Conf} {capacity : ℤ} {ls : List (Label n)} {s : Sys n}
    (hrun : Run (Step conf) (init n capacity) ls s) : Placed s :=
  hrun.invariant (placed_init n capacity) fun _ _ _ h hs => h.step hs

/-- No critical section reads through a null pointer: every body that `main` or a worker is about to
execute can be executed. -/
theorem bodies_defined {conf : Conf} {env : Env n} {s : Sys n} (h : Placed s) :
    (∀ c, s.main = .headBody c ∨ s.main = .randomBody c → (mainStep conf env s).isSome) ∧
      ∀ i b, s.worker i = .look b → (workerStep env s i).isSome := by
  refine ⟨?_, fun i b hi => ?_⟩
  · rintro c (hm | hm)
    · rcases h.holds.dequeue env.time with ⟨-, he⟩ | ⟨x, u, q, -, hx, -, -, he⟩
      · simp [mainStep, hm, headBody, he]
      · simp [mainStep, hm, headBody, he, hx]
    · have hsize := h.wf.size_connfds
      obtain ⟨q, fds, he, -⟩ := dropRandom_spec env.rand (m := (s.queue.queueSize / 2).toNat)
        (i := 0) h.wf (by omega)
      simp only [mainStep, hm, randomBody, he]
      split_ifs <;> rfl
  · rcases h.holds.dequeue env.time with ⟨-, he⟩ | ⟨x, u, q, -, hx, -, -, he⟩
    · simp [workerStep, hi, lookBody, he]
    · simp [workerStep, hi, lookBody, he, hx]

/-- **Every accepted connection is in exactly one place**, in every state of every run, under every
policy: with `main`, in the queue, with one worker, or closed. Nothing else is anywhere, no connection
is closed twice, and none is handed out twice. -/
theorem one_place {conf : Conf} {capacity : ℤ} {ls : List (Label n)} {s : Sys n}
    (hrun : Run (Step conf) (init n capacity) ls s) :
    (∀ k < s.accepted, places s k = 1) ∧ (∀ x, places s x ≠ 0 → ∃ k < s.accepted, x = (k : ℤ)) ∧
      s.closed.Nodup ∧ (s.taken.map Prod.snd).Nodup := by
  have h := placed_of_run hrun
  have hle : ∀ x, places s x ≤ 1 := fun x => by
    rw [h.places x]
    split_ifs <;> omega
  refine ⟨fun k hk => ?_, fun x hx => ?_, ?_, ?_⟩
  · rw [h.places, if_pos (by omega)]
  · rw [h.places, ite_ne_right_iff] at hx
    exact ⟨x.toNat, by omega, by omega⟩
  · rw [List.nodup_iff_count_le_one]
    intro x
    have := hle x
    rw [places] at this
    omega
  · rw [List.nodup_iff_count_le_one]
    intro x
    have h₁ := hle x
    have h₂ := h.taken x
    rw [places] at h₁
    omega

/-- What a step gets from outside, for examples: `malloc` returns `node`, and a signal wakes `wakes`. -/
def envOf (node : ℕ) (wakes : Option (Fin n)) : Env n :=
  { time := 0, node, rand := fun _ => 0, wakes }

/-- `main` accepts a connection and enqueues it. -/
def arrive (node : ℕ) (wakes : Option (Fin n)) : List (Label n) :=
  List.replicate 8 (.main (envOf node wakes))

/-- A worker at the top of its loop takes a connection. -/
def take (i : Fin n) : List (Label n) := List.replicate 5 (.worker i (envOf 0 none))

/-- One connection, in the hands of a worker. -/
theorem one_place_first_connection : ∃ s,
    Run (Step ⟨.dt, 0⟩) (init 1 1) (arrive 1 none ++ take 0) s ∧ s.taken = [(0, 0)] ∧
      places s 0 = 1 := by
  obtain ⟨s, hs, ha⟩ : ∃ s, exec (step ⟨.dt, 0⟩) (init 1 1) (arrive 1 none ++ take 0) = some s ∧
      s.accepted = 1 ∧ s.taken = [(0, 0)] := by
    refine ⟨_, rfl, ?_⟩
    decide
  have hrun : Run (Step ⟨.dt, 0⟩) (init 1 1) (arrive 1 none ++ take 0) s := Run.of_exec hs
  exact ⟨s, hrun, ha.2, (one_place hrun).1 0 (by rw [ha.1]; norm_num)⟩

end OsHomework.Server
