import OsHomework.Lib.Run
import OsHomework.Server.Queue

/-!
# The queue is a list

Runs of the calls of `queue.c`, from `createQueue` on.

* `Call`, `Queue.call`: a call with its arguments, and what it returns and stores;
* `onList`: what the call is to do to the list of elements;
* **`call_spec`**: the call does that, and keeps the chain of nodes;
* **`queue_refines_list`**: over every run. `dequeue` says with `-1` that the queue is empty, and does not
  check that no element is `-1` (`dequeue_minus_one`).
-/

set_option autoImplicit false

namespace OsHomework.Server

open Queue

/-- A call on the queue, with the answers of `malloc` and of the clock. -/
inductive Call where
  | enqueue (newNode : ℕ) (data : ℤ) (arrivalTime : ℚ)
  | dequeue (now : ℚ)
  | dequeueI (i : ℤ)

/-- What a call returns, and what it stores through `arrival_time` and `dispatch_time`. -/
abbrev Answer := Option ℤ × Option (ℚ × ℚ)

def Queue.call (q : Queue) : Call → Outcome (Queue × Answer)
  | .enqueue newNode data arrivalTime => do
    let q ← q.enqueue newNode data arrivalTime
    .ret (q, none, none)
  | .dequeue now => do
    let (q, result, times) ← q.dequeue now
    .ret (q, some result, times)
  | .dequeueI i => do
    let (q, result) ← q.dequeueI i
    .ret (q, some result, none)

/-- `malloc` returns a node that is not in use, `queue_size` has not reached `INT_MAX` where it is to be
incremented, and the position is one of the queue. -/
def Call.Allowed (q : Queue) : Call → Prop
  | .enqueue newNode _ _ => newNode ≠ 0 ∧ newNode ∉ q.allocated ∧ q.queueSize < intMax
  | .dequeue _ => True
  | .dequeueI i => 1 ≤ i ∧ i ≤ q.queueSize

/-- The same call on the list of elements. -/
def onList (l : List (ℤ × ℚ)) : Call → List (ℤ × ℚ) × Answer
  | .enqueue _ data arrivalTime => (l ++ [(data, arrivalTime)], none, none)
  | .dequeue now =>
    match l with
    | [] => ([], some (-1), none)
    | (data, arrivalTime) :: rest => (rest, some data, some (arrivalTime, now - arrivalTime))
  | .dequeueI i => (l.eraseIdx (i - 1).toNat, l[(i - 1).toNat]?.map Prod.fst, none)

def CallStep (q : Queue) (c : Call) (q' : Queue) : Prop := c.Allowed q ∧ ∃ r, q.call c = .ret (q', r)

section Calls

variable {q : Queue} {c : Call}

/-- **Every call does to the elements what it does to a list.** -/
theorem call_spec (h : q.WF) (ha : c.Allowed q) :
    ∃ q', q.call c = .ret (q', (onList q.contents c).2) ∧ q'.WF ∧ q'.contents = (onList q.contents c).1 := by
  cases c with
  | enqueue newNode data arrivalTime =>
    obtain ⟨q', he, hwf, hc, -⟩ := enqueue_spec data arrivalTime h ha.1 ha.2.1 ha.2.2
    exact ⟨q', by rw [call, he]; rfl, hwf, hc⟩
  | dequeue now =>
    cases hc : q.contents with
    | nil => exact ⟨q, by rw [call, dequeue_nil h hc]; rfl, h, hc⟩
    | cons x l =>
      obtain ⟨q', he, hwf, hl, -⟩ := dequeue_cons now h hc
      exact ⟨q', by rw [call, he]; rfl, hwf, hl⟩
  | dequeueI i =>
    obtain ⟨h₁, hi⟩ : 1 ≤ i ∧ i ≤ q.queueSize := ha
    obtain ⟨n, rfl⟩ : ∃ n : ℕ, i = n + 1 := ⟨(i - 1).toNat, by omega⟩
    rw [h.size] at hi
    have hx : q.contents[n]? = some (q.contents.get ⟨n, by omega⟩) := List.getElem?_eq_getElem _
    obtain ⟨q', he, hwf, hl, -⟩ := dequeueI_spec h hx
    have hn : ((n : ℤ) + 1 - 1).toNat = n := by omega
    refine ⟨q', ?_, hwf, ?_⟩
    · rw [call, he]
      simp only [onList, hn, hx]
      rfl
    · simp only [onList, hn, hl]

theorem CallStep.spec {q' : Queue} (h : q.WF) (hs : CallStep q c q') :
    q'.WF ∧ q'.contents = (onList q.contents c).1 := by
  obtain ⟨ha, r, hr⟩ := hs
  obtain ⟨q₁, he, hwf, hc⟩ := call_spec h ha
  rw [hr] at he
  obtain ⟨rfl, -⟩ := Prod.mk.inj (Outcome.ret.inj he)
  exact ⟨hwf, hc⟩

theorem contents_of_run {cs : List Call} (h : Run CallStep createQueue cs q) :
    q.WF ∧ q.contents = cs.foldl (fun l c => (onList l c).1) [] := by
  induction h with
  | nil => exact ⟨wf_createQueue, contents_createQueue⟩
  | snoc _ hs ih =>
    obtain ⟨hwf, hc⟩ := hs.spec ih.1
    refine ⟨hwf, ?_⟩
    rw [hc, ih.2, List.foldl_append]
    rfl

/-- `front` and `rear` are null exactly for an empty queue. -/
theorem null_iff (h : q.WF) : (q.front = 0 ↔ q.queueSize = 0) ∧ (q.rear = 0 ↔ q.queueSize = 0) := by
  obtain ⟨ps, h⟩ := h
  rw [h.size, h.rear]
  rcases List.eq_nil_or_concat' ps with rfl | ⟨l, r, rfl⟩
  · exact ⟨iff_of_true h.linked rfl, iff_of_true rfl rfl⟩
  · have hr : r ≠ 0 := h.linked.ne_zero r (by simp)
    have hlen : ((l ++ [r]).length : ℤ) ≠ 0 := by simp; omega
    refine ⟨iff_of_false ?_ hlen, iff_of_false ?_ hlen⟩
    · cases l with
      | nil => rw [h.linked.1]; exact hr
      | cons a l => rw [h.linked.1]; exact h.linked.2.1
    · rwa [List.getLastD_concat]

end Calls

/-- **The queue refines a list**, over every run from `createQueue`: the chain from `front` has `queue_size`
nodes and ends at `rear`; `front` and `rear` are null exactly if there are none; the elements are those of
the list, and every further call returns what it returns on the list. -/
theorem queue_refines_list {cs : List Call} {q : Queue} (h : Run CallStep createQueue cs q) :
    (∃ ps, Seg q.succ q.front ps 0 ∧ ps.Nodup ∧ q.queueSize = ps.length ∧ q.rear = ps.getLastD 0 ∧
      ps.map q.item = cs.foldl (fun l c => (onList l c).1) []) ∧
    (q.front = 0 ↔ q.queueSize = 0) ∧ (q.rear = 0 ↔ q.queueSize = 0) ∧
    ∀ c, c.Allowed q → ∃ q', CallStep q c q' ∧
      q.call c = .ret (q', (onList (cs.foldl (fun l c => (onList l c).1) []) c).2) := by
  obtain ⟨hwf, hc⟩ := contents_of_run h
  obtain ⟨hfront, hrear⟩ := null_iff hwf
  refine ⟨?_, hfront, hrear, fun c ha => ?_⟩
  · obtain ⟨ps, hps⟩ := hwf
    exact ⟨ps, hps.linked, hps.nodup, hps.size, hps.rear, hps.contents.symm.trans hc⟩
  · obtain ⟨q', he, -, -⟩ := call_spec hwf ha
    rw [← hc]
    exact ⟨q', ⟨ha, _, he⟩, he⟩

instance (q : Queue) : (c : Call) → Decidable (c.Allowed q)
  | .enqueue newNode _ _ =>
    inferInstanceAs (Decidable (newNode ≠ 0 ∧ newNode ∉ q.allocated ∧ q.queueSize < intMax))
  | .dequeue _ => inferInstanceAs (Decidable True)
  | .dequeueI i => inferInstanceAs (Decidable (1 ≤ i ∧ i ≤ q.queueSize))

/-- The steps, computed. -/
def callStep (q : Queue) (c : Call) : Option Queue :=
  if c.Allowed q then
    match q.call c with
    | .ret (q', _) => some q'
    | _ => none
  else none

theorem callStep_sound {q q' : Queue} {c : Call} (h : callStep q c = some q') : CallStep q c q' := by
  unfold callStep at h
  split_ifs at h with ha
  split at h
  next r hr =>
    obtain rfl := Option.some.inj h
    exact ⟨ha, r, hr⟩
  next => cases h

theorem run_of_exec {q q' : Queue} {cs : List Call} (h : exec callStep q cs = some q') :
    Run CallStep q cs q' :=
  (Run.of_exec h).mono fun _ _ _ => callStep_sound

/-- The middle one of three elements is removed, then the last one. -/
theorem queue_refines_list_three_elements : ∃ q ps,
    Run CallStep createQueue [.enqueue 8 5 1, .enqueue 16 6 2, .enqueue 24 7 3, .dequeueI 2, .dequeueI 2] q ∧
      Seg q.succ q.front ps 0 ∧ ps.map q.item = [(5, 1)] := by
  obtain ⟨q, hq⟩ : ∃ q, exec callStep createQueue
      [.enqueue 8 5 1, .enqueue 16 6 2, .enqueue 24 7 3, .dequeueI 2, .dequeueI 2] = some q := ⟨_, rfl⟩
  obtain ⟨⟨ps, hlinked, -, -, -, hps⟩, -⟩ := queue_refines_list (run_of_exec hq)
  exact ⟨q, ps, run_of_exec hq, hlinked, hps⟩

/-- **An element -1**: `dequeue` returns -1 although the queue is not empty. -/
theorem dequeue_minus_one : ∃ q, Run CallStep createQueue [.enqueue 8 (-1) 0] q ∧ q.queueSize = 1 ∧
    ∃ q' times, q.call (.dequeue 1) = .ret (q', some (-1), times) := by
  obtain ⟨q, hq⟩ : ∃ q, exec callStep createQueue [.enqueue 8 (-1) 0] = some q := ⟨_, rfl⟩
  obtain ⟨hwf, hc⟩ := contents_of_run (run_of_exec hq)
  have hsize : q.queueSize = 1 := by
    rw [hwf.size, hc]
    rfl
  obtain ⟨q', he, -⟩ := call_spec (c := .dequeue 1) hwf trivial
  rw [hc] at he
  exact ⟨q, run_of_exec hq, hsize, q', _, he⟩

end OsHomework.Server
