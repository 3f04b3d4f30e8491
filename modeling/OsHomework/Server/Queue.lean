import Mathlib.Data.List.GetD
import Mathlib.Data.Rat.Defs
import Mathlib.Tactic.Ring
import OsHomework.Lib.Linked
import OsHomework.Lib.Outcome

/-!
# The queue of the web server

The singly linked queue of `queue.c`, with its nodes on the heap.

* `increment`, `decrement`: `x++` and `x--` for an `int`;
* `Queue`, `createQueue`, `enqueue`, `dequeue`, `dequeueI`: the code. A pointer is a natural number,
  `0` is `NULL`, and reading through `NULL` is undefined;
* `Queue.contents`: the descriptors and arrival times that one meets from `front` on;
* `Queue.WF`: the chain from `front` has `queue_size` nodes and ends at `rear`;
* **`enqueue_spec`**, **`dequeue_cons`**, **`dequeueI_spec`**: the operations keep it and do to the
  contents what they do to a list.
-/

set_option autoImplicit false

namespace OsHomework.Server

/-- `INT_MAX`. -/
def intMax : ℤ := 2 ^ 31 - 1

/-- `x++` for an `int`. -/
def increment (x : ℤ) : Outcome ℤ := if x < intMax then .ret (x + 1) else .ub

/-- `x--` for an `int`. -/
def decrement (x : ℤ) : Outcome ℤ := if -intMax - 1 < x then .ret (x - 1) else .ub

theorem increment_iff {x y : ℤ} : increment x = .ret y ↔ x < intMax ∧ y = x + 1 := by
  unfold increment
  split_ifs with h
  · rw [Outcome.ret.injEq, and_iff_right h, eq_comm]
  · simp [h]

theorem increment_of_lt {x : ℤ} (h : x < intMax) : increment x = .ret (x + 1) := increment_iff.mpr ⟨h, rfl⟩

theorem decrement_of_pos {x : ℤ} (h : 0 < x) : decrement x = .ret (x - 1) :=
  if_pos (by unfold intMax; omega)

structure Node where
  data : ℤ
  arrivalTime : ℚ
  next : ℕ

/-- The queue, the cells of its nodes, and the nodes that are allocated. -/
structure Queue where
  front : ℕ
  rear : ℕ
  queueSize : ℤ
  node : ℕ → Node
  allocated : List ℕ

def createQueue : Queue :=
  { front := 0, rear := 0, queueSize := 0, node := fun _ => ⟨0, 0, 0⟩, allocated := [] }

namespace Queue

def isEmpty (q : Queue) : Bool := q.queueSize = 0

/-- Read the node at `p`. -/
def deref (q : Queue) (p : ℕ) : Outcome Node := if p = 0 then .ub else .ret (q.node p)

/-- Link the new node behind the last one. -/
def append (q : Queue) (newNode : ℕ) : Outcome Queue :=
  if q.isEmpty then .ret { q with front := newNode, rear := newNode }
  else do
    let rear ← q.deref q.rear
    .ret { q with node := Function.update q.node q.rear { rear with next := newNode }, rear := newNode }

/-- Insert an element; `newNode` is the answer of `malloc`. -/
def enqueue (q : Queue) (newNode : ℕ) (data : ℤ) (arrivalTime : ℚ) : Outcome Queue :=
  if newNode = 0 then .ub
  else do
    let q := { q with
      node := Function.update q.node newNode ⟨data, arrivalTime, 0⟩
      allocated := newNode :: q.allocated }
    let q ← q.append newNode
    let queueSize ← increment q.queueSize
    .ret { q with queueSize }

/-- Remove the first element: the element, `-1` for an empty queue, and what is stored through
`arrival_time` and `dispatch_time`. -/
def dequeue (q : Queue) (now : ℚ) : Outcome (Queue × ℤ × Option (ℚ × ℚ)) :=
  if q.isEmpty then .ret (q, -1, none)
  else do
    let temp ← q.deref q.front
    let queueSize ← decrement q.queueSize
    .ret ({ q with
        front := temp.next
        rear := if temp.next = 0 then 0 else q.rear
        queueSize
        allocated := q.allocated.erase q.front },
      temp.data, some (temp.arrivalTime, now - temp.arrivalTime))

/-- Follow `next` a number of times. -/
def walk (q : Queue) : ℕ → ℕ → Outcome ℕ
  | 0, temp => .ret temp
  | n + 1, temp => do
    let t ← q.deref temp
    q.walk n t.next

/-- Remove the `i`-th element, counted from 1. The first node is unlinked but not freed. -/
def dequeueI (q : Queue) (i : ℤ) : Outcome (Queue × ℤ) :=
  if q.queueSize < i then .ret (q, -1)
  else if i = 1 then do
    let front ← q.deref q.front
    let queueSize ← decrement q.queueSize
    .ret ({ q with
        front := front.next
        rear := if q.queueSize = 1 then 0 else q.rear
        queueSize }, front.data)
  else if i < 1 then .ub -- the walk below runs off the end of the list
  else do
    let temp ← q.walk (i - 2).toNat q.front
    let t ← q.deref temp
    let nodeToDelete ← q.deref t.next
    let queueSize ← decrement q.queueSize
    .ret ({ q with
        node := Function.update q.node temp { t with next := nodeToDelete.next }
        rear := if i = q.queueSize then temp else q.rear
        queueSize
        allocated := q.allocated.erase t.next }, nodeToDelete.data)

/-! ## The contents -/

/-- The successor of a node. -/
def succ (q : Queue) (p : ℕ) : ℕ := (q.node p).next

/-- The element in a node. -/
def item (q : Queue) (p : ℕ) : ℤ × ℚ := ((q.node p).data, (q.node p).arrivalTime)

/-- The first `n` nodes from `p` on. -/
def chain (q : Queue) : ℕ → ℕ → List ℕ
  | 0, _ => []
  | n + 1, p => p :: q.chain n (q.succ p)

/-- The descriptors and arrival times in the queue, the oldest first. -/
def contents (q : Queue) : List (ℤ × ℚ) := (q.chain q.queueSize.toNat q.front).map q.item

/-- The queue has the nodes `ps`. -/
structure Repr (q : Queue) (ps : List ℕ) : Prop where
  linked : Seg q.succ q.front ps 0
  nodup : ps.Nodup
  rear : q.rear = ps.getLastD 0
  size : q.queueSize = ps.length
  alloc : ∀ p ∈ ps, p ∈ q.allocated

/-- The chain from `front` has `queue_size` nodes, all different and allocated, and ends at `rear`. -/
def WF (q : Queue) : Prop := ∃ ps, q.Repr ps

section Contents

variable {q : Queue} {ps : List ℕ}

theorem chain_of_seg : ∀ {ps : List ℕ} {p : ℕ}, Seg q.succ p ps 0 → q.chain ps.length p = ps
  | [], _, _ => rfl
  | a :: ps, p, h => by
    obtain ⟨rfl, -, hs⟩ := h
    rw [List.length_cons, chain, chain_of_seg hs]

theorem Repr.contents (h : q.Repr ps) : q.contents = ps.map q.item := by
  rw [Queue.contents, h.size, Int.toNat_natCast, chain_of_seg h.linked]

theorem WF.size (h : q.WF) : q.queueSize = q.contents.length := by
  obtain ⟨ps, h⟩ := h
  rw [h.contents, h.size, List.length_map]

theorem wf_createQueue : createQueue.WF := ⟨[], rfl, .nil, rfl, rfl, by simp⟩

theorem contents_createQueue : createQueue.contents = [] := rfl

end Contents

/-! ## The operations -/

section Ops

variable {q : Queue} {ps : List ℕ} {now : ℚ}

theorem Repr.isEmpty (h : q.Repr ps) : q.isEmpty = true ↔ ps = [] := by
  rw [Queue.isEmpty, decide_eq_true_iff, h.size]
  simp

theorem deref_of_ne {p : ℕ} (h : p ≠ 0) : q.deref p = .ret (q.node p) := if_neg h

/-- **`enqueue` appends**, if `queue_size` can still count the elements. -/
theorem enqueue_spec {newNode : ℕ} (data : ℤ) (t : ℚ) (h : q.WF) (h0 : newNode ≠ 0)
    (hnew : newNode ∉ q.allocated) (hsize : q.queueSize < intMax) : ∃ q', q.enqueue newNode data t = .ret q' ∧ q'.WF ∧
      q'.contents = q.contents ++ [(data, t)] ∧ q'.queueSize = q.queueSize + 1 := by
  obtain ⟨ps, h⟩ := h
  have hps : newNode ∉ ps := fun hm => hnew (h.alloc _ hm)
  rw [enqueue, if_neg h0]
  simp only [append]
  rcases List.eq_nil_or_concat' ps with rfl | ⟨l, r, rfl⟩
  · have he : ∀ nd al, Queue.isEmpty { q with node := nd, allocated := al } = true :=
      fun _ _ => h.isEmpty.mpr rfl
    simp only [he, if_true, Outcome.ret_bind, increment_of_lt hsize]
    have hr : Repr { q with
        node := Function.update q.node newNode ⟨data, t, 0⟩
        allocated := newNode :: q.allocated
        front := newNode
        rear := newNode
        queueSize := q.queueSize + 1 } [newNode] := by
      refine ⟨⟨rfl, h0, ?_⟩, List.nodup_singleton _, rfl, ?_, by simp⟩
      · simp [succ, Seg]
      · simp [h.size]
    refine ⟨_, rfl, ⟨_, hr⟩, ?_, rfl⟩
    rw [hr.contents, h.contents]
    simp [item]
  · have he : ∀ rear nd al, Queue.isEmpty { q with rear, node := nd, allocated := al } = false := by
      intro _ _ _
      show q.isEmpty = false
      rw [Bool.eq_false_iff, ne_eq, h.isEmpty]
      simp
    have hrear : q.rear = r := by rw [h.rear]; simp
    have hr0 : r ≠ 0 := h.linked.ne_zero r (by simp)
    have hne : r ≠ newNode := fun e => hps (by simp [e])
    have hl : ∀ c ∈ l, c ≠ r ∧ c ≠ newNode := by
      intro c hc
      refine ⟨fun e => ?_, fun e => hps (by simp [← e, hc])⟩
      subst e
      exact (List.nodup_append'.mp h.nodup).2.2 hc (by simp)
    simp only [he, Bool.false_eq_true, if_false, hrear, deref_of_ne hr0, Outcome.ret_bind,
      Function.update_of_ne hne, increment_of_lt hsize]
    have hr : Repr { q with
        node := Function.update (Function.update q.node newNode ⟨data, t, 0⟩) r
          { q.node r with next := newNode }
        allocated := newNode :: q.allocated
        rear := newNode
        queueSize := q.queueSize + 1 } (l ++ [r] ++ [newNode]) := by
      refine ⟨h.linked.push h0 ?_ ?_ fun c hc => ?_, ?_, by simp, by simp [h.size]; ring, ?_⟩
      · simp [succ]
      · simp [succ, hne.symm]
      · simp [succ, hl c hc]
      · exact List.nodup_append'.mpr ⟨h.nodup, List.nodup_singleton _, by simpa using hps⟩
      · intro p hp
        rcases List.mem_append.mp hp with hp | hp
        · exact List.mem_cons_of_mem _ (h.alloc p hp)
        · simp [List.mem_singleton.mp hp]
    refine ⟨_, rfl, ⟨_, hr⟩, ?_, rfl⟩
    rw [hr.contents, h.contents, List.map_append]
    congr 1
    · apply List.map_congr_left
      intro c hc
      rcases List.mem_append.mp hc with hc | hc
      · simp [item, hl c hc]
      · simp [item, List.mem_singleton.mp hc]
    · simp [item, hne.symm]

theorem append_queueSize {q' : Queue} {newNode : ℕ} (h : q.append newNode = .ret q') :
    q'.queueSize = q.queueSize := by
  unfold append at h
  split_ifs at h
  · obtain rfl := Outcome.ret.inj h
    rfl
  · obtain ⟨rear, -, hr⟩ := Outcome.bind_eq_ret.mp h
    obtain rfl := Outcome.ret.inj hr
    rfl

/-- `enqueue` returns only if `malloc` did not fail and `queue_size` can be incremented. -/
theorem of_enqueue {q' : Queue} {newNode : ℕ} {data : ℤ} {t : ℚ} (h : q.enqueue newNode data t = .ret q') :
    newNode ≠ 0 ∧ q.queueSize < intMax := by
  unfold enqueue at h
  split_ifs at h with h0
  refine ⟨h0, ?_⟩
  obtain ⟨q₁, ha, h⟩ := Outcome.bind_eq_ret.mp h
  obtain ⟨size, hi, -⟩ := Outcome.bind_eq_ret.mp h
  rw [append_queueSize ha] at hi
  exact (increment_iff.mp hi).1

theorem dequeue_nil (h : q.WF) (hc : q.contents = []) : q.dequeue now = .ret (q, -1, none) := by
  rw [dequeue, if_pos]
  rw [isEmpty, decide_eq_true_iff, h.size, hc]
  rfl

/-- **`dequeue` removes the first element.** -/
theorem dequeue_cons (now : ℚ) {x : ℤ × ℚ} {l : List (ℤ × ℚ)} (h : q.WF) (hc : q.contents = x :: l) :
    ∃ q', q.dequeue now = .ret (q', x.1, some (x.2, now - x.2)) ∧ q'.WF ∧ q'.contents = l ∧
      q'.queueSize = q.queueSize - 1 := by
  obtain ⟨ps, h⟩ := h
  rw [h.contents] at hc
  obtain ⟨p, ps, rfl, rfl, rfl⟩ := List.map_eq_cons_iff.mp hc
  obtain ⟨hp, h0, hs⟩ := h.linked
  obtain ⟨hnot, hnd⟩ := List.nodup_cons.mp h.nodup
  have hr : Repr { q with
      front := q.succ p
      rear := if q.succ p = 0 then 0 else q.rear
      queueSize := q.queueSize - 1
      allocated := q.allocated.erase p } ps := by
    refine ⟨hs, hnd, ?_, by simp [h.size], fun r hr => ?_⟩
    · simp only [h.rear]
      cases ps with
      | nil => rw [if_pos (show q.succ p = 0 from hs)]; rfl
      | cons r ps =>
        rw [if_neg (by rw [hs.1]; exact hs.2.1)]
        rfl
    · exact (List.mem_erase_of_ne fun e : r = p => hnot (e ▸ hr)).mpr (h.alloc r (by simp [hr]))
  refine ⟨_, ?_, ⟨ps, hr⟩, hr.contents, rfl⟩
  rw [dequeue, if_neg (by rw [h.isEmpty]; simp), hp, deref_of_ne h0, Outcome.ret_bind,
    decrement_of_pos (by simp [h.size]), Outcome.ret_bind]
  rfl

theorem walk_of_seg {a z p : ℕ} {l l' : List ℕ} (h : Seg q.succ p (l ++ a :: l') z) :
    q.walk l.length p = .ret a := by
  induction l generalizing p with
  | nil => rw [List.length_nil, walk, h.1]
  | cons b l ih =>
    obtain ⟨rfl, h0, hs⟩ := h
    rw [List.length_cons, walk, deref_of_ne h0, Outcome.ret_bind]
    exact ih hs

theorem eraseIdx_append_cons {α : Type} (l l' : List α) (a : α) :
    (l ++ a :: l').eraseIdx l.length = l ++ l' := by
  rw [List.eraseIdx_append_of_length_le le_rfl, Nat.sub_self, List.eraseIdx_cons_zero]

theorem Repr.unlink_first {a : ℕ} (h : Repr q (a :: ps)) : Repr { q with
    front := q.succ a
    rear := if q.queueSize = 1 then 0 else q.rear
    queueSize := q.queueSize - 1 } ps := by
  refine ⟨h.linked.2.2, (List.nodup_cons.mp h.nodup).2, ?_, by simp [h.size],
    fun r hr => h.alloc r (by simp [hr])⟩
  simp only [h.rear, h.size]
  cases ps with
  | nil => rfl
  | cons r ps =>
    rw [if_neg (by simp only [List.length_cons]; omega)]
    rfl

/-- The node after `r` is unlinked and freed. -/
theorem Repr.unlink {l₁ l₂ : List ℕ} {r b : ℕ} (h : Repr q (l₁ ++ r :: b :: l₂)) : Repr { q with
    node := Function.update q.node r { q.node r with next := (q.node b).next }
    rear := if (l₁.length + 2 : ℤ) = q.queueSize then r else q.rear
    queueSize := q.queueSize - 1
    allocated := q.allocated.erase b } (l₁ ++ r :: l₂) := by
  have hnd := h.nodup
  have hlen : (l₁ ++ r :: b :: l₂).length = l₁.length + l₂.length + 2 := by simp; ring
  obtain ⟨-, hnd₂, hdis⟩ := List.nodup_append'.mp hnd
  obtain ⟨ha₂, hnd₃⟩ := List.nodup_cons.mp hnd₂
  obtain ⟨hb₂, hnd₄⟩ := List.nodup_cons.mp hnd₃
  have hr₁ : ∀ c ∈ l₁, c ≠ r := fun c hc e => hdis hc (by simp [e])
  have hr₂ : ∀ c ∈ l₂, c ≠ r := fun c hc e => ha₂ (by simp [← e, hc])
  have hb : ∀ c ∈ l₁ ++ r :: l₂, c ≠ b := by
    intro c hc
    rcases List.mem_append.mp hc with hc | hc
    · exact fun e => hdis hc (by simp [e])
    · rcases List.mem_cons.mp hc with rfl | hc
      · exact fun e => ha₂ (by simp [e])
      · exact fun e => hb₂ (by simpa [← e] using hc)
  have hsub : (l₁ ++ r :: l₂).Sublist (l₁ ++ r :: b :: l₂) :=
    (List.Sublist.refl l₁).append ((List.sublist_cons_self b l₂).cons_cons r)
  refine ⟨h.linked.drop ?_ (fun c hc => ?_) fun c hc => ?_, hnd.sublist hsub, ?_, ?_, fun c hc => ?_⟩
  · simp [succ]
  · simp [succ, hr₁ c hc]
  · simp [succ, hr₂ c hc]
  · simp only [h.rear, h.size, hlen]
    rcases List.eq_nil_or_concat' l₂ with rfl | ⟨l₂, z, rfl⟩
    · rw [if_pos (by simp)]; simp
    · rw [if_neg (by simp; omega), show l₁ ++ r :: b :: (l₂ ++ [z]) = (l₁ ++ r :: b :: l₂) ++ [z] by
        simp, show l₁ ++ r :: (l₂ ++ [z]) = (l₁ ++ r :: l₂) ++ [z] by simp, List.getLastD_concat,
        List.getLastD_concat]
  · simp only [h.size, hlen]; simp; ring
  · exact (List.mem_erase_of_ne (hb c hc)).mpr (h.alloc c (hsub.subset hc))

/-- **`dequeue_i` removes the element at position `i`**, counted from 0 here. -/
theorem dequeueI_spec {i : ℕ} {x : ℤ × ℚ} (h : q.WF) (hx : q.contents[i]? = some x) :
    ∃ q', q.dequeueI (i + 1) = .ret (q', x.1) ∧ q'.WF ∧
      q'.contents = q.contents.eraseIdx i ∧ q'.queueSize = q.queueSize - 1 := by
  obtain ⟨ps, h⟩ := h
  have hsize := h.size
  rw [h.contents, List.getElem?_map, Option.map_eq_some_iff] at hx
  obtain ⟨p, hp, rfl⟩ := hx
  have hi : i < ps.length := (List.getElem?_eq_some_iff.mp hp).1
  have hdec : decrement q.queueSize = .ret (q.queueSize - 1) := decrement_of_pos (by omega)
  rw [h.contents, dequeueI, if_neg (by rw [hsize]; omega)]
  cases i with
  | zero =>
    obtain ⟨a, ps, rfl⟩ := List.exists_cons_of_length_pos hi
    obtain rfl : a = p := by simpa using hp
    obtain ⟨ha, h0, -⟩ := h.linked
    refine ⟨_, ?_, ⟨ps, h.unlink_first⟩, ?_, rfl⟩
    · rw [if_pos (by simp), ha, deref_of_ne h0, Outcome.ret_bind, hdec]
      rfl
    · rw [h.unlink_first.contents]
      rfl
  | succ i =>
    -- the nodes before, at and after the predecessor of the one to delete
    obtain ⟨l₁, a, b, l₂, rfl, rfl⟩ : ∃ l₁ a b l₂, ps = l₁ ++ a :: b :: l₂ ∧ l₁.length = i := by
      refine ⟨ps.take i, ps.get ⟨i, by omega⟩, ps.get ⟨i + 1, hi⟩, ps.drop (i + 2), ?_, by simp; omega⟩
      simp
    obtain rfl : b = p := by simpa using hp
    obtain ⟨r, -, rfl, ha0, hb, hb0, -⟩ := seg_append.mp h.linked
    have hb' : (q.node r).next = b := hb
    refine ⟨_, ?_, ⟨_, h.unlink⟩, ?_, rfl⟩
    · rw [if_neg (by omega), if_neg (by omega), show ((((l₁.length + 1 : ℕ) : ℤ) + 1 - 2).toNat) =
          l₁.length by omega, walk_of_seg h.linked, Outcome.ret_bind, deref_of_ne ha0,
        Outcome.ret_bind, hb', deref_of_ne hb0, Outcome.ret_bind, hdec, Outcome.ret_bind]
      simp only [Nat.cast_add, Nat.cast_one, add_assoc, Int.reduceAdd]
      simp [item]
    · rw [h.unlink.contents]
      have herase : ((l₁ ++ r :: b :: l₂).map q.item).eraseIdx (l₁.length + 1) =
          (l₁ ++ r :: l₂).map q.item := by
        have := eraseIdx_append_cons ((l₁ ++ [r]).map q.item) (l₂.map q.item) (q.item b)
        simpa using this
      rw [herase]
      apply List.map_congr_left
      intro c hc
      by_cases hcr : c = r
      · simp [item, hcr]
      · simp [item, hcr]

end Ops

end Queue

end OsHomework.Server
