import OsHomework.Lib.ByteHeap

/-!
# `malloc_1`

The allocator without headers: every request moves the program break, and nothing is ever released. It keeps no
record of the blocks; the lengths of the blocks are those that the client asked for.

* `State`, `smalloc`: the code; `World`: the client with what it was given;
* `Inv`: the blocks lie below the break and do not overlap; `Answers.refines`: one call is one step of the heap;
* **`breaks_refine_heap`**: every run is a run of the heap.
-/

set_option autoImplicit false

namespace OsHomework.Malloc1

/-- `MAX_SIZE_TO_ALLOCATE`. -/
def maxSizeToAllocate : ℕ := 100000000

/-- The memory and the program break. -/
structure State where
  mem : Mem
  brk : ℕ

/-- `sbrk` either fails or moves the break up by `n` bytes and returns the old one. It fails when the system says so,
and when the break would leave the address space. -/
def sbrk (ok : Bool) (s : State) (n : ℕ) : Option (State × ℕ) :=
  if ok ∧ s.brk + n < 2 ^ 64 then some ({ s with brk := s.brk + n }, s.brk) else none

/-- The state and the pointer, `0` for `NULL`. -/
def smalloc (ok : Bool) (s : State) (size : ℕ) : State × ℕ :=
  if size = 0 ∨ maxSizeToAllocate < size then (s, 0)
  else
    match sbrk ok s size with
    | none => (s, 0)
    | some (s, previousProgramBreak) => (s, previousProgramBreak)

/-- **`smalloc` moves the break**, or returns `NULL` and changes nothing. -/
theorem smalloc_cases (ok : Bool) (s : State) (size : ℕ) :
    smalloc ok s size = (s, 0) ∨
      0 < size ∧ size ≤ maxSizeToAllocate ∧ smalloc ok s size = ({ s with brk := s.brk + size }, s.brk) := by
  rw [smalloc, sbrk]
  by_cases hs : size = 0 ∨ maxSizeToAllocate < size
  · exact .inl (if_pos hs)
  · rw [if_neg hs]
    split_ifs
    · exact .inr ⟨by omega, by omega, rfl⟩
    · exact .inl rfl

/-! ## The client -/

/-- The allocator, the pointers the client holds, and how much it asked for. -/
structure World where
  st : State
  live : List ℕ
  len : ℕ → ℕ

/-- What the client does; `ok` says whether `sbrk` would succeed. -/
inductive Op where
  | smalloc (ok : Bool) (size : ℕ)
  | write (x : ℕ) (v : UInt8)

/-- A block of `size` bytes was asked for, and `r` was returned. -/
def World.given (w : World) (s : State) (r size : ℕ) : World :=
  if r = 0 then { w with st := s } else ⟨s, r :: w.live, Function.update w.len r size⟩

/-- The client makes the call, and gets a pointer. It writes only into what it has. -/
inductive Answers (w : World) : Op × ℕ → World → Prop
  | smalloc {ok : Bool} {size r : ℕ} {s : State} (h : Malloc1.smalloc ok w.st size = (s, r)) :
    Answers w (.smalloc ok size, r) (w.given s r size)
  | write {p x : ℕ} {v : UInt8} (hp : p ∈ w.live) (hx : p ≤ x ∧ x < p + w.len p) :
    Answers w (.write x v, 0) { w with st := { w.st with mem := Function.update w.st.mem x v } }

/-- The program before its first allocation. -/
def start (m : Mem) (brk₀ : ℕ) : World := ⟨⟨m, brk₀⟩, [], fun _ => 0⟩

/-- The heap of the client. -/
def heapOf (w : World) : ByteHeap := ByteHeap.image w.st.mem w.len w.live

/-- The event of the heap. -/
inductive Asks : Op × ℕ → ByteHeap.Event → Prop
  | smalloc (ok : Bool) (size r : ℕ) : Asks (.smalloc ok size, r) (.alloc size r)
  | write (p i r : ℕ) (v : UInt8) : Asks (.write (p + i) v, r) (.write p i v)

/-! ## The refinement -/

/-- The blocks lie below the break and do not overlap. -/
structure Inv (w : World) : Prop where
  pos : 0 < w.st.brk
  below : ∀ p ∈ w.live, 0 < w.len p ∧ p + w.len p ≤ w.st.brk
  apart : ∀ p ∈ w.live, ∀ q ∈ w.live, p ≠ q → p + w.len p ≤ q ∨ q + w.len q ≤ p

section Refines

variable {w w' : World} {c : Op × ℕ}

theorem Inv.brk_not_mem (h : Inv w) : w.st.brk ∉ w.live := fun hmem => by
  have := h.below _ hmem
  omega

/-- **The break moves** past a new block, which is behind all others. -/
theorem Inv.alloc (h : Inv w) {size : ℕ} (hs : 0 < size) :
    Inv ⟨{ w.st with brk := w.st.brk + size }, w.st.brk :: w.live, Function.update w.len w.st.brk size⟩ := by
  have hold : ∀ p ∈ w.live, Function.update w.len w.st.brk size p = w.len p := by
    intro p hp
    apply Function.update_of_ne
    rintro rfl
    exact h.brk_not_mem hp
  have hnew : Function.update w.len w.st.brk size w.st.brk = size := Function.update_self ..
  refine ⟨Nat.add_pos_left h.pos size, ?_, ?_⟩
  · rintro p (_ | ⟨_, hp⟩)
    · simp only [hnew]
      exact ⟨hs, le_rfl⟩
    · simp only [hold p hp]
      have := h.below p hp
      omega
  · rintro p (_ | ⟨_, hp⟩) q (_ | ⟨_, hq⟩) hpq
    · exact absurd rfl hpq
    · have := h.below q hq
      simp only [hold q hq]
      omega
    · have := h.below p hp
      simp only [hold p hp]
      omega
    · simp only [hold p hp, hold q hq]
      exact h.apart p hp q hq hpq

/-- **One call is one step of the heap**, and keeps the invariant. -/
theorem Answers.refines (h : Inv w) (hs : Answers w c w') :
    Inv w' ∧ ∃ e, Asks c e ∧ ByteHeap.Step (heapOf w) e (heapOf w') := by
  cases hs with
  | @smalloc ok size r s he =>
    rcases smalloc_cases ok w.st size with hnull | ⟨hpos, -, hmoved⟩
    · obtain ⟨rfl, rfl⟩ := Prod.mk.inj (he.symm.trans hnull)
      exact ⟨h, _, .smalloc ok size 0, .allocFails size⟩
    · obtain ⟨rfl, rfl⟩ := Prod.mk.inj (he.symm.trans hmoved)
      rw [World.given, if_neg h.pos.ne']
      refine ⟨h.alloc hpos, _, .smalloc ok size _,
        .of_alloc h.pos.ne' h.brk_not_mem ?_ fun p hp => ⟨?_, fun _ _ => rfl⟩⟩
      · exact (Function.update_self w.st.brk size w.len).ge
      · apply Function.update_of_ne
        rintro rfl
        exact h.brk_not_mem hp
  | @write p x v hp hx =>
    obtain ⟨i, rfl⟩ := Nat.exists_eq_add_of_le hx.1
    refine ⟨⟨h.pos, h.below, h.apart⟩, _, .write p i 0 v,
      .of_write hp (by omega) (fun _ _ => rfl) fun q hq hne j hj => ?_⟩
    have := h.apart q hq p hp hne
    omega

theorem inv_start {m : Mem} {brk₀ : ℕ} (h : 0 < brk₀) : Inv (start m brk₀) :=
  ⟨h, fun _ hp => absurd hp List.not_mem_nil, fun _ hp => absurd hp List.not_mem_nil⟩

/-- **Every run of `malloc_1` is a run of the heap.** -/
theorem breaks_refine_heap {m : Mem} {brk₀ : ℕ} (h : 0 < brk₀) {cs : List (Op × ℕ)}
    (hr : Run Answers (start m brk₀) cs w) :
    ∃ es, Run ByteHeap.Step ByteHeap.empty es (heapOf w) ∧ List.Forall₂ Asks cs es :=
  (hr.simulates (inv_start h) fun _ _ _ hi hs => hs.refines hi).2

/-- Two blocks, and a byte in the first of them. -/
theorem breaks_refine_heap_two_blocks : ∃ cs w, Run Answers (start (fun _ => 0) 4096) cs w ∧ cs.length = 3 ∧
    ∃ es, Run ByteHeap.Step ByteHeap.empty es (heapOf w) ∧ List.Forall₂ Asks cs es := by
  have hrun : Run Answers (start (fun _ => 0) 4096)
      [(.smalloc true 10, 4096), (.smalloc true 5, 4106), (.write 4105 7, 0)] _ :=
    .cons (.smalloc rfl) (.cons (.smalloc rfl) (.cons (.write (p := 4096) (by decide) (by decide)) (.nil _)))
  exact ⟨_, _, hrun, rfl, breaks_refine_heap (by norm_num) hrun⟩

end Refines

end OsHomework.Malloc1
