import OsHomework.Lib.ByteMem
import OsHomework.Lib.Walk

/-!
# `malloc_2`: the first-fit allocator

The functions of `malloc_2.cpp`, over a byte memory. Every loop takes fuel and ends in
`Outcome.fuel` when it is used up; an `int` that overflows ends in `Outcome.ub`.

* `hdr m a`: the header read at address `a`; one setter for each field. `MallocMetadata` is 32
  bytes long: the fields sit at the offsets the compiler gives them;
* `State`: the head of the list, the memory and the program break; `sbrk`;
* `malloc`, `free`, `sreallocList` of `MemList`, and the four functions of the interface;
* `forEach`: the loop through the list that the statistics share, and the statistics.

Addresses and `size_t` values are naturals; where the code may wrap around, the model does.
-/

set_option autoImplicit false

namespace OsHomework.Malloc2

/-- `MAX_SIZE_TO_ALLOCATE`. -/
def maxSizeToAllocate : ℕ := 100000000

/-- `sizeof(MallocMetadata)`. -/
def sizeofMetadata : ℕ := 32

/-- The largest `int`. -/
def intMax : ℕ := 2 ^ 31 - 1

/-! ## Headers -/

/-- The header of a block. -/
structure MallocMetadata where
  size : ℕ
  isFree : Bool
  next : ℕ
  prev : ℕ
  deriving DecidableEq, Repr

section Header

variable (m : Mem) (a : ℕ)

/-- The header read at `a`. -/
def hdr : MallocMetadata where
  size := m.load a 8
  isFree := m.load (a + 8) 1 != 0
  next := m.load (a + 16) 8
  prev := m.load (a + 24) 8

def setSize (v : ℕ) : Mem := m.store a 8 v
def setIsFree (b : Bool) : Mem := m.store (a + 8) 1 b.toNat
def setNext (v : ℕ) : Mem := m.store (a + 16) 8 v
def setPrev (v : ℕ) : Mem := m.store (a + 24) 8 v

theorem hdr_congr {m m' : Mem} {a : ℕ} (h : ∀ x, a ≤ x → x < a + 32 → m x = m' x) :
    hdr m a = hdr m' a := by
  have key : ∀ o n, o + n ≤ 32 → m.load (a + o) n = m'.load (a + o) n := fun o n hle =>
    Mem.load_congr fun x h₁ h₂ => h x (by omega) (by omega)
  simp only [hdr, key 8 1 (by norm_num), key 16 8 (by norm_num), key 24 8 (by norm_num),
    show m.load a 8 = m'.load a 8 from key 0 8 (by norm_num)]

theorem hdr_setSize (v : ℕ) : hdr (setSize m a v) a = { hdr m a with size := v % 2 ^ 64 } := by
  simp [hdr, setSize, Mem.load_store_same, Mem.load_store_disjoint]

theorem hdr_setIsFree (b : Bool) : hdr (setIsFree m a b) a = { hdr m a with isFree := b } := by
  cases b <;> simp [hdr, setIsFree, Mem.load_store_same, Mem.load_store_disjoint]

theorem hdr_setNext (v : ℕ) : hdr (setNext m a v) a = { hdr m a with next := v % 2 ^ 64 } := by
  simp [hdr, setNext, Mem.load_store_same, Mem.load_store_disjoint]

theorem hdr_setPrev (v : ℕ) : hdr (setPrev m a v) a = { hdr m a with prev := v % 2 ^ 64 } := by
  simp [hdr, setPrev, Mem.load_store_same, Mem.load_store_disjoint]

variable {x : ℕ}

theorem setSize_out (v : ℕ) (h : x < a ∨ a + 32 ≤ x) : setSize m a v x = m x :=
  Mem.store_out (by omega)

theorem setIsFree_out (b : Bool) (h : x < a ∨ a + 32 ≤ x) : setIsFree m a b x = m x :=
  Mem.store_out (by omega)

theorem setNext_out (v : ℕ) (h : x < a ∨ a + 32 ≤ x) : setNext m a v x = m x :=
  Mem.store_out (by omega)

theorem setPrev_out (v : ℕ) (h : x < a ∨ a + 32 ≤ x) : setPrev m a v x = m x :=
  Mem.store_out (by omega)

end Header

/-! ## `Malloc`, `Free`, `Srealloc` -/

/-- The allocator, the memory and the program break. -/
structure State where
  mem : Mem
  head : ℕ
  brk : ℕ

/-- `sbrk` either fails or moves the break up by `n` bytes and returns the old one. It fails when the
system says so, and when the break would leave the address space. -/
def sbrk (ok : Bool) (s : State) (n : ℕ) : Option (State × ℕ) :=
  if ok ∧ s.brk + n < 2 ^ 64 then some ({ s with brk := s.brk + n }, s.brk) else none

/-- The loop of `malloc`: the first free block that is large enough, or the last block of the
list. -/
def findBlock (m : Mem) (size : ℕ) : ℕ → ℕ → ℕ → Outcome (ℕ ⊕ ℕ)
  | 0, _, _ => .fuel
  | n + 1, curr, last =>
    if curr = 0 then .ret (.inr last)
    else if (hdr m curr).isFree ∧ size ≤ (hdr m curr).size then .ret (.inl curr)
    else findBlock m size n (hdr m curr).next curr

/-- Write the header of the new block `curr`. -/
def writeHeader (m : Mem) (curr last size : ℕ) : Mem :=
  let m := setIsFree m curr false
  let m := setSize m curr size
  let m := setNext m curr 0
  setPrev m curr last

/-- Put the new block `curr` at the end of the list, after `last`. -/
def appendBlock (s : State) (curr last size : ℕ) : State :=
  let m := writeHeader s.mem curr last size
  if s.head = 0 then { s with mem := m, head := curr } else { s with mem := setNext m last curr }

/-- `MemList::Malloc`: the state and the pointer, `0` for `NULL`. -/
def malloc (ok : Bool) (fuel : ℕ) (s : State) (size : ℕ) : Outcome (State × ℕ) := do
  match ← findBlock s.mem size fuel s.head s.head with
  | .inl curr => .ret ({ s with mem := setIsFree s.mem curr false }, curr + sizeofMetadata)
  | .inr last =>
    match sbrk ok s (size + sizeofMetadata) with
    | none => .ret (s, 0)
    | some (s, curr) => .ret (appendBlock s curr last size, curr + sizeofMetadata)

/-- The header of the block whose payload starts at `p`. -/
def headerOf (p : ℕ) : ℕ := subSize p sizeofMetadata

/-- `MemList::Free`. There is no test for `NULL`. -/
def free (s : State) (p : ℕ) : State := { s with mem := setIsFree s.mem (headerOf p) true }

/-- `MemList::Srealloc`. -/
def sreallocList (ok : Bool) (fuel : ℕ) (s : State) (oldp size : ℕ) : Outcome (State × ℕ) :=
  let oldSize := (hdr s.mem (headerOf oldp)).size
  if size ≤ oldSize then .ret (s, oldp)
  else do
    let (s, addr) ← malloc ok fuel s size
    if addr = 0 then .ret (s, 0)
    else .ret (free { s with mem := s.mem.copy addr oldp oldSize } oldp, addr)

/-! ## The interface -/

def smalloc (ok : Bool) (fuel : ℕ) (s : State) (size : ℕ) : Outcome (State × ℕ) :=
  if size = 0 ∨ maxSizeToAllocate < size then .ret (s, 0) else malloc ok fuel s size

def scalloc (ok : Bool) (fuel : ℕ) (s : State) (num size : ℕ) : Outcome (State × ℕ) :=
  let totalSize := num * size % 2 ^ 64
  if size = 0 ∨ num = 0 ∨ maxSizeToAllocate < totalSize then .ret (s, 0)
  else do
    let (s, addr) ← malloc ok fuel s totalSize
    if addr = 0 then .ret (s, 0)
    else .ret ({ s with mem := s.mem.fill addr totalSize 0 }, addr)

def sfree (s : State) (p : ℕ) : State := free s p

def srealloc (ok : Bool) (fuel : ℕ) (s : State) (oldp size : ℕ) : Outcome (State × ℕ) :=
  if size = 0 ∨ maxSizeToAllocate < size then .ret (s, 0)
  else if oldp = 0 then smalloc ok fuel s size
  else sreallocList ok fuel s oldp size

/-! ## Statistics -/

/-- The loop of the statistics: `body` on every block from `curr` on. -/
def forEach {σ : Type} (m : Mem) (body : σ → ℕ → Outcome σ) (fuel curr : ℕ) (acc : σ) : Outcome σ :=
  walk (fun a => (hdr m a).next) body fuel curr acc

def getNumberOfFreeBlocks (fuel : ℕ) (s : State) : Outcome ℕ :=
  forEach s.mem (fun counter curr =>
    .ret (if (hdr s.mem curr).isFree then (counter + 1) % 2 ^ 64 else counter)) fuel s.head 0

def getNumberOfFreeBytes (fuel : ℕ) (s : State) : Outcome ℕ :=
  forEach s.mem (fun bytesCount curr =>
    .ret (if (hdr s.mem curr).isFree then (bytesCount + (hdr s.mem curr).size) % 2 ^ 64
      else bytesCount)) fuel s.head 0

def getNumberOfAllocatedBlocks (fuel : ℕ) (s : State) : Outcome ℕ :=
  forEach s.mem (fun counter _ => .ret ((counter + 1) % 2 ^ 64)) fuel s.head 0

/-- The counter of this function is an `int`; the others count in `size_t`. -/
def getNumberOfAllocatedBytes (fuel : ℕ) (s : State) : Outcome ℕ :=
  if s.head = 0 then .ret 0
  else do
    let (counter, last) ← forEach s.mem (fun (counter, _) curr =>
      if counter < intMax then .ret (counter + 1, curr) else .ub) fuel s.head (0, s.head)
    .ret (subSize ((subSize last s.head + (hdr s.mem last).size) % 2 ^ 64)
      (sizeofMetadata * (counter - 1)))

def numFreeBlocks (fuel : ℕ) (s : State) : Outcome ℕ := getNumberOfFreeBlocks fuel s
def numFreeBytes (fuel : ℕ) (s : State) : Outcome ℕ := getNumberOfFreeBytes fuel s
def numAllocatedBlocks (fuel : ℕ) (s : State) : Outcome ℕ := getNumberOfAllocatedBlocks fuel s
def numAllocatedBytes (fuel : ℕ) (s : State) : Outcome ℕ := getNumberOfAllocatedBytes fuel s

def numMetaDataBytes (fuel : ℕ) (s : State) : Outcome ℕ := do
  let blocks ← getNumberOfAllocatedBlocks fuel s
  .ret (blocks * sizeofMetadata % 2 ^ 64)

def sizeMetaData : ℕ := sizeofMetadata

end OsHomework.Malloc2
