import Mathlib.Data.List.Sort
import OsHomework.Lib.Walk
import OsHomework.Malloc3.Header

/-!
# `malloc_3`: the buddy allocator

The functions of `malloc_3.cpp`, over a byte memory. Every loop takes fuel and ends in
`Outcome.fuel` when it is used up; `exit(0xdeadbeef)` is an outcome of its own; a shift or a
product that overflows `int`, an index outside `freed[]` and a step past the end of the mmap list
have no defined meaning and end in `Outcome.ub`.

* `State`: the members of `MemList`, the memory, the program break, and the `munmap` calls made;
* `Sys`: what the system calls of one call answer;
* `getFreeBlock`, `splitIfPossible`, `unionIfPossible`, `checkIfUnionIsPossible`,
  `sreallocUnion`, `addToFreeOrder`;
* `malloc`, `free`, `srealloc` of `MemList`, and the four functions of the interface;
* `forEach`: the loop through a list that the statistics share, and the statistics.

Addresses and `size_t` values are naturals; where the code may wrap around, the model does.
-/

set_option autoImplicit false

namespace OsHomework.Malloc3

/-- `MAX_SIZE_TO_ALLOCATE`. -/
def maxSizeToAllocate : ℕ := 100000000

/-- `MAX_ORDER`. -/
def maxOrder : ℕ := 10

/-- The largest `int`. -/
def intMax : ℕ := 2 ^ 31 - 1

/-- `MAX_SIZE`: requests from here on are mapped. -/
def maxSize : ℕ := 128 * 1024

/-- The argument of `exit` when a cookie is wrong. -/
def exitCode : ℕ := 0xdeadbeef

/-- The allocator, the memory and the program break. -/
structure State where
  mem : Mem
  head : ℕ
  mmapHead : ℕ
  freed : ℕ → List ℕ
  cookie : ℕ
  brk : ℕ
  unmapped : List (ℕ × ℕ)

/-- The answers of the system during one call: whether `sbrk` succeeds, and what `mmap` returns
(`none` is `MAP_FAILED`). -/
structure Sys where
  sbrkOk : Bool
  mmapAddr : Option ℕ

/-! ## Arithmetic -/

/-- `pow2`: a shift of an `int`. -/
def pow2 (i : ℤ) : Outcome ℕ := if 0 ≤ i ∧ i < 31 then .ret (2 ^ i.toNat) else .ub

/-- `pow2(i) * START_SIZE`, a product of `int`s. -/
def blockBytes (i : ℤ) : Outcome ℕ := do
  let p ← pow2 i
  if p * startSize < 2 ^ 31 then .ret (p * startSize) else .ub

/-- The address of the buddy at the given order. -/
def buddyAddr (addr : ℕ) (order : ℤ) : Outcome ℕ := do
  let bytes ← blockBytes order
  .ret (addr ^^^ bytes)

/-! ## Free lists -/

/-- An index into `freed[]`. -/
def freedIdx (order : ℤ) : Outcome ℕ :=
  if 0 ≤ order ∧ order ≤ maxOrder then .ret order.toNat else .ub

/-- `freed[order].remove(addr)`. -/
def removeFreed (s : State) (order : ℤ) (addr : ℕ) : Outcome State := do
  let i ← freedIdx order
  .ret { s with freed := Function.update s.freed i ((s.freed i).filter (· ≠ addr)) }

/-- Insert before the first entry that is not below `addr`; the lists are sorted. -/
def addToFreeOrder (s : State) (addr : ℕ) (order : ℤ) : Outcome State := do
  let i ← freedIdx order
  .ret { s with freed := Function.update s.freed i ((s.freed i).orderedInsert (· ≤ ·) addr) }

/-- The search of `getFreeBlock` through the given orders. -/
def getFreeBlockFrom (s : State) (size : ℕ) : List ℕ → Option (State × ℕ)
  | [] => none
  | i :: is =>
    match s.freed i with
    | [] => getFreeBlockFrom s size is
    | addr :: rest =>
      if size ≤ 2 ^ i * startSize - sizeofMetadata then
        some ({ s with freed := Function.update s.freed i rest }, addr)
      else getFreeBlockFrom s size is

/-- Take the first block of the least order that is large enough and has a free block. -/
def getFreeBlock (s : State) (size : ℕ) : Option (State × ℕ) :=
  getFreeBlockFrom s size (List.range (maxOrder + 1))

/-! ## Splitting -/

/-- `if(next != NULL) next->prev = v`. -/
def setPrevIf (m : Mem) (next v : ℕ) : Mem := if next ≠ 0 then setPrev m next v else m

/-- Write the header of the right half. -/
def writeBuddy (s : State) (addr buddy : ℕ) : Outcome Mem := do
  let m := setCookie s.mem buddy s.cookie
  let m := setPrev m buddy addr
  let m := setNext m buddy (hdr m addr).next
  let m := setIsFree m buddy true
  let m := setIsMmap m buddy false
  let m := setOrder m buddy ((hdr m addr).order - 1)
  let bytes ← blockBytes (hdr m buddy).order
  .ret (setSize m buddy (subSize bytes sizeofMetadata))

/-- Link the right half in, and shorten the left one. -/
def linkBuddy (m : Mem) (addr buddy : ℕ) : Mem :=
  let nextToBuddy := (hdr m addr).next
  let m := setPrevIf m nextToBuddy buddy
  let m := setOrder m addr ((hdr m addr).order - 1)
  let m := setNext m addr buddy
  setSize m addr (hdr m buddy).size

/-- The body of the loop of `splitIfPossible`. -/
def splitStep (s : State) (addr : ℕ) : Outcome State := do
  let buddy ← buddyAddr addr ((hdr s.mem addr).order - 1)
  let m ← writeBuddy s addr buddy
  let s ← addToFreeOrder { s with mem := m } buddy (hdr m buddy).order
  .ret { s with mem := linkBuddy s.mem addr buddy }

/-- The loop of `splitIfPossible`. -/
def splitLoop : ℕ → State → ℕ → ℕ → Outcome State
  | 0, _, _, _ => .fuel
  | n + 1, s, addr, size =>
    if 0 < (hdr s.mem addr).order then
      if size ≤ subSize (hdr s.mem addr).size sizeofMetadata / 2 then do
        let s ← splitStep s addr
        splitLoop n s addr size
      else .ret s
    else .ret s

def splitIfPossible (fuel : ℕ) (s : State) (addr size : ℕ) : Outcome State :=
  if (hdr s.mem addr).cookie ≠ s.cookie then .exit exitCode
  else do
    let s ← splitLoop fuel s addr size
    .ret { s with mem := setIsFree s.mem addr false }

/-! ## Merging -/

/-- `keep` swallows `gone`. The two branches of the merge loops do this with the roles of `addr`
and `buddy` exchanged. -/
def absorb (s : State) (keep gone : ℕ) : Outcome State := do
  let m := setNext s.mem keep (hdr s.mem gone).next
  let m := setOrder m keep ((hdr m keep).order + 1)
  let bytes ← blockBytes (hdr m keep).order
  let m := setSize m keep (subSize bytes sizeofMetadata)
  let m := setIsFree m keep true
  .ret { s with mem := setPrevIf m (hdr m gone).next keep }

/-- The body of the merge loops of `unionIfPossible` and `sreallocUnion`: the state, and the new
`addr` and `buddy`. -/
def mergeStep (s : State) (addr buddy : ℕ) : Outcome (State × ℕ × ℕ) :=
  if (hdr s.mem buddy).cookie ≠ s.cookie ∨ (hdr s.mem addr).cookie ≠ s.cookie then .exit exitCode
  else do
    let s ← removeFreed s (hdr s.mem buddy).order buddy
    let s ← removeFreed s (hdr s.mem buddy).order addr
    let keep := if addr < buddy then addr else buddy
    let gone := if addr < buddy then buddy else addr
    let s ← absorb s keep gone
    let buddy ← buddyAddr keep (hdr s.mem keep).order
    .ret (s, keep, buddy)

/-- The loop of `unionIfPossible`. -/
def unionLoop : ℕ → State → ℕ → ℕ → Outcome (State × ℕ)
  | 0, _, _, _ => .fuel
  | n + 1, s, addr, buddy =>
    if (hdr s.mem buddy).isFree ∧ (hdr s.mem buddy).order < 10 then do
      let (s, addr, buddy) ← mergeStep s addr buddy
      unionLoop n s addr buddy
    else .ret (s, addr)

def unionIfPossible (fuel : ℕ) (s : State) (addr : ℕ) : Outcome State :=
  if (hdr s.mem addr).isMmap then .ret s
  else do
    let buddy ← buddyAddr addr (hdr s.mem addr).order
    let (s, addr) ← unionLoop fuel s addr buddy
    let s := { s with mem := setIsFree s.mem addr true }
    addToFreeOrder s addr (hdr s.mem addr).order

/-- The loop of `checkIfUnionIsPossible`, with its copies of the two headers. The copy of the
buddy's header that the left branch updates is overwritten at once; only the overflow of its size
can be seen. -/
def checkLoop (s : State) (addr size : ℕ) :
    ℕ → ℕ → ℕ → MallocMetadata → MallocMetadata → Outcome Bool
  | 0, _, _, _, _ => .fuel
  | n + 1, fakeAddr, fakeBuddy, fakeAddrMm, fakeBuddyMm =>
    if fakeBuddyMm.isFree ∧ fakeBuddyMm.order < 10 ∧ fakeAddrMm.size < size then
      if fakeBuddyMm.cookie ≠ s.cookie ∨ fakeAddrMm.cookie ≠ s.cookie then .exit exitCode
      else if fakeAddr < fakeBuddy then do
        let bytes ← blockBytes (fakeAddrMm.order + 1)
        let fakeAddrMm := { fakeAddrMm with
          next := (hdr s.mem fakeBuddy).next
          order := fakeAddrMm.order + 1
          size := subSize bytes sizeofMetadata }
        let fakeBuddy ← buddyAddr addr fakeAddrMm.order
        checkLoop s addr size n fakeAddr fakeBuddy fakeAddrMm (hdr s.mem fakeBuddy)
      else do
        let _ ← blockBytes (fakeBuddyMm.order + 1)
        let fakeAddr := fakeBuddy
        let fakeAddrMm := hdr s.mem fakeAddr
        let fakeBuddy ← buddyAddr addr fakeAddrMm.order
        checkLoop s addr size n fakeAddr fakeBuddy fakeAddrMm (hdr s.mem fakeBuddy)
    else .ret (size ≤ fakeAddrMm.size)

def checkIfUnionIsPossible (fuel : ℕ) (s : State) (addr size : ℕ) : Outcome Bool := do
  let buddy ← buddyAddr addr (hdr s.mem addr).order
  checkLoop s addr size fuel addr buddy (hdr s.mem addr) (hdr s.mem buddy)

/-- The loop of `sreallocUnion`: the state, and the final `addr` and `buddy`. -/
def sreallocLoop (size : ℕ) : ℕ → State → ℕ → ℕ → Outcome (State × ℕ × ℕ)
  | 0, _, _, _ => .fuel
  | n + 1, s, addr, buddy =>
    if (hdr s.mem buddy).isFree ∧ (hdr s.mem buddy).order < 10 ∧ (hdr s.mem addr).size < size then do
      let (s, addr, buddy) ← mergeStep s addr buddy
      sreallocLoop size n s addr buddy
    else .ret (s, addr, buddy)

def sreallocUnion (fuel : ℕ) (s : State) (addr size : ℕ) : Outcome (State × ℕ) := do
  let buddy ← buddyAddr addr (hdr s.mem addr).order
  let (s, addr, buddy) ← sreallocLoop size fuel s addr buddy
  let s := { s with mem := setIsFree s.mem addr false }
  let s ← addToFreeOrder s buddy (hdr s.mem addr).order
  .ret (s, addr)

/-! ## `Malloc`, `Free`, `Srealloc` -/

/-- The `i`-th of the 32 blocks the arena starts with. -/
def initBlock (head : ℕ) (s : State) (i : ℕ) : State :=
  { s with
    mem := setHdr s.mem (head + i * maxSize)
      { cookie := s.cookie, size := maxSize - sizeofMetadata, isFree := true, isMmap := false,
        order := maxOrder, next := head + (i + 1) * maxSize,
        prev := if i = 0 then 0 else head + (i - 1) * maxSize }
    freed := Function.update s.freed maxOrder (s.freed maxOrder ++ [head + i * maxSize]) }

/-- The set-up of the arena by the first call. The answer of `sbrk` is not looked at. -/
def initArena (s : State) (sbrkOk : Bool) : State :=
  let alignmentOffset := s.brk % (32 * maxSize)
  let bytesToAlign := if alignmentOffset = 0 then 0 else 32 * maxSize - alignmentOffset
  let head := s.brk + bytesToAlign
  let brk := if 0 < bytesToAlign ∧ sbrkOk then s.brk + bytesToAlign + 32 * maxSize else s.brk
  let s := (List.range 32).foldl (initBlock head) { s with head, brk }
  { s with mem := setNext s.mem (head + 31 * maxSize) 0 }

/-- Walk to the last block of the mmap list. -/
def lastMmap (m : Mem) : ℕ → ℕ → ℕ → Outcome ℕ
  | 0, _, _ => .fuel
  | n + 1, curr, last => if curr ≠ 0 then lastMmap m n (hdr m curr).next curr else .ret last

/-- Put a freshly mapped block at the end of the mmap list. -/
def linkMmap (fuel : ℕ) (s : State) (addr size : ℕ) : Outcome State :=
  if s.mmapHead = 0 then
    let m := setOrder s.mem addr (-1)
    let m := setNext m addr 0
    let m := setSize m addr size
    let m := setPrev m addr 0
    let m := setCookie m addr s.cookie
    .ret { s with mem := setIsMmap m addr true, mmapHead := addr }
  else do
    let last ← lastMmap s.mem fuel s.mmapHead s.mmapHead
    let m := setNext s.mem last addr
    let m := setCookie m addr s.cookie
    let m := setOrder m addr (-1)
    let m := setNext m addr 0
    let m := setSize m addr size
    let m := setPrev m addr last
    .ret { s with mem := setIsMmap m addr true }

/-- `MemList::Malloc`: the state and the pointer, `0` for `NULL`. -/
def malloc (sys : Sys) (fuel : ℕ) (s : State) (size : ℕ) : Outcome (State × ℕ) :=
  let s := if s.head = 0 then initArena s sys.sbrkOk else s
  if size = 0 ∨ maxSizeToAllocate < size then .ret (s, 0)
  else if maxSize ≤ size then
    match sys.mmapAddr with
    | none => .ret (s, 0)
    | some addr => do
      -- anonymous mappings are zero-filled
      let s := { s with mem := s.mem.fill addr (sizeofMetadata + size) 0 }
      let s ← linkMmap fuel s addr size
      .ret (s, addr + sizeofMetadata)
  else
    match getFreeBlock s size with
    | none => .ret (s, 0)
    | some (s, addr) => do
      let s ← splitIfPossible fuel s addr size
      .ret (s, addr + sizeofMetadata)

/-- The header of the block whose payload starts at `p`. -/
def headerOf (p : ℕ) : ℕ := subSize p sizeofMetadata

/-- Walk the mmap list to `start`: the block before it. -/
def prevMmap (m : Mem) (start : ℕ) : ℕ → ℕ → ℕ → Outcome ℕ
  | 0, _, _ => .fuel
  | n + 1, curr, last =>
    if curr ≠ start then if curr = 0 then .ub else prevMmap m start n (hdr m curr).next curr
    else .ret last

/-- `MemList::Free`. -/
def free (fuel : ℕ) (s : State) (p : ℕ) : Outcome State :=
  if p = 0 then .ret s
  else
    let start := headerOf p
    if (hdr s.mem start).isMmap then
      if s.mmapHead = start then .ret { s with mmapHead := (hdr s.mem s.mmapHead).next }
      else do
        let last ← prevMmap s.mem start fuel s.mmapHead s.mmapHead
        let m := setNext s.mem last (hdr s.mem start).next
        let m := setPrevIf m (hdr m start).next last
        if (hdr m start).cookie ≠ s.cookie then .exit exitCode
        else .ret { s with
          mem := m
          unmapped := (start, (hdr m start).size + sizeofMetadata) :: s.unmapped }
    else unionIfPossible fuel s start

/-- `MemList::Srealloc`. -/
def sreallocList (sys : Sys) (fuel : ℕ) (s : State) (oldp size : ℕ) : Outcome (State × ℕ) :=
  let start := headerOf oldp
  let oldSize := (hdr s.mem start).size
  if size ≤ oldSize then .ret (s, oldp)
  else do
    let possible ← checkIfUnionIsPossible fuel s start size
    if possible then do
      let (s, block) ← sreallocUnion fuel s start size
      let addr := block + sizeofMetadata
      .ret ({ s with mem := s.mem.copy addr oldp oldSize }, addr)
    else do
      let (s, addr) ← malloc sys fuel s size
      if addr = 0 then .ret (s, 0)
      else do
        let s ← free fuel { s with mem := s.mem.copy addr oldp oldSize } oldp
        .ret (s, addr)

/-! ## The interface -/

def smalloc (sys : Sys) (fuel : ℕ) (s : State) (size : ℕ) : Outcome (State × ℕ) :=
  malloc sys fuel s size

def scalloc (sys : Sys) (fuel : ℕ) (s : State) (num size : ℕ) : Outcome (State × ℕ) :=
  let totalSize := num * size % 2 ^ 64
  if size = 0 ∨ num = 0 ∨ maxSizeToAllocate < totalSize then .ret (s, 0)
  else do
    let (s, addr) ← malloc sys fuel s totalSize
    if addr = 0 then .ret (s, 0)
    else .ret ({ s with mem := s.mem.fill addr totalSize 0 }, addr)

def sfree (fuel : ℕ) (s : State) (p : ℕ) : Outcome State := free fuel s p

def srealloc (sys : Sys) (fuel : ℕ) (s : State) (oldp size : ℕ) : Outcome (State × ℕ) :=
  if size = 0 ∨ maxSizeToAllocate < size then .ret (s, 0)
  else if oldp = 0 then smalloc sys fuel s size
  else sreallocList sys fuel s oldp size

/-! ## Statistics -/

/-- The loop of the statistics: `body` on every block from `curr` on. -/
def forEach {σ : Type} (m : Mem) (body : σ → ℕ → Outcome σ) (fuel curr : ℕ) (acc : σ) : Outcome σ :=
  walk (fun a => (hdr m a).next) body fuel curr acc

def getNumberOfFreeBlocks (fuel : ℕ) (s : State) : Outcome ℕ :=
  forEach s.mem (fun counter curr =>
    .ret (if (hdr s.mem curr).isFree then (counter + 1) % 2 ^ 64 else counter)) fuel s.head 0

def getNumberOfFreeBytes (fuel : ℕ) (s : State) : Outcome ℕ :=
  forEach s.mem (fun bytesCount curr =>
    .ret (if (hdr s.mem curr).isFree then (bytesCount + (hdr s.mem curr).size) % 2 ^ 64
      else bytesCount)) fuel s.head 0

/-- Both lists are counted. -/
def getNumberOfAllocatedBlocks (fuel : ℕ) (s : State) : Outcome ℕ := do
  let counter ← forEach s.mem (fun counter _ => .ret ((counter + 1) % 2 ^ 64)) fuel s.head 0
  forEach s.mem (fun counter _ => .ret ((counter + 1) % 2 ^ 64)) fuel s.mmapHead counter

/-- The blocks of the arena are counted in an `int`, and their sizes are not added up: the address of the
first header is subtracted from that of the last. -/
def getNumberOfAllocatedBytes (fuel : ℕ) (s : State) : Outcome ℕ :=
  if s.head = 0 then .ret 0
  else do
    let (counter, last) ← forEach s.mem (fun (acc : ℕ × ℕ) curr =>
      if acc.1 < intMax then .ret (acc.1 + 1, curr) else .ub) fuel s.head (0, s.head)
    let numBytes := subSize ((subSize last s.head + (hdr s.mem last).size) % 2 ^ 64)
      (sizeofMetadata * (counter - 1))
    forEach s.mem (fun numBytes curr => .ret ((numBytes + (hdr s.mem curr).size) % 2 ^ 64)) fuel
      s.mmapHead numBytes

def numFreeBlocks (fuel : ℕ) (s : State) : Outcome ℕ := getNumberOfFreeBlocks fuel s
def numFreeBytes (fuel : ℕ) (s : State) : Outcome ℕ := getNumberOfFreeBytes fuel s
def numAllocatedBlocks (fuel : ℕ) (s : State) : Outcome ℕ := getNumberOfAllocatedBlocks fuel s
def numAllocatedBytes (fuel : ℕ) (s : State) : Outcome ℕ := getNumberOfAllocatedBytes fuel s

def numMetaDataBytes (fuel : ℕ) (s : State) : Outcome ℕ := do
  let blocks ← getNumberOfAllocatedBlocks fuel s
  .ret (blocks * sizeofMetadata % 2 ^ 64)

def sizeMetaData : ℕ := sizeofMetadata

end OsHomework.Malloc3
