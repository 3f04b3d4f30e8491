import OsHomework.Lib.Logged
import OsHomework.Malloc3.Fuel

/-!
# `malloc_3`: the exponents and the indices

The functions of the allocator once more, with a log of every exponent that is passed to `pow2` and of
every index into `freed[]`. The bodies are those of `Malloc3.Model`, with the logging versions of `pow2` and
`freedIdx` in the place of the plain ones; `getFreeBlockFrom` tests as the source does.

* `Use`, `Use.InRange`;
* `Uses.pow2`, `Uses.freedIdx`, and with them `Uses.malloc`, `Uses.free`, `Uses.srealloc` and the rest;
* `Uses.malloc_out` and its siblings: **forgetting the log gives back the model.**
-/

set_option autoImplicit false

namespace OsHomework.Malloc3

/-- An exponent passed to `pow2`, or an index into `freed[]`. -/
inductive Use where
  | pow2 (i : ℤ)
  | freed (i : ℤ)
  deriving DecidableEq

/-- In `0..MAX_ORDER`. -/
def Use.InRange : Use → Prop
  | .pow2 i => 0 ≤ i ∧ i ≤ maxOrder
  | .freed i => 0 ≤ i ∧ i ≤ maxOrder

namespace Uses

open Logged

def pow2 (i : ℤ) : Logged Use ℕ := ⟨[.pow2 i], Malloc3.pow2 i⟩

def blockBytes (i : ℤ) : Logged Use ℕ := do
  let p ← pow2 i
  if p * startSize < 2 ^ 31 then pure (p * startSize) else lift .ub

def buddyAddr (addr : ℕ) (order : ℤ) : Logged Use ℕ := do
  let bytes ← blockBytes order
  pure (addr ^^^ bytes)

def freedIdx (order : ℤ) : Logged Use ℕ := ⟨[.freed order], Malloc3.freedIdx order⟩

def removeFreed (s : State) (order : ℤ) (addr : ℕ) : Logged Use State := do
  let i ← freedIdx order
  pure { s with freed := Function.update s.freed i ((s.freed i).filter (· ≠ addr)) }

def addToFreeOrder (s : State) (addr : ℕ) (order : ℤ) : Logged Use State := do
  let i ← freedIdx order
  pure { s with freed := Function.update s.freed i ((s.freed i).orderedInsert (· ≤ ·) addr) }

/-- The size is tested first, and `freed[i]` is looked at only if it fits. -/
def getFreeBlockFrom (s : State) (size : ℕ) : List ℕ → Logged Use (Option (State × ℕ))
  | [] => pure none
  | i :: is => do
    let p ← pow2 i
    if size ≤ p * startSize - sizeofMetadata then do
      let j ← freedIdx i
      match s.freed j with
      | [] => getFreeBlockFrom s size is
      | addr :: rest => pure (some ({ s with freed := Function.update s.freed j rest }, addr))
    else getFreeBlockFrom s size is

def getFreeBlock (s : State) (size : ℕ) : Logged Use (Option (State × ℕ)) :=
  getFreeBlockFrom s size (List.range (maxOrder + 1))

/-! ## Splitting -/

def writeBuddy (s : State) (addr buddy : ℕ) : Logged Use Mem := do
  let m := setCookie s.mem buddy s.cookie
  let m := setPrev m buddy addr
  let m := setNext m buddy (hdr m addr).next
  let m := setIsFree m buddy true
  let m := setIsMmap m buddy false
  let m := setOrder m buddy ((hdr m addr).order - 1)
  let bytes ← blockBytes (hdr m buddy).order
  pure (setSize m buddy (subSize bytes sizeofMetadata))

def splitStep (s : State) (addr : ℕ) : Logged Use State := do
  let buddy ← buddyAddr addr ((hdr s.mem addr).order - 1)
  let m ← writeBuddy s addr buddy
  let s ← addToFreeOrder { s with mem := m } buddy (hdr m buddy).order
  pure { s with mem := linkBuddy s.mem addr buddy }

def splitLoop : ℕ → State → ℕ → ℕ → Logged Use State
  | 0, _, _, _ => lift .fuel
  | n + 1, s, addr, size =>
    if 0 < (hdr s.mem addr).order then
      if size ≤ subSize (hdr s.mem addr).size sizeofMetadata / 2 then do
        let s ← splitStep s addr
        splitLoop n s addr size
      else pure s
    else pure s

def splitIfPossible (fuel : ℕ) (s : State) (addr size : ℕ) : Logged Use State :=
  if (hdr s.mem addr).cookie ≠ s.cookie then lift (.exit exitCode)
  else do
    let s ← splitLoop fuel s addr size
    pure { s with mem := setIsFree s.mem addr false }

/-! ## Merging -/

def absorb (s : State) (keep gone : ℕ) : Logged Use State := do
  let m := setNext s.mem keep (hdr s.mem gone).next
  let m := setOrder m keep ((hdr m keep).order + 1)
  let bytes ← blockBytes (hdr m keep).order
  let m := setSize m keep (subSize bytes sizeofMetadata)
  let m := setIsFree m keep true
  pure { s with mem := setPrevIf m (hdr m gone).next keep }

def mergeStep (s : State) (addr buddy : ℕ) : Logged Use (State × ℕ × ℕ) :=
  if (hdr s.mem buddy).cookie ≠ s.cookie ∨ (hdr s.mem addr).cookie ≠ s.cookie then
    lift (.exit exitCode)
  else do
    let s ← removeFreed s (hdr s.mem buddy).order buddy
    let s ← removeFreed s (hdr s.mem buddy).order addr
    let keep := if addr < buddy then addr else buddy
    let gone := if addr < buddy then buddy else addr
    let s ← absorb s keep gone
    let buddy ← buddyAddr keep (hdr s.mem keep).order
    pure (s, keep, buddy)

def unionLoop : ℕ → State → ℕ → ℕ → Logged Use (State × ℕ)
  | 0, _, _, _ => lift .fuel
  | n + 1, s, addr, buddy =>
    if (hdr s.mem buddy).isFree ∧ (hdr s.mem buddy).order < 10 then do
      let r ← mergeStep s addr buddy
      unionLoop n r.1 r.2.1 r.2.2
    else pure (s, addr)

def unionIfPossible (fuel : ℕ) (s : State) (addr : ℕ) : Logged Use State :=
  if (hdr s.mem addr).isMmap then pure s
  else do
    let buddy ← buddyAddr addr (hdr s.mem addr).order
    let r ← unionLoop fuel s addr buddy
    let s := { r.1 with mem := setIsFree r.1.mem r.2 true }
    addToFreeOrder s r.2 (hdr s.mem r.2).order

def checkLoop (s : State) (addr size : ℕ) :
    ℕ → ℕ → ℕ → MallocMetadata → MallocMetadata → Logged Use Bool
  | 0, _, _, _, _ => lift .fuel
  | n + 1, fakeAddr, fakeBuddy, fakeAddrMm, fakeBuddyMm =>
    if fakeBuddyMm.isFree ∧ fakeBuddyMm.order < 10 ∧ fakeAddrMm.size < size then
      if fakeBuddyMm.cookie ≠ s.cookie ∨ fakeAddrMm.cookie ≠ s.cookie then lift (.exit exitCode)
      else if fakeAddr < fakeBuddy then do
        let bytes ← blockBytes (fakeAddrMm.order + 1)
        let fakeAddrMm := { fakeAddrMm with
          next := (hdr s.mem fakeBuddy).next
          order := fakeAddrMm.order + 1
          size := subSize bytes sizeofMetadata }
        let fakeBuddy ← buddyAddr addr fakeAddrMm.order
        checkLoop s addr size n fakeAddr fakeBuddy fakeAddrMm (hdr s.mem fakeBuddy)
      else do
        let _ ← blockBytes (fakeBuddyMm.order + 1)
        let fakeAddr := fakeBuddy
        let fakeAddrMm := hdr s.mem fakeAddr
        let fakeBuddy ← buddyAddr addr fakeAddrMm.order
        checkLoop s addr size n fakeAddr fakeBuddy fakeAddrMm (hdr s.mem fakeBuddy)
    else pure (decide (size ≤ fakeAddrMm.size))

def checkIfUnionIsPossible (fuel : ℕ) (s : State) (addr size : ℕ) : Logged Use Bool := do
  let buddy ← buddyAddr addr (hdr s.mem addr).order
  checkLoop s addr size fuel addr buddy (hdr s.mem addr) (hdr s.mem buddy)

def sreallocLoop (size : ℕ) : ℕ → State → ℕ → ℕ → Logged Use (State × ℕ × ℕ)
  | 0, _, _, _ => lift .fuel
  | n + 1, s, addr, buddy =>
    if (hdr s.mem buddy).isFree ∧ (hdr s.mem buddy).order < 10 ∧ (hdr s.mem addr).size < size then do
      let r ← mergeStep s addr buddy
      sreallocLoop size n r.1 r.2.1 r.2.2
    else pure (s, addr, buddy)

def sreallocUnion (fuel : ℕ) (s : State) (addr size : ℕ) : Logged Use (State × ℕ) := do
  let buddy ← buddyAddr addr (hdr s.mem addr).order
  let r ← sreallocLoop size fuel s addr buddy
  let s := { r.1 with mem := setIsFree r.1.mem r.2.1 false }
  let s ← addToFreeOrder s r.2.2 (hdr s.mem r.2.1).order
  pure (s, r.2.1)

/-! ## The calls -/

/-- The set-up of the arena writes to `freed[MAX_ORDER]` only. -/
def setUp (sys : Sys) (s : State) : Logged Use State :=
  if s.head = 0 then ⟨List.replicate 32 (.freed maxOrder), .ret (initArena s sys.sbrkOk)⟩ else pure s

def malloc (sys : Sys) (fuel : ℕ) (s : State) (size : ℕ) : Logged Use (State × ℕ) := do
  let s ← setUp sys s
  if size = 0 ∨ maxSizeToAllocate < size then pure (s, 0)
  else if maxSize ≤ size then
    match sys.mmapAddr with
    | none => pure (s, 0)
    | some addr => do
      let s := { s with mem := s.mem.fill addr (sizeofMetadata + size) 0 }
      let s ← lift (linkMmap fuel s addr size)
      pure (s, addr + sizeofMetadata)
  else do
    match ← getFreeBlock s size with
    | none => pure (s, 0)
    | some (s, addr) => do
      let s ← splitIfPossible fuel s addr size
      pure (s, addr + sizeofMetadata)

/-- Releasing a mapped block uses neither `pow2` nor `freed[]`. -/
def free (fuel : ℕ) (s : State) (p : ℕ) : Logged Use State :=
  if p = 0 then pure s
  else if (hdr s.mem (headerOf p)).isMmap then lift (Malloc3.free fuel s p)
  else unionIfPossible fuel s (headerOf p)

def sreallocList (sys : Sys) (fuel : ℕ) (s : State) (oldp size : ℕ) : Logged Use (State × ℕ) :=
  let start := headerOf oldp
  let oldSize := (hdr s.mem start).size
  if size ≤ oldSize then pure (s, oldp)
  else do
    let possible ← checkIfUnionIsPossible fuel s start size
    if possible then do
      let r ← sreallocUnion fuel s start size
      let addr := r.2 + sizeofMetadata
      pure ({ r.1 with mem := r.1.mem.copy addr oldp oldSize }, addr)
    else do
      let r ← malloc sys fuel s size
      if r.2 = 0 then pure (r.1, 0)
      else do
        let s ← free fuel { r.1 with mem := r.1.mem.copy r.2 oldp oldSize } oldp
        pure (s, r.2)

def scalloc (sys : Sys) (fuel : ℕ) (s : State) (num size : ℕ) : Logged Use (State × ℕ) :=
  let totalSize := num * size % 2 ^ 64
  if size = 0 ∨ num = 0 ∨ maxSizeToAllocate < totalSize then pure (s, 0)
  else do
    let r ← malloc sys fuel s totalSize
    if r.2 = 0 then pure (r.1, 0)
    else pure ({ r.1 with mem := r.1.mem.fill r.2 totalSize 0 }, r.2)

def srealloc (sys : Sys) (fuel : ℕ) (s : State) (oldp size : ℕ) : Logged Use (State × ℕ) :=
  if size = 0 ∨ maxSizeToAllocate < size then pure (s, 0)
  else if oldp = 0 then malloc sys fuel s size
  else sreallocList sys fuel s oldp size

/-! ## Forgetting the log -/

section Out

variable (s : State) (addr buddy size : ℕ)

@[simp] theorem blockBytes_out (i : ℤ) : (blockBytes i).out = Malloc3.blockBytes i := by
  simp only [blockBytes, pow2, out_bind, out_ite, out_pure, out_lift]
  rfl

@[simp] theorem buddyAddr_out (i : ℤ) : (buddyAddr addr i).out = Malloc3.buddyAddr addr i := by
  simp only [buddyAddr, out_bind, blockBytes_out, out_pure]
  rfl

@[simp] theorem removeFreed_out (i : ℤ) : (removeFreed s i addr).out = Malloc3.removeFreed s i addr := rfl

@[simp] theorem addToFreeOrder_out (i : ℤ) :
    (addToFreeOrder s addr i).out = Malloc3.addToFreeOrder s addr i := rfl

@[simp] theorem writeBuddy_out : (writeBuddy s addr buddy).out = Malloc3.writeBuddy s addr buddy := by
  simp only [writeBuddy, out_bind, blockBytes_out, out_pure]
  rfl

@[simp] theorem splitStep_out : (splitStep s addr).out = Malloc3.splitStep s addr := by
  simp only [splitStep, out_bind, buddyAddr_out, writeBuddy_out, addToFreeOrder_out, out_pure]
  rfl

@[simp] theorem splitLoop_out (n : ℕ) : (splitLoop n s addr size).out = Malloc3.splitLoop n s addr size := by
  induction n generalizing s with
  | zero => rfl
  | succ n ih => simp only [splitLoop, Malloc3.splitLoop, out_ite, out_bind, splitStep_out, ih, out_pure]

@[simp] theorem splitIfPossible_out (n : ℕ) :
    (splitIfPossible n s addr size).out = Malloc3.splitIfPossible n s addr size := by
  simp only [splitIfPossible, out_ite, out_lift, out_bind, splitLoop_out, out_pure]
  rfl

@[simp] theorem absorb_out : (absorb s addr buddy).out = Malloc3.absorb s addr buddy := by
  simp only [absorb, out_bind, blockBytes_out, out_pure]
  rfl

@[simp] theorem mergeStep_out : (mergeStep s addr buddy).out = Malloc3.mergeStep s addr buddy := by
  simp only [mergeStep, out_ite, out_lift, out_bind, removeFreed_out, absorb_out, buddyAddr_out, out_pure]
  rfl

@[simp] theorem unionLoop_out (n : ℕ) : (unionLoop n s addr buddy).out = Malloc3.unionLoop n s addr buddy := by
  induction n generalizing s addr buddy with
  | zero => rfl
  | succ n ih => simp only [unionLoop, Malloc3.unionLoop, out_ite, out_bind, mergeStep_out, ih, out_pure]

@[simp] theorem unionIfPossible_out (n : ℕ) :
    (unionIfPossible n s addr).out = Malloc3.unionIfPossible n s addr := by
  simp only [unionIfPossible, out_ite, out_bind, buddyAddr_out, unionLoop_out, addToFreeOrder_out, out_pure]
  rfl

@[simp] theorem checkLoop_out (n fakeAddr fakeBuddy : ℕ) (mm bm : MallocMetadata) :
    (checkLoop s addr size n fakeAddr fakeBuddy mm bm).out =
      Malloc3.checkLoop s addr size n fakeAddr fakeBuddy mm bm := by
  induction n generalizing fakeAddr fakeBuddy mm bm with
  | zero => rfl
  | succ n ih =>
    simp only [checkLoop, Malloc3.checkLoop, out_ite, out_lift, out_bind, blockBytes_out, buddyAddr_out, ih,
      out_pure]

@[simp] theorem checkIfUnionIsPossible_out (n : ℕ) :
    (checkIfUnionIsPossible n s addr size).out = Malloc3.checkIfUnionIsPossible n s addr size := by
  simp only [checkIfUnionIsPossible, out_bind, buddyAddr_out, checkLoop_out]
  rfl

@[simp] theorem sreallocLoop_out (n : ℕ) :
    (sreallocLoop size n s addr buddy).out = Malloc3.sreallocLoop size n s addr buddy := by
  induction n generalizing s addr buddy with
  | zero => rfl
  | succ n ih =>
    simp only [sreallocLoop, Malloc3.sreallocLoop, out_ite, out_bind, mergeStep_out, ih, out_pure]

@[simp] theorem sreallocUnion_out (n : ℕ) :
    (sreallocUnion n s addr size).out = Malloc3.sreallocUnion n s addr size := by
  simp only [sreallocUnion, out_bind, buddyAddr_out, sreallocLoop_out, addToFreeOrder_out, out_pure]
  rfl

/-- For the orders there are, `freed[i]` and `pow2(i)` have a value. -/
theorem getFreeBlockFrom_out : ∀ {l : List ℕ}, (∀ i ∈ l, i ≤ maxOrder) →
    (getFreeBlockFrom s size l).out = .ret (Malloc3.getFreeBlockFrom s size l) := by
  intro l
  induction l with
  | nil => exact fun _ => rfl
  | cons i is ih =>
    intro hl
    have hi : i ≤ 10 := hl i List.mem_cons_self
    have hp : Malloc3.pow2 (i : ℤ) = .ret (2 ^ i) := by
      rw [Malloc3.pow2, if_pos (by omega), Int.toNat_natCast]
    have hf : Malloc3.freedIdx (i : ℤ) = .ret i := by
      rw [Malloc3.freedIdx, if_pos (by unfold maxOrder; omega), Int.toNat_natCast]
    have ih := ih fun j hj => hl j (List.mem_cons_of_mem _ hj)
    simp only [getFreeBlockFrom, pow2, freedIdx, out_bind, hp, Outcome.ret_bind, out_ite, hf,
      Malloc3.getFreeBlockFrom]
    rcases hs : s.freed i with _ | ⟨p, rest⟩
    · simp only [ih, ite_self]
    · simp only [out_pure, ih]
      split_ifs <;> rfl

@[simp] theorem getFreeBlock_out : (getFreeBlock s size).out = .ret (Malloc3.getFreeBlock s size) :=
  getFreeBlockFrom_out s size fun _ hi => Nat.le_of_lt_succ (List.mem_range.mp hi)

@[simp] theorem setUp_out (sys : Sys) :
    (setUp sys s).out = .ret (if s.head = 0 then initArena s sys.sbrkOk else s) := by
  unfold setUp
  split_ifs <;> rfl

theorem malloc_out (sys : Sys) (n : ℕ) : (malloc sys n s size).out = Malloc3.malloc sys n s size := by
  simp only [malloc, out_bind, setUp_out, Outcome.ret_bind, out_ite, Malloc3.malloc]
  generalize (if s.head = 0 then initArena s sys.sbrkOk else s) = t
  split_ifs
  · rfl
  · cases sys.mmapAddr <;> rfl
  · simp only [getFreeBlock_out, Outcome.ret_bind]
    rcases Malloc3.getFreeBlock t size with _ | ⟨u, addr⟩
    · rfl
    · simp only [out_bind, splitIfPossible_out, out_pure]

theorem free_out (n p : ℕ) : (free n s p).out = Malloc3.free n s p := by
  simp only [free, out_ite, out_pure, out_lift, unionIfPossible_out]
  by_cases hp : p = 0
  · rw [if_pos hp, Malloc3.free, if_pos hp]
  · rw [if_neg hp]
    split_ifs with hm
    · rfl
    · rw [Malloc3.free, if_neg hp]
      simp only [hm, Bool.false_eq_true, if_false]

theorem sreallocList_out (sys : Sys) (n oldp : ℕ) :
    (sreallocList sys n s oldp size).out = Malloc3.sreallocList sys n s oldp size := by
  simp only [sreallocList, out_ite, out_bind, checkIfUnionIsPossible_out, sreallocUnion_out, malloc_out,
    free_out, out_pure]
  rfl

theorem scalloc_out (sys : Sys) (n num : ℕ) :
    (scalloc sys n s num size).out = Malloc3.scalloc sys n s num size := by
  simp only [scalloc, out_ite, out_bind, malloc_out, out_pure]
  rfl

theorem srealloc_out (sys : Sys) (n oldp : ℕ) :
    (srealloc sys n s oldp size).out = Malloc3.srealloc sys n s oldp size := by
  simp only [srealloc, out_ite, malloc_out, sreallocList_out, out_pure]
  rfl

end Out

end Uses

end OsHomework.Malloc3
