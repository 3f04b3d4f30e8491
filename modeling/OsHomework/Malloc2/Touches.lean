import OsHomework.Lib.Logged
import OsHomework.Malloc2.Stats

/-!
# `malloc_2`: the headers that are touched

The functions of the allocator once more, with a log of every address at which a header is read or written.

* `touch`, and with it `Touches.malloc`, `Touches.free` and the rest; `Touches.call_out`: **forgetting the
  log gives back the model**;
* **`Layout.within_call`**: an admissible call touches blocks of the list only, and the block it returns;
* `NullOrReturned`: the client passes `NULL` or a pointer that was returned at some time; `TouchesBlocks`;
* **`touches_blocks_iff`**: only `sfree(NULL)` touches anything else.
-/

set_option autoImplicit false

namespace OsHomework.Malloc2

namespace Touches

open Logged

/-- The header at `a` is read or written. -/
def touch (a : ℕ) : Logged ℕ Unit := ⟨[a], .ret ()⟩

def findBlock (m : Mem) (size : ℕ) : ℕ → ℕ → ℕ → Logged ℕ (ℕ ⊕ ℕ)
  | 0, _, _ => lift .fuel
  | n + 1, curr, last =>
    if curr = 0 then pure (.inr last)
    else do
      touch curr
      if (hdr m curr).isFree ∧ size ≤ (hdr m curr).size then pure (.inl curr)
      else findBlock m size n (hdr m curr).next curr

/-- The header of the new block is written, and the last block is linked to it if there is one. -/
def appendBlock (s : State) (curr last size : ℕ) : Logged ℕ State := do
  touch curr
  if s.head = 0 then pure (Malloc2.appendBlock s curr last size)
  else do
    touch last
    pure (Malloc2.appendBlock s curr last size)

def malloc (ok : Bool) (fuel : ℕ) (s : State) (size : ℕ) : Logged ℕ (State × ℕ) := do
  match ← findBlock s.mem size fuel s.head s.head with
  | .inl curr => do
    touch curr
    pure ({ s with mem := setIsFree s.mem curr false }, curr + sizeofMetadata)
  | .inr last =>
    match sbrk ok s (size + sizeofMetadata) with
    | none => pure (s, 0)
    | some (s, curr) => do
      let s ← appendBlock s curr last size
      pure (s, curr + sizeofMetadata)

def free (s : State) (p : ℕ) : Logged ℕ State := do
  touch (headerOf p)
  pure (Malloc2.free s p)

def sreallocList (ok : Bool) (fuel : ℕ) (s : State) (oldp size : ℕ) : Logged ℕ (State × ℕ) := do
  touch (headerOf oldp)
  let oldSize := (hdr s.mem (headerOf oldp)).size
  if size ≤ oldSize then pure (s, oldp)
  else do
    let r ← malloc ok fuel s size
    if r.2 = 0 then pure (r.1, 0)
    else do
      let s ← free { r.1 with mem := r.1.mem.copy r.2 oldp oldSize } oldp
      pure (s, r.2)

def smalloc (ok : Bool) (fuel : ℕ) (s : State) (size : ℕ) : Logged ℕ (State × ℕ) :=
  if size = 0 ∨ maxSizeToAllocate < size then pure (s, 0) else malloc ok fuel s size

def scalloc (ok : Bool) (fuel : ℕ) (s : State) (num size : ℕ) : Logged ℕ (State × ℕ) :=
  let totalSize := num * size % 2 ^ 64
  if size = 0 ∨ num = 0 ∨ maxSizeToAllocate < totalSize then pure (s, 0)
  else do
    let r ← malloc ok fuel s totalSize
    if r.2 = 0 then pure (r.1, 0)
    else pure ({ r.1 with mem := r.1.mem.fill r.2 totalSize 0 }, r.2)

def sfree (s : State) (p : ℕ) : Logged ℕ State := free s p

def srealloc (ok : Bool) (fuel : ℕ) (s : State) (oldp size : ℕ) : Logged ℕ (State × ℕ) :=
  if size = 0 ∨ maxSizeToAllocate < size then pure (s, 0)
  else if oldp = 0 then smalloc ok fuel s size
  else sreallocList ok fuel s oldp size

def call (fuel : ℕ) (s : State) : Op → Logged ℕ (State × ℕ)
  | .smalloc ok size => smalloc ok fuel s size
  | .scalloc ok num size => scalloc ok fuel s num size
  | .sfree p => do
    let s ← sfree s p
    pure (s, 0)
  | .srealloc ok oldp size => srealloc ok fuel s oldp size
  | .write x v => pure ({ s with mem := Function.update s.mem x v }, 0)

/-! ## Forgetting the log -/

section Out

variable (ok : Bool) (s : State) (n size : ℕ)

@[simp] theorem touch_out (a : ℕ) : (touch a).out = .ret () := rfl

@[simp] theorem findBlock_out (m : Mem) (curr last : ℕ) :
    (findBlock m size n curr last).out = Malloc2.findBlock m size n curr last := by
  induction n generalizing curr last with
  | zero => rfl
  | succ n ih =>
    simp only [findBlock, Malloc2.findBlock, out_ite, out_bind, touch_out, Outcome.ret_bind, out_pure, ih]

@[simp] theorem appendBlock_out (curr last : ℕ) :
    (appendBlock s curr last size).out = .ret (Malloc2.appendBlock s curr last size) := by
  simp only [appendBlock, out_bind, touch_out, Outcome.ret_bind, out_ite, out_pure, ite_self]

@[simp] theorem malloc_out : (malloc ok n s size).out = Malloc2.malloc ok n s size := by
  simp only [malloc, out_bind, findBlock_out, Malloc2.malloc]
  congr 1
  funext r
  rcases r with curr | last
  · rfl
  · rcases sbrk ok s (size + sizeofMetadata) with _ | ⟨s', curr⟩
    · rfl
    · simp only [out_bind, appendBlock_out, Outcome.ret_bind, out_pure]

@[simp] theorem free_out (p : ℕ) : (free s p).out = .ret (Malloc2.free s p) := rfl

@[simp] theorem sreallocList_out (oldp : ℕ) :
    (sreallocList ok n s oldp size).out = Malloc2.sreallocList ok n s oldp size := by
  simp only [sreallocList, out_bind, touch_out, Outcome.ret_bind, out_ite, malloc_out, free_out, out_pure]
  rfl

@[simp] theorem smalloc_out : (smalloc ok n s size).out = Malloc2.smalloc ok n s size := by
  simp only [smalloc, out_ite, malloc_out, out_pure]
  rfl

@[simp] theorem scalloc_out (num : ℕ) : (scalloc ok n s num size).out = Malloc2.scalloc ok n s num size := by
  simp only [scalloc, out_ite, out_bind, malloc_out, out_pure]
  rfl

@[simp] theorem srealloc_out (oldp : ℕ) :
    (srealloc ok n s oldp size).out = Malloc2.srealloc ok n s oldp size := by
  simp only [srealloc, out_ite, smalloc_out, sreallocList_out, out_pure]
  rfl

theorem call_out (op : Op) : (call n s op).out = Malloc2.call n s op := by
  cases op with
  | smalloc ok size => exact smalloc_out ok s n size
  | scalloc ok num size => exact scalloc_out ok s n size num
  | sfree p => rfl
  | srealloc ok oldp size => exact srealloc_out ok s n size oldp
  | write x v => rfl

end Out

end Touches

/-! ## Blocks are touched -/

section Within

open Touches Logged

variable {brk₀ : ℕ} {s : State} {l ptrs : List ℕ} {P : ℕ → Prop}

theorem within_touch {a : ℕ} (h : P a) : Within P (touch a) := by
  intro e he
  obtain rfl := List.mem_singleton.mp he
  exact h

/-- The search touches nodes of the list, and answers with one of them. -/
theorem within_findBlock {m : Mem} {n curr : ℕ} (size last : ℕ) (h : Seg (fun a => (hdr m a).next) curr l 0) :
    Within (· ∈ l) (Touches.findBlock m size n curr last) ∧
      (∀ a, Malloc2.findBlock m size n curr last = .ret (.inl a) → a ∈ l) ∧
      ∀ z, Malloc2.findBlock m size n curr last = .ret (.inr z) → z = last ∨ z ∈ l := by
  induction n generalizing l curr last with
  | zero => exact ⟨.lift _, by simp [Malloc2.findBlock], by simp [Malloc2.findBlock]⟩
  | succ n ih =>
    simp only [Touches.findBlock, Malloc2.findBlock]
    by_cases hc : curr = 0
    · simp only [if_pos hc]
      exact ⟨.pure _, by simp, by simp [eq_comm]⟩
    · simp only [if_neg hc]
      obtain ⟨l, rfl⟩ : ∃ l', l = curr :: l' := by
        cases l with
        | nil => exact absurd h hc
        | cons a l => exact ⟨l, by rw [h.1]⟩
      obtain ⟨hw, hl, hr⟩ := ih curr h.2.2
      by_cases hf : (hdr m curr).isFree ∧ size ≤ (hdr m curr).size
      · simp only [if_pos hf]
        exact ⟨(within_touch List.mem_cons_self).bind fun _ _ => .pure _, by simp, by simp⟩
      · simp only [if_neg hf]
        refine ⟨(within_touch List.mem_cons_self).bind fun _ _ e he => List.mem_cons_of_mem _ (hw e he),
          fun a ha => List.mem_cons_of_mem _ (hl a ha), fun z hz => .inr ?_⟩
        rcases hr z hz with rfl | hz
        · exact List.mem_cons_self
        · exact List.mem_cons_of_mem _ hz

/-- The call returns the block `a`. -/
def Yields (x : Outcome (State × ℕ)) (a : ℕ) : Prop := ∃ s', x = .ret (s', a + sizeofMetadata)

theorem sbrk_head {ok : Bool} {n : ℕ} {s' : State} {curr : ℕ} (h : sbrk ok s n = some (s', curr)) :
    s'.head = s.head := by
  unfold sbrk at h
  split_ifs at h
  obtain ⟨rfl, -⟩ := Prod.mk.inj (Option.some.inj h)
  rfl

/-- `malloc` touches blocks, and the new block if it returns one. -/
theorem Layout.within_malloc (h : Layout brk₀ s l) {ok : Bool} {n size : ℕ} (hP : ∀ a ∈ l, P a)
    (hnew : ∀ a, Yields (Malloc2.malloc ok n s size) a → P a) :
    Within P (Touches.malloc ok n s size) := by
  obtain ⟨hw, hfound, hlast⟩ := within_findBlock (n := n) size s.head h.blocks.linked
  refine Within.bind (fun e he => hP e (hw e he)) fun r hr => ?_
  rw [findBlock_out] at hr
  cases r with
  | inl curr => exact (within_touch (hP curr (hfound curr hr))).bind fun _ _ => .pure _
  | inr last =>
    simp only [Yields, Malloc2.malloc, hr, Outcome.ret_bind] at hnew
    simp only
    rcases hs : sbrk ok s (size + sizeofMetadata) with _ | ⟨s', curr⟩
    · exact .pure _
    · have hhead : s'.head = s.head := sbrk_head hs
      have hcurr : P curr := hnew curr ⟨_, by rw [hs]⟩
      refine Within.bind ((within_touch hcurr).bind fun _ _ => ?_) fun _ _ => .pure _
      refine .ite (fun _ => .pure _) fun hne => (within_touch (hP last ?_)).bind fun _ _ => .pure _
      have hl : l ≠ [] := by
        rintro rfl
        exact hne (hhead.trans h.blocks.linked)
      rcases hlast last hr with rfl | hmem
      · exact h.head_mem hl
      · exact hmem

theorem Layout.within_smalloc (h : Layout brk₀ s l) {ok : Bool} {n size : ℕ} (hP : ∀ a ∈ l, P a)
    (hnew : ∀ a, Yields (Malloc2.smalloc ok n s size) a → P a) :
    Within P (Touches.smalloc ok n s size) := by
  unfold Malloc2.smalloc at hnew
  refine .ite (fun _ => .pure _) fun hs => h.within_malloc hP fun a hret => hnew a ?_
  rwa [if_neg hs]

theorem Layout.within_scalloc (h : Layout brk₀ s l) {ok : Bool} {n num size : ℕ} (hP : ∀ a ∈ l, P a)
    (hnew : ∀ a, Yields (Malloc2.scalloc ok n s num size) a → P a) :
    Within P (Touches.scalloc ok n s num size) := by
  refine .ite (fun _ => .pure _) fun hs => ?_
  have hblock : ∀ a, Yields (Malloc2.malloc ok n s (num * size % 2 ^ 64)) a → P a := by
    rintro a ⟨s', hret⟩
    apply hnew
    simp only [Malloc2.scalloc, if_neg hs, hret, Outcome.ret_bind]
    exact ⟨_, if_neg (by simp [sizeofMetadata])⟩
  exact (h.within_malloc hP hblock).bind fun r _ => .ite (fun _ => .pure _) fun _ => .pure _

/-- A reallocation looks at the block it is given, and marks it if `malloc` found another one. -/
theorem Layout.within_sreallocList (h : Layout brk₀ s l) {ok : Bool} {n b size : ℕ} (hb : b ∈ l)
    (hP : ∀ a ∈ l, P a)
    (hnew : ∀ a, Yields (Malloc2.sreallocList ok n s (b + sizeofMetadata) size) a → P a) :
    Within P (Touches.sreallocList ok n s (b + sizeofMetadata) size) := by
  have hold : P (headerOf (b + sizeofMetadata)) := by
    rw [h.headerOf_add hb]
    exact hP b hb
  have hfree : ∀ t : State, Within P (Touches.free t (b + sizeofMetadata)) := fun t =>
    (within_touch hold).bind fun _ _ => .pure _
  refine (within_touch hold).bind fun _ _ => .ite (fun _ => .pure _) fun hs => ?_
  have hblock : ∀ a, Yields (Malloc2.malloc ok n s size) a → P a := by
    rintro a ⟨s', hret⟩
    apply hnew
    simp only [Malloc2.sreallocList, if_neg hs, hret, Outcome.ret_bind]
    exact ⟨_, if_neg (by simp [sizeofMetadata])⟩
  exact (h.within_malloc hP hblock).bind fun r _ =>
    .ite (fun _ => .pure _) fun _ => (hfree _).bind fun _ _ => .pure _

/-- **An admissible call touches blocks of the list, and the block it returns.** -/
theorem Layout.within_call (h : Layout brk₀ s l) (hptrs : ∀ p ∈ ptrs, ∃ a ∈ l, p = a + sizeofMetadata)
    {op : Op} (hop : Admissible ptrs s op) {n : ℕ} (hP : ∀ a ∈ l, P a)
    (hnew : ∀ a, Yields (Malloc2.call n s op) a → P a) :
    Within P (Touches.call n s op) := by
  cases op with
  | smalloc ok size => exact h.within_smalloc hP hnew
  | scalloc ok num size => exact h.within_scalloc hP hnew
  | sfree p =>
    obtain ⟨a, ha, rfl⟩ := hptrs p hop
    refine Within.bind ((within_touch ?_).bind fun _ _ => .pure _) fun _ _ => .pure _
    rw [h.headerOf_add ha]
    exact hP a ha
  | srealloc ok oldp size =>
    simp only [Malloc2.call, Malloc2.srealloc] at hnew
    refine .ite (fun _ => .pure _) fun hs => ?_
    simp only [if_neg hs] at hnew
    refine .ite (fun hnull => ?_) fun hne => ?_
    · simp only [if_pos hnull] at hnew
      exact h.within_smalloc hP hnew
    · simp only [if_neg hne] at hnew
      obtain ⟨b, hb, rfl⟩ := hptrs oldp (hop.resolve_left hne)
      exact h.within_sreallocList hb hP hnew
  | write x v => exact .pure _

end Within

/-! ## Every run -/

/-- The client passes `NULL` or a pointer that was returned at some time, and writes into payloads of
these. -/
def NullOrReturned (ptrs : List ℕ) (s : State) : Op → Prop
  | .sfree p => p = 0 ∨ p ∈ ptrs
  | op => Admissible ptrs s op

def AnyStep (w : World) (op : Op) (w' : World) : Prop :=
  NullOrReturned w.returned w.st op ∧ ∃ r, Calls w op w' r

/-- A step that does not release `NULL`. -/
def CleanStep (w : World) (op : Op) (w' : World) : Prop := AnyStep w op w' ∧ op ≠ .sfree 0

/-- **Every header that the call reads or writes is that of a block** in the list, or of the block that the
call returns, which is in the list then. -/
def TouchesBlocks (w : World) (op : Op) (w' : World) (r : ℕ) : Prop :=
  ∃ l l', Seg (fun a => (hdr w.st.mem a).next) w.st.head l 0 ∧
    Seg (fun a => (hdr w'.st.mem a).next) w'.st.head l' 0 ∧
    ∃ N, ∀ n, N ≤ n → ∀ a ∈ (Touches.call n w.st op).log, a ∈ l ∨ (a ∈ l' ∧ r = a + sizeofMetadata)

theorem CleanStep.loose {w w' : World} {op : Op} (h : CleanStep w op w') : LooseStep w op w' := by
  obtain ⟨⟨hop, hc⟩, hne⟩ := h
  refine ⟨?_, hc⟩
  cases op with
  | sfree p =>
    refine hop.resolve_left ?_
    rintro rfl
    exact hne rfl
  | _ => exact hop

section Step

variable {brk₀ r : ℕ} {w w' : World} {op : Op}

theorem Calls.touchesBlocks (hc : Calls w op w' r) (h : LooseInv brk₀ w)
    (hop : Admissible w.returned w.st op) : TouchesBlocks w op w' r := by
  obtain ⟨l, hl, hptrs⟩ := h
  obtain ⟨l', hl', heff⟩ := hl.calls hptrs hop hc
  obtain ⟨N, hN⟩ := hc.1
  refine ⟨l, l', hl.blocks.linked, hl'.blocks.linked, N, fun n hn =>
    hl.within_call hptrs hop (fun a ha => .inl ha) ?_⟩
  rintro a ⟨s', hret⟩
  obtain ⟨-, rfl⟩ := Prod.mk.inj (Outcome.ret.inj ((hN n hn).symm.trans hret))
  obtain ⟨b, hb, hab⟩ := heff.result.resolve_left (by simp [sizeofMetadata])
  exact .inr ⟨by rwa [show a = b by omega], rfl⟩

/-- **`sfree(NULL)` touches no block**: it takes the last 32 bytes of the address space for a header. -/
theorem Calls.not_touchesBlocks (hc : Calls w (.sfree 0) w' r) (h : LooseInv brk₀ w) :
    ¬ TouchesBlocks w (.sfree 0) w' r := by
  rintro ⟨l, l', hlink, -, N, hN⟩
  obtain ⟨l₀, hl, -⟩ := h
  obtain rfl := hlink.unique hl.blocks.linked
  obtain ⟨-, rfl⟩ := Prod.mk.inj (hc.1.unique (.const rfl))
  have hlog : headerOf 0 ∈ (Touches.call N w.st (.sfree 0)).log := List.mem_cons_self
  rcases hN N le_rfl _ hlog with hmem | ⟨-, hr⟩
  · have hle := hl.le_brk hmem
    have htop := hl.top
    rw [show headerOf 0 = 2 ^ 64 - sizeofMetadata from rfl, sizeofMetadata] at hle
    omega
  · unfold sizeofMetadata at hr
    omega

end Step

/-- **Only `sfree(NULL)` touches anything but blocks**: in every run without it, a call touches blocks only
if and only if it is another call. -/
theorem touches_blocks_iff {m : Mem} {brk₀ : ℕ} (h : 0 < brk₀) (h' : brk₀ < 2 ^ 64) {ops : List Op}
    {w w' : World} {op : Op} {r : ℕ} (hr : Run CleanStep (start m brk₀) ops w)
    (hop : NullOrReturned w.returned w.st op) (hc : Calls w op w' r) :
    TouchesBlocks w op w' r ↔ op ≠ .sfree 0 := by
  have hinv := hr.invariant (looseInv_start h h') fun _ _ _ hi hs => hi.step hs.loose
  constructor
  · rintro ht rfl
    exact hc.not_touchesBlocks hinv ht
  · intro hne
    have hclean : CleanStep w op w' := ⟨⟨hop, r, hc⟩, hne⟩
    exact hc.touchesBlocks hinv hclean.loose.1

/-- After a release, a block is moved to the place of the one that was released. -/
theorem touches_blocks_iff_moved : ∃ w w', Run CleanStep (start (fun _ => 0) 4096)
      [.smalloc true 100, .smalloc true 50, .sfree 4128] w ∧
    Calls w (.srealloc true 4260 80) w' 4128 ∧ TouchesBlocks w (.srealloc true 4260 80) w' 4128 := by
  obtain ⟨w, hw, hcall⟩ := (Option.any_eq_true _ _).mp (show ((callsWith
      (fun w op => decide (Admissible w.returned w.st op ∧ op ≠ .sfree 0)) 3 (start (fun _ => 0) 4096)
      [.smalloc true 100, .smalloc true 50, .sfree 4128]).any fun w =>
        decide (4260 ∈ w.returned) && ((callWith 3 w (.srealloc true 4260 80)).any fun c => c.2 == 4128)) = true by
    decide +kernel)
  rw [Bool.and_eq_true, decide_eq_true_iff] at hcall
  obtain ⟨⟨w', r⟩, hc, hr⟩ := (Option.any_eq_true _ _).mp hcall.2
  obtain rfl : r = 4128 := eq_of_beq hr
  have hcalls := calls_of_callWith hc
  have hop : NullOrReturned w.returned w.st (.srealloc true 4260 80) := Or.inr hcall.1
  have hrun : Run CleanStep (start (fun _ => 0) 4096) [.smalloc true 100, .smalloc true 50, .sfree 4128] w := by
    refine run_of_callsWith (fun {t op u r} htest hs => ?_) hw
    obtain ⟨hop, hne⟩ := of_decide_eq_true htest
    refine ⟨⟨?_, r, hs⟩, hne⟩
    cases op with
    | sfree p => exact Or.inr hop
    | _ => exact hop
  exact ⟨w, w', hrun, hcalls, (touches_blocks_iff (by norm_num) (by norm_num) hrun hop hcalls).mpr nofun⟩

/-- **The first call of a program may be `sfree(NULL)`.** -/
theorem sfree_null_touches_no_block : ¬ ∀ (m : Mem) (brk₀ : ℕ) (ops : List Op) (w w' : World) (op : Op)
    (r : ℕ), 0 < brk₀ → brk₀ < 2 ^ 64 → Run AnyStep (start m brk₀) ops w →
      NullOrReturned w.returned w.st op → Calls w op w' r → TouchesBlocks w op w' r := by
  intro h
  have hc : Calls (start (fun _ => 0) 4096) (.sfree 0)
      ⟨sfree (start (fun _ => 0) 4096).st 0, [], []⟩ 0 := ⟨.const rfl, rfl, rfl⟩
  exact hc.not_touchesBlocks (looseInv_start (by norm_num) (by norm_num))
    (h _ 4096 [] _ _ _ 0 (by norm_num) (by norm_num) (.nil _) (.inl rfl) hc)

end OsHomework.Malloc2
