import OsHomework.Malloc3.Grow
import OsHomework.Malloc3.Small

/-!
# `malloc_3`: `srealloc` and the free lists

`SreallocUnion` ends with `AddToFreeOrder(buddy, addr->order)`: the buddy at which the merging stopped is
put into the free list of the order reached, whether it is free or not and whatever its order is.

* `FreedExact s`: `freed[k]` holds exactly the blocks of order `k` that are marked free, each once;
* `GrowsInPlace`, `Moves`: the two ways in which `srealloc` serves a larger request;
* **`WInv.srealloc`**: a call that does not grow in place keeps the invariant, provided that the old
  block, if it is released, is released quietly;
* **`not_freedExact_of_grows`**: a call that grows in place always breaks the free lists;
* **`free_not_quiet`**: a block that moves, and whose release would not have been quiet before the call, is
  not released quietly.
-/

set_option autoImplicit false

namespace OsHomework.Malloc3

open Buddy

/-- `freed[k]` holds exactly the blocks, among those linked from `head`, that have order `k` and are
marked free, each once. -/
def FreedExact (s : State) : Prop :=
  ∃ l, Seg (fun a => (hdr s.mem a).next) s.head l 0 ∧ ∀ k ≤ maxOrder, (s.freed k).Nodup ∧
    ∀ a, a ∈ s.freed k ↔ a ∈ l ∧ (hdr s.mem a).isFree = true ∧ (hdr s.mem a).order = k

theorem RI.freedExact {s : State} (h : RI s) : FreedExact s := by
  obtain ⟨l, h⟩ := h
  exact ⟨l, h.list.linked, fun k hk => ⟨(h.sorted k hk).imp fun hlt => hlt.ne, h.freed k hk⟩⟩

/-- A request that is served, and is larger than the block at `p`. -/
def Larger (s : State) (p size : ℕ) : Prop :=
  0 < size ∧ size ≤ maxSizeToAllocate ∧ payloadLen s p < size

/-- `srealloc` grows the block of `p`: `CheckIfUnionIsPossible` says yes. -/
def GrowsInPlace (s : State) (p size : ℕ) : Prop :=
  Larger s p size ∧ Returns (fun n => checkIfUnionIsPossible n s (headerOf p) size) true

/-- `srealloc` looks for another block: `CheckIfUnionIsPossible` says no. -/
def Moves (s : State) (p size : ℕ) : Prop :=
  Larger s p size ∧ Returns (fun n => checkIfUnionIsPossible n s (headerOf p) size) false

/-- A block that is large enough is kept. -/
theorem srealloc_fits (sys : Sys) {s : State} {p size n : ℕ} (hp : p ≠ 0) (h0 : size ≠ 0)
    (hmax : size ≤ maxSizeToAllocate) (hfits : size ≤ payloadLen s p) : srealloc sys n s p size = .ret (s, p) := by
  rw [srealloc, if_neg (by omega), if_neg hp, sreallocList]
  exact if_pos hfits

/-- What the client holds after `srealloc` has returned `q` for `p`. -/
def relive (live : List ℕ) (p q : ℕ) : List ℕ := if q = 0 then live else q :: live.erase p

/-! ## Growing in place -/

section InPlace

variable {base : ℕ} {s : State} {B : Layout} {L : List (ℕ × ℕ)} {a k size : ℕ}

/-- **What `SreallocUnion` returns**: the block grown along the path, and the buddy at the end in the free
list of the order reached. -/
theorem sreallocUnion_spec {K fuel : ℕ} (hA : Arena base) (h : Repr base s B none)
    (ha : B a = some ⟨k, false⟩) (hgr : Grows B size a k K) (hfuel : maxOrder < fuel) :
    ∃ m f, sreallocUnion fuel s (base + startSize * a) size =
        .ret ({ s with
          mem := setIsFree m (base + startSize * a) false
          freed := Function.update f K ((f K).orderedInsert (· ≤ ·) (base + startSize * buddy a K)) },
          base + startSize * a) ∧
      GrowState base s { s with mem := m, freed := f } a K ∧ Outside base B s.mem m := by
  have hT := h.heap.tiles
  have hK := hgr.max
  have hk : k ≤ 10 := hT.le_max ha
  obtain ⟨m, f, he, hg, ho⟩ := sreallocLoop_spec hA h ha le_rfl (show K < k + fuel by omega) hgr.climbs
    (h.growState ha)
  have hord : (slots base (setIsFree m (base + startSize * a) false) a).order = K :=
    (order_setIsFree ..).trans hg.order
  refine ⟨m, f, ?_, hg, ho⟩
  rw [sreallocUnion, h.buddyAddr_hdr hA ha, Outcome.ret_bind, he, Outcome.ret_bind]
  simp only [hdr_slot, hord, addToFreeOrder_eq hK, Outcome.ret_bind]

/-- **Growing in place breaks the free lists**: the buddy at the end is listed although it is in use,
or under an order that is not its own, or for the second time. -/
theorem sreallocUnion_not_freedExact {K fuel : ℕ} (hA : Arena base) (h : Repr base s B none)
    (ha : B a = some ⟨k, false⟩) (hgr : Grows B size a k K) (hfuel : maxOrder < fuel) :
    ∃ m f, sreallocUnion fuel s (base + startSize * a) size =
        .ret ({ s with mem := m, freed := f }, base + startSize * a) ∧
      ¬ FreedExact { s with mem := m, freed := f } := by
  have hK := hgr.max
  obtain ⟨m, f, he, hg, -⟩ := sreallocUnion_spec hA h ha hgr hfuel
  obtain ⟨⟨j, b⟩, hz, -⟩ := h.heap.tiles.exists_buddy_of_le
    (two_pow_dvd_arenaUnits (by unfold maxOrder at hK; omega)) ha hgr.le hgr.aligned
  have hout := buddy_out hgr.aligned
  obtain ⟨hHz, hfree⟩ := hg.hdrOk h hz hout
  have hslot : slots base (setIsFree m (base + startSize * a) false) (buddy a K) =
      slots base m (buddy a K) := by rw [slots_setIsFree, Function.update_of_ne (buddy_ne a K)]
  refine ⟨_, _, he, ?_⟩
  rintro ⟨l, -, hl⟩
  obtain ⟨hnd, hmem⟩ := hl K hK
  simp only [Function.update_self] at hnd hmem
  obtain ⟨-, h₁, h₂⟩ := (hmem (base + startSize * buddy a K)).mp
    ((List.mem_orderedInsert _).mpr (.inl rfl))
  -- the buddy would be a free block of order `K`: then it was in the list before
  rw [hdr_slot, hslot, hfree] at h₁
  rw [hdr_slot, hslot, hHz.order] at h₂
  obtain rfl : j = K := Int.ofNat.inj h₂
  simp only at h₁
  subst h₁
  have hin : base + startSize * buddy a j ∈ f j :=
    (hg.freed _ hout j).mpr ((h.lists.mem_slot hK).mpr hz)
  rw [(List.perm_orderedInsert (· ≤ ·) _ _).nodup_iff, List.nodup_cons] at hnd
  exact hnd.1 hin

theorem Repr.climbs_of_check (hA : Arena base) (h : Repr base s B none) (ha : B a = some ⟨k, false⟩)
    (hc : size ≤ payloadSize 14 ∨ Quiet B (maxOrder - k) a k)
    (hr : Returns (fun n => checkIfUnionIsPossible n s (base + startSize * a) size) true) :
    ∃ K, Climbs B size a k K := by
  have hT := h.heap.tiles
  have hH := h.heap.hdrs ha
  have hk : k ≤ maxOrder := hT.le_max ha
  obtain ⟨N, hN⟩ := hr
  have he := hN N le_rfl
  beta_reduce at he
  rw [checkIfUnionIsPossible, h.buddyAddr_hdr hA ha, Outcome.ret_bind, hdr_slot] at he
  exact checkLoop_true hA h ha le_rfl (hk.trans (by decide)) (hT.aligned ha) hH.order hH.size hc he

theorem Repr.grows_of_check (hA : Arena base) (h : Repr base s B none) (ha : B a = some ⟨k, false⟩)
    (hc : size ≤ payloadSize maxOrder ∨ Quiet B (maxOrder - k) a k)
    (hr : Returns (fun n => checkIfUnionIsPossible n s (base + startSize * a) size) true) :
    ∃ K, Grows B size a k K := by
  have hk : k ≤ maxOrder := h.heap.tiles.le_max ha
  obtain ⟨K, hK⟩ := h.climbs_of_check hA ha
    (hc.imp_left fun hsize => hsize.trans (payloadSize_mono (by decide))) hr
  refine ⟨K, hK.grows ?_⟩
  rcases hc with hc | hc
  · exact hK.le_of_fits hk hc
  · exact hK.le_of_quiet (Nat.add_sub_cancel' hk) hc

theorem Inv.grows_of_check (h : Inv base s B L) (ha : B a = some ⟨k, false⟩)
    (hc : size ≤ payloadSize maxOrder ∨ QuietFree s (base + startSize * a + sizeofMetadata))
    (hr : Returns (fun n => checkIfUnionIsPossible n s (base + startSize * a) size) true) :
    ∃ K, Grows B size a k K :=
  h.repr.grows_of_check h.arena ha (hc.imp_right (h.quietFree_iff ha).mp) hr

theorem Inv.check_of_climbs {K : ℕ} (h : Inv base s B L) (ha : B a = some ⟨k, false⟩)
    (hcl : Climbs B size a k K) :
    Returns (fun n => checkIfUnionIsPossible n s (base + startSize * a) size) true := by
  have hT := h.repr.heap.tiles
  have hH := h.repr.heap.hdrs ha
  have hk : k ≤ 10 := hT.le_max ha
  have hK := hcl.max
  refine settles_checkIfUnionIsPossible.returns (n := 15) ?_
  rw [checkIfUnionIsPossible, h.repr.buddyAddr_hdr h.arena ha, Outcome.ret_bind, hdr_slot]
  exact checkLoop_of_climbs h.arena h.repr ha _ (by omega) hcl hH.order hH.size hH.cookie

/-- **A call that grows in place returns `p`, with the free lists broken.** -/
theorem not_freedExact_of_grows (sys : Sys) (h : Inv base s B L) (ha : B a = some ⟨k, false⟩)
    (hc : size ≤ payloadSize maxOrder ∨ QuietFree s (base + startSize * a + sizeofMetadata))
    (hgr : GrowsInPlace s (base + startSize * a + sizeofMetadata) size) :
    ∃ s', Returns (fun n => srealloc sys n s (base + startSize * a + sizeofMetadata) size)
        (s', base + startSize * a + sizeofMetadata) ∧ ¬ FreedExact s' := by
  obtain ⟨⟨h0, hmax, hlen⟩, hr⟩ := hgr
  have hhdr := headerOf_add (h.slot_lt ha)
  have hpos := h.arena.pos
  rw [hhdr] at hr
  obtain ⟨K, hK⟩ := h.grows_of_check ha hc hr
  obtain ⟨m, f, he, hbad⟩ := sreallocUnion_not_freedExact h.arena h.repr ha hK
    (Nat.lt_succ_self maxOrder)
  refine ⟨_, ?_, hbad⟩
  obtain ⟨N, hN⟩ := hr
  refine ⟨max N (maxOrder + 1), fun n hn => ?_⟩
  beta_reduce at hN ⊢
  rw [payloadLen, hhdr] at hlen
  rw [srealloc, if_neg (by omega), if_neg (by omega), sreallocList, hhdr]
  simp only
  rw [if_neg (by omega), hN n (by omega), Outcome.ret_bind, if_pos rfl,
    settles_sreallocUnion.of_le (show maxOrder + 1 ≤ n by omega) (by rw [he]; simp), he,
    Outcome.ret_bind]
  simp only [Mem.copy_self]

end InPlace

/-! ## The other calls -/

section Move

variable {base : ℕ} {s : State} {B B' : Layout} {L L' : List (ℕ × ℕ)} {a k size : ℕ}

theorem AllocTo.used {sys : Sys} {q : ℕ} (ha : AllocTo base B L sys size B' L' q)
    (h : Inv base s B L) (hk : B a = some ⟨k, false⟩) : B' a = some ⟨k, false⟩ := by
  cases ha with
  | null => exact hk
  | @heap i j b hi ht =>
    have hb : B b = some ⟨i + (j - i), true⟩ := by rw [Nat.add_sub_cancel' ht.le]; exact ht.block
    refine (splitTo_used h.repr.heap.tiles hb).mpr (.inr ⟨?_, hk⟩)
    rintro rfl
    rw [hb] at hk
    simp at hk
  | map _ _ => exact hk

/-- Free blocks that are too small for the request are left alone. -/
theorem AllocTo.keeps_small {sys : Sys} {q x j : ℕ} (ha : AllocTo base B L sys size B' L' q)
    (h : Inv base s B L) (hx : B x = some ⟨j, true⟩) (hsmall : payloadSize j < size) :
    B' x = some ⟨j, true⟩ := by
  cases ha with
  | null => exact hx
  | @heap i t b hi ht =>
    have hit := ht.le
    have hne : x ≠ b := by
      rintro rfl
      obtain ⟨rfl⟩ : t = j := by simpa using ht.block.symm.trans hx
      have := hi.fits.trans (payloadSize_mono hit)
      omega
    have hb : B b = some ⟨i + (t - i), true⟩ := by rw [Nat.add_sub_cancel' hit]; exact ht.block
    exact splitTo_block h.repr.heap.tiles hb hx hne
  | map _ _ => exact hx

theorem AllocTo.inv_copy {sys : Sys} {q len : ℕ} (ha : AllocTo base B L sys size B' L' q)
    (h : Inv base s B' L') (hq : q ≠ 0) (hlen : len ≤ size) (p : ℕ) :
    Inv base { s with mem := s.mem.copy q p len } B' L' :=
  h.of_payload fun x hx => Mem.copy_out (by
    by_contra hc
    exact hx (ha.inPayload hq (by omega) (by omega)))

theorem AllocTo.quiet {sys : Sys} {q : ℕ} (ha : AllocTo base B L sys size B' L' q)
    (h : Inv base s B L) (hk : B a = some ⟨k, false⟩) (hq : Quiet B (maxOrder - k) a k) :
    B' a = some ⟨k, false⟩ ∧ Quiet B' (maxOrder - k) a k := by
  refine ⟨ha.used h hk, ?_⟩
  have hT := h.repr.heap.tiles
  have hM : k ≤ maxOrder := hT.le_max hk
  cases ha with
  | null => exact hq
  | @heap i j b hi ht =>
    have hb : B b = some ⟨i + (j - i), true⟩ := by rw [Nat.add_sub_cancel' ht.le]; exact ht.block
    exact hq.splitTo hT (by decide) hb hk le_rfl (by omega) (hT.aligned hk)
  | map _ _ => exact hq

/-- A pointer whose header is not that of a mapped block is one to a block of the arena. -/
theorem Live.heap_of_hdr {live : List ℕ} {p : ℕ} (hl : Live base B L live) (h : Inv base s B L)
    (hp : p ∈ live) (hheap : (hdr s.mem (headerOf p)).isMmap = false) :
    ∃ a k, B a = some ⟨k, false⟩ ∧ p = base + startSize * a + sizeofMetadata := by
  rcases (hl.mem p).mp hp with hb | ⟨r, hr, rfl⟩
  · exact hb
  · rw [headerOf_add (h.map_lt hr), (h.maps.hdrs hr).isMmap] at hheap
    exact absurd hheap (by simp)

theorem Live.perm {live live' : List ℕ} (h : Live base B L live) (hp : live'.Perm live) :
    Live base B L live' :=
  ⟨hp.nodup_iff.mpr h.nodup, fun p => hp.mem_iff.trans (h.mem p)⟩

/-- **A block is moved**: another one is allocated, gets the contents, and the old one is released. If there
is none, nothing is released. -/
theorem Live.move {w : World} {sys : Sys} {q n : ℕ} {s' : State} (hl : Live base B L w.live)
    (hi : Inv base w.st B L) (ha : B a = some ⟨k, false⟩)
    (hq : CanServe sys w.st size → Quiet B (maxOrder - k) a k)
    (hsize : (hdr w.st.mem (base + startSize * a)).size < size)
    (hf : maxSize ≤ size → MmapFresh w sys size) (hn : maxOrder + L.length < n)
    (he : (do
      let (s, addr) ← malloc sys n w.st size
      if addr = 0 then .ret (s, 0)
      else do
        let s ← free n { s with
          mem := s.mem.copy addr (base + startSize * a + sizeofMetadata)
            (hdr w.st.mem (base + startSize * a)).size } (base + startSize * a + sizeofMetadata)
        .ret (s, addr)) = Outcome.ret (s', q)) :
    WInv base ⟨s', relive w.live (base + startSize * a + sizeofMetadata) q⟩ := by
  by_cases hserve : CanServe sys w.st size
  swap
  · rw [malloc_of_not_canServe hi hserve, Outcome.ret_bind] at he
    cases he
    exact ⟨B, L, hi, hl⟩
  obtain ⟨s₁, B₁, L₁, addr, he₁, hi₁, -, hto, -⟩ := malloc_spec sys hi
    (fun hm => (hf hm).fresh hi hl) hn
  rw [he₁, Outcome.ret_bind] at he
  have hl₁ := hl.alloc hi hi₁ hto
  simp only at he
  split_ifs at he with haddr
  · cases he
    subst haddr
    exact ⟨B₁, L₁, hi₁, hl₁⟩
  · obtain ⟨ha₁, hq₁⟩ := hto.quiet hi ha (hq hserve)
    have hi₂ := hto.inv_copy hi₁ haddr hsize.le (base + startSize * a + sizeofMetadata)
    obtain ⟨m, f, hfree, hi₃, -⟩ := Malloc3.free_heap hi₂ ha₁ hq₁ (show maxOrder < n by omega)
    rw [hfree, Outcome.ret_bind] at he
    cases he
    rw [track, if_neg haddr] at hl₁
    have hl₃ := hl₁.free_heap hi₁ ha₁
    have hne : q ≠ base + startSize * a + sizeofMetadata := by
      rintro rfl
      exact (List.nodup_cons.mp hl₁.nodup).1 ((hl.mem _).mpr (.inl ⟨a, k, ha, rfl⟩))
    rw [List.erase_cons_tail (by simpa using hne)] at hl₃
    refine ⟨_, L₁, hi₃, ?_⟩
    rwa [relive, if_neg haddr]

/-- **A call that does not grow in place keeps the invariant**, provided that a block which can move is
released quietly. -/
theorem WInv.srealloc {w : World} {sys : Sys} {p q : ℕ} {s' : State} (h : WInv base w)
    (hp : p ∈ w.live) (hheap : (hdr w.st.mem (headerOf p)).isMmap = false)
    (hf : maxSize ≤ size → MmapFresh w sys size) (hno : ¬ GrowsInPlace w.st p size)
    (hmove : Moves w.st p size → CanServe sys w.st size → QuietFree w.st p)
    (hr : Returns (fun n => Malloc3.srealloc sys n w.st p size) (s', q)) :
    WInv base ⟨s', relive w.live p q⟩ := by
  obtain ⟨B, L, hi, hl⟩ := h
  obtain ⟨a, k, ha, rfl⟩ := hl.heap_of_hdr hi hp hheap
  have hpos := hi.arena.pos
  have hhdr := headerOf_add (hi.slot_lt ha)
  obtain ⟨N, hN⟩ := hr
  beta_reduce at hN
  by_cases hv : size = 0 ∨ maxSizeToAllocate < size
  · have he := hN N le_rfl
    rw [Malloc3.srealloc, if_pos hv] at he
    cases he
    exact ⟨B, L, hi, hl⟩
  have hlist : ∀ n, N ≤ n →
      sreallocList sys n w.st (base + startSize * a + sizeofMetadata) size = .ret (s', q) := by
    intro n hn
    have he := hN n hn
    rwa [Malloc3.srealloc, if_neg hv, if_neg (by omega)] at he
  simp only [sreallocList, hhdr] at hlist
  by_cases hsize : size ≤ (hdr w.st.mem (base + startSize * a)).size
  · have he := hlist N le_rfl
    rw [if_pos hsize] at he
    cases he
    refine ⟨B, L, hi, hl.perm ?_⟩
    rw [relive, if_neg (by omega)]
    exact (List.perm_cons_erase hp).symm
  · have hlarger : Larger w.st (base + startSize * a + sizeofMetadata) size :=
      ⟨by omega, by omega, by rw [payloadLen, hhdr]; omega⟩
    simp only [if_neg hsize] at hlist
    -- the rehearsal has an answer, and it is no
    obtain ⟨b, hb, -⟩ := Outcome.bind_eq_ret.mp (hlist N le_rfl)
    have hret := settles_checkIfUnionIsPossible.returns hb
    cases b with
    | true => exact absurd ⟨hlarger, by rw [hhdr]; exact hret⟩ hno
    | false =>
      have hq := fun hserve : CanServe sys w.st size =>
        (hi.quietFree_iff ha).mp (hmove ⟨hlarger, by rw [hhdr]; exact hret⟩ hserve)
      obtain ⟨N', hN'⟩ := hret
      beta_reduce at hN'
      set n := max (max N N') (maxOrder + L.length + 1)
      have he := hlist n (by omega)
      rw [hN' n (by omega), Outcome.ret_bind, if_neg (by simp)] at he
      exact hl.move hi ha hq (by omega) hf (show maxOrder + L.length < n by omega) he

end Move

/-! ## The cases together -/

/-- An allocation. -/
def SmallocStep (w : World) (op : Op) (w' : World) : Prop :=
  (∃ sys size, op = .smalloc sys size) ∧ Step w op w'

/-- **What is expected of `srealloc(p, size)`**: if it returns, the free lists are exact, no block in use is
in one of them, and allocations that follow return pointers that the client does not hold yet. -/
def ReallocSound (sys : Sys) (w : World) (p size : ℕ) : Prop :=
  ∀ s' q, Returns (fun n => srealloc sys n w.st p size) (s', q) →
    FreedExact s' ∧ (∀ k ≤ maxOrder, ∀ a ∈ s'.freed k, (hdr s'.mem a).isFree = true) ∧
      ∀ ops w', Run SmallocStep ⟨s', relive w.live p q⟩ ops w' → w'.live.Nodup

/-- `srealloc` allocates another block, and in the state in which it then calls `Free`, the release of the old
one merges with a free buddy of a smaller order. -/
def FreesUnquietly (sys : Sys) (w : World) (p size : ℕ) : Prop :=
  ∃ s q, Returns (fun n => malloc sys n w.st size) (s, q) ∧ q ≠ 0 ∧
    ¬ QuietFree { s with mem := s.mem.copy q p (payloadLen w.st p) } p

section Sound

variable {base : ℕ} {w : World} {p size : ℕ} {sys : Sys}

theorem WInv.reallocSound (h : WInv base w) (hp : p ∈ w.live)
    (hheap : (hdr w.st.mem (headerOf p)).isMmap = false) (hf : maxSize ≤ size → MmapFresh w sys size)
    (hno : ¬ GrowsInPlace w.st p size)
    (hmove : Moves w.st p size → CanServe sys w.st size → QuietFree w.st p) : ReallocSound sys w p size := by
  intro s' q hr
  have hw := h.srealloc hp hheap hf hno hmove hr
  refine ⟨hw.ri.freedExact, fun k hk a ha => ?_, fun ops w' hrun => ?_⟩
  · obtain ⟨l, hl⟩ := hw.ri
    exact ((hl.freed k hk a).mp ha).2.1
  · obtain ⟨B, L, -, hl⟩ : WInv base w' := by
      refine hrun.invariant hw ?_
      rintro t - u hi ⟨⟨sys, size, rfl⟩, hs⟩
      exact hi.step hs trivial
    exact hl.nodup

theorem WInv.not_reallocSound (h : WInv base w) (hp : p ∈ w.live)
    (hheap : (hdr w.st.mem (headerOf p)).isMmap = false)
    (hc : size ≤ payloadSize maxOrder ∨ QuietFree w.st p) (hgr : GrowsInPlace w.st p size) :
    ¬ ReallocSound sys w p size := by
  obtain ⟨B, L, hi, hl⟩ := h
  obtain ⟨a, k, ha, rfl⟩ := hl.heap_of_hdr hi hp hheap
  obtain ⟨s', hr, hbad⟩ := not_freedExact_of_grows sys hi ha hc hgr
  exact fun hs => hbad (hs _ _ hr).1

/-- **A block that moves is not released quietly if it would not have been before the call**: the rehearsal
has stopped below the order of the block that is allocated, and what it met on the way is still there. -/
theorem WInv.freesUnquietly (h : WInv base w) (hp : p ∈ w.live)
    (hheap : (hdr w.st.mem (headerOf p)).isMmap = false) (hf : maxSize ≤ size → MmapFresh w sys size)
    (hmove : Moves w.st p size) (hserve : CanServe sys w.st size) (hq : ¬ QuietFree w.st p) :
    FreesUnquietly sys w p size := by
  obtain ⟨B, L, hi, hl⟩ := h
  obtain ⟨a, k, ha, rfl⟩ := hl.heap_of_hdr hi hp hheap
  obtain ⟨⟨h0, hmax, hlen⟩, N, hN⟩ := hmove
  have hhdr := headerOf_add (hi.slot_lt ha)
  have hH := hi.repr.heap.hdrs ha
  have hk : k ≤ maxOrder := hi.repr.heap.tiles.le_max ha
  obtain ⟨s₁, B₁, L₁, q, he₁, hi₁, -, hto, -⟩ := malloc_spec sys hi (fun hm => (hf hm).fresh hi hl)
    (Nat.lt_succ_self (maxOrder + L.length))
  have hret := settles_malloc.returns he₁
  have hq0 : q ≠ 0 := by
    obtain ⟨s', b, hg, -⟩ := gives_of_canServe (WInv.ri ⟨B, L, hi, hl⟩) (hi.head ▸ hi.maps)
      (hi.head ▸ fun hm => (hf hm).fresh hi hl) h0 hmax hserve
    have := congrArg Prod.snd (hret.unique hg)
    simp only at this
    unfold sizeofMetadata at this
    omega
  rw [payloadLen, hhdr] at hlen
  have hi₂ := hto.inv_copy hi₁ hq0 hlen.le (base + startSize * a + sizeofMetadata)
  refine ⟨s₁, q, hret, hq0, fun hq₁ => hq ((hi.quietFree_iff ha).mpr ?_)⟩
  rw [payloadLen, hhdr] at hq₁
  have he := hN N le_rfl
  beta_reduce at he
  rw [hhdr, checkIfUnionIsPossible, hi.repr.buddyAddr_hdr hi.arena ha, Outcome.ret_bind, hdr_slot] at he
  exact quiet_of_checkLoop_false hi.arena hi.repr ha (hto.keeps_small hi) (Nat.add_sub_cancel' hk) le_rfl
    (hi.repr.heap.tiles.aligned ha) hH.order hH.size hH.cookie he
    ((hi₂.quietFree_iff (hto.used hi ha)).mp hq₁)

/-- **`srealloc` of a block of the arena**: as long as it does not grow the block in place, and
releases a block that it can move quietly, it does what is expected of it. When it grows the block in
place it does not, and a block that it moves otherwise is merged with one of a smaller order. -/
theorem srealloc_sound_unless_grows (h : WInv base w) (hp : p ∈ w.live)
    (hheap : (hdr w.st.mem (headerOf p)).isMmap = false) (hf : maxSize ≤ size → MmapFresh w sys size) :
    ((¬ GrowsInPlace w.st p size ∧ (Moves w.st p size → CanServe sys w.st size → QuietFree w.st p)) →
      ReallocSound sys w p size) ∧
    (size ≤ payloadSize maxOrder ∨ QuietFree w.st p → GrowsInPlace w.st p size →
      ¬ ReallocSound sys w p size) ∧
    (Moves w.st p size → CanServe sys w.st size → ¬ QuietFree w.st p → FreesUnquietly sys w p size) :=
  ⟨fun hc => h.reallocSound hp hheap hf hc.1 hc.2, fun hc hgr => h.not_reallocSound hp hheap hc hgr,
    fun hm hs hq => h.freesUnquietly hp hheap hf hm hs hq⟩

end Sound

/-- The layout after one allocation of order 9. -/
def oneBlock : Layout := splitTo (fresh maxOrder arenaUnits) 0 9 1

theorem firstBlock : 8388608 + startSize * 0 + sizeofMetadata = 8388648 := by
  unfold startSize sizeofMetadata; norm_num

/-- One allocation of order 9; the block could grow into the other half. -/
theorem exists_oneBlock : ∃ w, Run Step (start (fun _ => 0) 0 4198400) [.smalloc ⟨true, none⟩ 65000] w ∧
    WInv 8388608 w ∧ Inv 8388608 w.st oneBlock [] ∧ w.live = [8388648] ∧
    (hdr w.st.mem (headerOf 8388648)).isMmap = false ∧ payloadLen w.st 8388648 = payloadSize 9 := by
  have hi := inv_initArena (fun _ => 0) boots_example true
  have ht := takes_fresh (k := 9) (by decide)
  obtain ⟨w, hs, hi₁, -, hl⟩ := step_smalloc (w := start (fun _ => 0) 0 4198400) ⟨true, none⟩ hi
    (by norm_num) (by unfold maxSize; norm_num) leastOrder_65000 ht
  have hw := (wInv_start (fun _ => 0) boots_example).step hs trivial
  rw [arenaBase_example] at hi₁ hw hl
  have hH := hi₁.repr.heap.hdrs (splitTo_self (n := 1) (a := 0) (k := 9))
  have hlen := hi₁.payloadLen_heap (splitTo_self (n := 1) (a := 0) (k := 9))
  refine ⟨w, .cons hs (.nil _), hw, hi₁, hl, ?_, hlen⟩
  rw [← firstBlock, headerOf_add (by unfold startSize; norm_num)]
  exact hH.isMmap

theorem oneBlock_grows : Grows oneBlock 100000 0 9 10 := by
  refine ⟨by norm_num, le_rfl, ?_, dvd_zero _, fun l h₁ h₂ => ?_⟩
  · unfold payloadSize startSize sizeofMetadata; norm_num
  · obtain rfl : l = 9 := by omega
    exact ⟨by unfold payloadSize startSize sizeofMetadata; norm_num, 9, by norm_num,
      splitTo_piece le_rfl (by norm_num)⟩

/-- The list of all blocks; the block in use can grow. -/
theorem exists_oneBlock_listed : ∃ w l,
    Run Step (start (fun _ => 0) 0 4198400) [.smalloc ⟨true, none⟩ 65000] w ∧ 8388648 ∈ w.live ∧
      Inv 8388608 w.st oneBlock [] ∧ RIList w.st l ∧
      (∀ a, a ∈ l ↔ ∃ v c, oneBlock v = some c ∧ a = 8388608 + startSize * v) ∧ 8388608 ∈ l ∧
      (hdr w.st.mem 8388608).isFree = false ∧
      Returns (fun n => checkIfUnionIsPossible n w.st 8388608 100000) true := by
  obtain ⟨w, hrun, -, hi, hl, -, -⟩ := exists_oneBlock
  obtain ⟨l, hri, hmem⟩ := hi.repr.riList hi.arena hi.head
  have h0 : oneBlock 0 = some ⟨9, false⟩ := splitTo_self
  have hA : 8388608 ∈ l := (hmem _).mpr ⟨0, _, h0, rfl⟩
  have hused : (hdr w.st.mem 8388608).isFree = false := hi.repr.heap.marks h0 (by simp)
  have hcheck := hi.check_of_climbs h0 oneBlock_grows.climbs
  rw [Nat.mul_zero, Nat.add_zero] at hcheck
  exact ⟨w, l, hrun, by rw [hl]; simp, hi, hri, hmem, hA, hused, hcheck⟩

theorem oneBlock_growsInPlace {s : State} (h : Inv 8388608 s oneBlock [])
    (hlen : payloadLen s 8388648 = payloadSize 9) : GrowsInPlace s 8388648 100000 := by
  have h9 := (oneBlock_grows.steps 9 le_rfl (by norm_num)).1
  refine ⟨⟨by norm_num, by unfold maxSizeToAllocate; norm_num, by omega⟩, ?_⟩
  rw [← firstBlock, headerOf_add (by unfold startSize; norm_num)]
  exact h.check_of_climbs splitTo_self oneBlock_grows.climbs

/-- A block of order 9 whose buddy has order 8 and is free. -/
theorem exists_smallerBuddy : ∃ w, Run Step (start (fun _ => 0) 0 4198400)
      [.smalloc ⟨true, none⟩ 65000, .smalloc ⟨true, none⟩ 32000, .smalloc ⟨true, none⟩ 32000, .sfree 8454184] w ∧
    WInv 8388608 w ∧ Inv 8388608 w.st (mark threeBlocks 512 8 true) [] ∧ w.live = [8486952, 8388648] ∧
    (hdr w.st.mem (headerOf 8388648)).isMmap = false ∧ payloadLen w.st 8388648 = payloadSize 9 ∧
    ¬ QuietFree w.st 8388648 := by
  obtain ⟨w₃, hrun, hi₃, hl₃, hw₃⟩ := exists_threeBlocks (fun _ => 0) boots_example ⟨true, none⟩
  rw [arenaBase_example] at hi₃ hl₃ hw₃
  obtain ⟨w, hs, hi, hl⟩ := exists_secondFree hi₃ hl₃
  have hp₀ : 8388608 + startSize * 512 + sizeofMetadata = 8454184 := rfl
  have hw := hw₃.step hs.1 hs.2
  rw [hp₀] at hs
  have h0 : mark threeBlocks 512 8 true 0 = some ⟨9, false⟩ := rfl
  have hH := hi.repr.heap.hdrs h0
  have hlen := hi.payloadLen_heap h0
  refine ⟨w, hrun.snoc hs.1, hw, hi, hl, ?_, hlen, fun hq => ?_⟩
  · rw [← firstBlock, headerOf_add (by unfold startSize; norm_num)]
    exact hH.isMmap
  · -- its buddy is the block of order 8
    rw [← firstBlock] at hq
    have := ((hi.quietFree_iff h0).mp hq).1 8 rfl
    omega

/-- Grown to an order-10 block it would be too small for 131040 bytes, and the next buddy has order 10. -/
theorem not_growsInPlace_smallerBuddy {s : State} {size : ℕ} (h : Inv 8388608 s (mark threeBlocks 512 8 true) [])
    (h₁ : payloadSize 10 < size) (h₂ : size ≤ payloadSize 14) : ¬ GrowsInPlace s 8388648 size := by
  rintro ⟨-, hr⟩
  have h0 : mark threeBlocks 512 8 true 0 = some ⟨9, false⟩ := rfl
  rw [← firstBlock, headerOf_add (by unfold startSize; norm_num)] at hr
  obtain ⟨K, hK⟩ := h.repr.climbs_of_check h.arena h0 (.inl h₂) hr
  have hlt : 10 < K := by
    by_contra hle
    have := hK.fits.trans (payloadSize_mono (not_lt.mp hle))
    omega
  obtain ⟨-, j, hj, hz⟩ := hK.steps 10 (by norm_num) hlt
  have h1024 : mark threeBlocks 512 8 true (0 + 2 ^ 10) = some ⟨10, true⟩ := rfl
  rw [h1024] at hz
  simp at hz
  omega

theorem moves_smallerBuddy {s : State} (h : Inv 8388608 s (mark threeBlocks 512 8 true) [])
    (hlen : payloadLen s 8388648 = payloadSize 9) : Moves s 8388648 200000 := by
  have h0 : mark threeBlocks 512 8 true 0 = some ⟨9, false⟩ := rfl
  have h512 : mark threeBlocks 512 8 true (buddy 0 9) = some ⟨8, true⟩ := rfl
  have h1024 : mark threeBlocks 512 8 true (buddy 0 10) = some ⟨10, true⟩ := rfl
  have hH := h.repr.heap.hdrs h0
  have h9 : payloadSize 9 < 200000 := by decide
  refine ⟨⟨by norm_num, by decide, hlen.trans_lt h9⟩, ?_⟩
  rw [← firstBlock, headerOf_add (by unfold startSize; norm_num)]
  refine settles_checkIfUnionIsPossible.returns (n := 2) ?_
  rw [checkIfUnionIsPossible, h.repr.buddyAddr_hdr h.arena h0, Outcome.ret_bind, hdr_slot,
    checkLoop_right h.arena h.repr (by decide) (by norm_num) (dvd_zero _) (by norm_num) h512 hH.order
      (hH.size ▸ h9) hH.cookie, checkLoop, hdr_slot, (h.repr.heap.hdrs h1024).order, if_neg (by simp)]
  rfl

/-- Asking for less than the block has, growing it, asking for what `Malloc` cannot serve, and moving a block
with a smaller free buddy. -/
theorem srealloc_sound_unless_grows_cases : (∃ w,
    Run Step (start (fun _ => 0) 0 4198400) [.smalloc ⟨true, none⟩ 65000] w ∧
    ReallocSound ⟨true, none⟩ w 8388648 100 ∧ ¬ ReallocSound ⟨true, none⟩ w 8388648 100000) ∧
    ∃ w, Run Step (start (fun _ => 0) 0 4198400)
      [.smalloc ⟨true, none⟩ 65000, .smalloc ⟨true, none⟩ 32000, .smalloc ⟨true, none⟩ 32000, .sfree 8454184] w ∧
    ¬ QuietFree w.st 8388648 ∧ ReallocSound ⟨true, none⟩ w 8388648 131040 ∧
    FreesUnquietly ⟨true, some 16777216⟩ w 8388648 200000 := by
  refine ⟨?_, ?_⟩
  · obtain ⟨w, hrun, hw, hi, hl, hheap, hlen⟩ := exists_oneBlock
    have hp : 8388648 ∈ w.live := by rw [hl]; simp
    have hsmall : ¬ Larger w.st 8388648 100 := by
      rintro ⟨-, -, hlt⟩
      rw [hlen] at hlt
      unfold payloadSize startSize sizeofMetadata at hlt
      omega
    exact ⟨w, hrun, (srealloc_sound_unless_grows hw hp hheap (fun h => absurd h (by decide))).1
      ⟨fun hgr => hsmall hgr.1, fun hm => absurd hm.1 hsmall⟩,
      (srealloc_sound_unless_grows hw hp hheap (fun h => absurd h (by decide))).2.1 (.inl oneBlock_grows.fits)
        (oneBlock_growsInPlace hi hlen)⟩
  · obtain ⟨w, hrun, hw, hi, hl, hheap, hlen, hq⟩ := exists_smallerBuddy
    have hp : 8388648 ∈ w.live := by rw [hl]; simp
    have hgap : ¬ CanServe ⟨true, none⟩ w.st 131040 := by
      rw [CanServe, if_neg (by decide)]
      rintro ⟨k, hk, hfit, -⟩
      exact absurd (hfit.trans (payloadSize_mono hk)) (by decide)
    refine ⟨w, hrun, hq, (srealloc_sound_unless_grows hw hp hheap (fun h => absurd h (by decide))).1
      ⟨not_growsInPlace_smallerBuddy hi (by decide) (by decide), fun _ hserve => absurd hserve hgap⟩, ?_⟩
    refine (srealloc_sound_unless_grows hw hp hheap fun _ => ?_).2.2 (moves_smallerBuddy hi hlen)
      (by rw [CanServe, if_pos (by decide)]; simp) hq
    intro addr haddr
    obtain rfl := Option.some.inj haddr
    have h768 : mark threeBlocks 512 8 true 768 = some ⟨8, false⟩ := rfl
    have hp₂ : 8388608 + startSize * 768 + sizeofMetadata = 8486952 := rfl
    have hlen₂ := hi.payloadLen_heap h768
    rw [hp₂] at hlen₂
    rw [hi.head, hl]
    refine ⟨by norm_num, by decide, by decide, fun q hq => ?_⟩
    obtain rfl | rfl : q = 8486952 ∨ q = 8388648 := by simpa using hq
    · rw [hlen₂]
      exact .inl (by decide)
    · rw [hlen]
      exact .inl (by decide)

/-- **Growing the first block of the arena into its other half** puts the second 128 KiB block, which
is free, into `freed[10]` again. -/
theorem srealloc_breaks_free_lists : ∃ w s',
    Run Step (start (fun _ => 0) 0 4198400) [.smalloc ⟨true, none⟩ 65000] w ∧ WInv 8388608 w ∧
    8388648 ∈ w.live ∧ (hdr w.st.mem (headerOf 8388648)).isMmap = false ∧
    Returns (fun n => srealloc ⟨true, none⟩ n w.st 8388648 100000) (s', 8388648) ∧
    ¬ FreedExact s' := by
  obtain ⟨w, hrun, hw, hi, hl, hheap, hlen⟩ := exists_oneBlock
  have hgr := oneBlock_growsInPlace hi hlen
  rw [← firstBlock] at hgr
  obtain ⟨s', hr, hbad⟩ := not_freedExact_of_grows ⟨true, none⟩ hi
    (splitTo_self (n := 1) (a := 0) (k := 9)) (.inl oneBlock_grows.fits) hgr
  rw [firstBlock] at hr
  exact ⟨w, s', hrun, hw, by rw [hl]; simp, hheap, hr, hbad⟩

end OsHomework.Malloc3
