import OsHomework.Malloc3.Sound

/-!
# `malloc_3`: back to the initial state

* `FreshArena`: the 32 free blocks of order 10, spelled out; `Inv.freshArena`;
* `Unwinds`: releasing what is held, latest first, leads back to the fresh arena;
* **`stack_discipline`**: it does after any run of allocations;
* **`full_coalescing`**: so does releasing in any order, as long as the releases are quiet.
-/

set_option autoImplicit false

namespace OsHomework.Malloc3

open Buddy

/-- **The state in which the arena starts**: 32 free blocks of order 10 linked in address order, all of
them in `freed[10]`, and the other lists empty. -/
structure FreshArena (base ck : ℕ) (s : State) : Prop where
  head : s.head = base
  blocks : ∀ i < 32, hdr s.mem (base + i * maxSize) =
    { cookie := ck, size := maxSize - sizeofMetadata, isFree := true, isMmap := false,
      order := maxOrder, next := if i = 31 then 0 else base + (i + 1) * maxSize,
      prev := if i = 0 then 0 else base + (i - 1) * maxSize }
  top : s.freed maxOrder = (List.range 32).map fun i => base + i * maxSize
  rest : ∀ k < maxOrder, s.freed k = []

section Fresh

variable {base : ℕ} {s : State}

theorem Inv.freshArena {L : List (ℕ × ℕ)} (h : Inv base s (fresh maxOrder arenaUnits) L) :
    FreshArena base s.cookie s := by
  have hH := h.repr.heap
  refine ⟨h.head, fun i hi => ?_, ?_, fun k hk => ?_⟩
  · have hB := fresh_block hi
    have hok := hH.hdrs hB
    have hmark := hH.marks hB (by simp)
    have hnext : nextAddr base (1024 * i) maxOrder =
        if i = 31 then 0 else base + (i + 1) * maxSize := by
      have hpow : 2 ^ maxOrder = 1024 := rfl
      by_cases h31 : i = 31
      · rw [if_pos h31, nextAddr, if_pos (by rw [hpow, h31]; rfl)]
      · rw [if_neg h31, nextAddr, hpow, block_addr, if_neg (by unfold arenaUnits; omega)]
        rfl
    have hprev : (slots base s.mem (1024 * i)).prev =
        if i = 0 then 0 else base + (i - 1) * maxSize := by
      split_ifs with h0
      · rw [h0]; exact hH.headPrev
      · obtain ⟨j, rfl⟩ := Nat.exists_eq_succ_of_ne_zero h0
        have := hH.prevs (fresh_block (i := j) (by omega)) (by
          show 1024 * j + 2 ^ 10 < 2 ^ 15
          omega)
        rw [block_addr]
        exact this
    have hsize : payloadSize maxOrder = maxSize - sizeofMetadata := rfl
    rw [block_addr, hdr_slot]
    obtain ⟨hc, hs, hm, ho, hn⟩ := hok
    simp only at hs ho hn hmark
    rw [← hnext, ← hprev, ← hc, ← hsize, ← hs, ← ho, ← hn, ← hm, ← hmark]
  · refine (h.repr.lists.sorted le_rfl).eq_of_mem_iff ?_ fun p => ?_
    · rw [List.pairwise_map]
      exact List.pairwise_lt_range.imp fun hlt => by unfold maxSize; omega
    · rw [h.repr.lists.mem le_rfl, List.mem_map]
      constructor
      · rintro ⟨a, rfl, ha⟩
        obtain ⟨i, hi, rfl, -⟩ := fresh_eq ha
        exact ⟨i, List.mem_range.mpr hi, block_addr base i⟩
      · rintro ⟨i, hi, rfl⟩
        exact ⟨1024 * i, block_addr base i, fresh_block (List.mem_range.mp hi)⟩
  · apply List.eq_nil_iff_forall_not_mem.mpr
    intro p hp
    obtain ⟨a, -, ha⟩ := (h.repr.lists.mem hk.le p).mp hp
    exact hk.ne (fresh_order ha)

end Fresh

/-! ## What a step did -/

section Inversion

variable {base : ℕ} {w w' : World} {B : Layout} {L : List (ℕ × ℕ)}

theorem Step.alloc {sys : Sys} {size : ℕ} (hs : Step w (.smalloc sys size) w')
    (h : Inv base w.st B L) (hl : Live base B L w.live) : ∃ B' L' p, Inv base w'.st B' L' ∧
      w'.st.cookie = w.st.cookie ∧ w'.live = track p w.live ∧ Live base B' L' w'.live ∧
      AllocTo base B L sys size B' L' p := by
  obtain ⟨ha, N, hN⟩ := hs
  obtain ⟨s, B', L', p, he, hi, hck, hto, -⟩ := malloc_spec sys h (fun hm => (ha hm).fresh h hl)
    (show maxOrder + L.length < max N (maxOrder + L.length + 1) by omega)
  have hw : call (max N (maxOrder + L.length + 1)) w (.smalloc sys size) = .ret w' :=
    hN _ (le_max_left _ _)
  rw [call, smalloc, he, Outcome.ret_bind] at hw
  obtain rfl := Outcome.ret.inj hw
  exact ⟨B', L', p, hi, hck, rfl, hl.alloc h hi hto, hto⟩

end Inversion

/-! ## Stack discipline -/

section Stack

variable {base ck : ℕ} {B : Layout} {L : List (ℕ × ℕ)} {live : List ℕ}

/-- From every world with this layout, these mapped blocks and these pointers, releasing the pointers
in order leads to the fresh arena. -/
def Unwinds (base ck : ℕ) (B : Layout) (L : List (ℕ × ℕ)) (live : List ℕ) : Prop :=
  ∀ u : World, Inv base u.st B L → u.st.cookie = ck → u.live = live →
    ∃ w, Run Step u (live.map .sfree) w ∧ Inv base w.st (fresh maxOrder arenaUnits) [] ∧
      w.st.cookie = ck ∧ w.live = []

/-- **The block taken last can be given back first**: merging undoes the cuts and stops there. -/
theorem Unwinds.heap {k j a : ℕ} (h : Unwinds base ck B L live) (ht : Tiles maxOrder arenaUnits B)
    (ha : AllocOnly maxOrder B) (htk : Takes B k j a) :
    Unwinds base ck (splitTo B a k (j - k)) L
      ((base + startSize * a + sizeofMetadata) :: live) := by
  intro u hi hck hl
  have hj : j ≤ maxOrder := ht.le_max htk.block
  have hle := htk.le
  obtain ⟨n, rfl⟩ : ∃ n, j = k + n := ⟨j - k, by omega⟩
  obtain ⟨r, hr⟩ : ∃ r, k + n + r = maxOrder := ⟨maxOrder - (k + n), by omega⟩
  have hdvd : 2 ^ (k + n) ∣ a := ht.aligned htk.block
  have hin : ∀ u, a < u → u < a + 2 ^ (k + n) → B u = none := fun u h₁ h₂ => ht.inner htk.block h₁ h₂
  rw [show k + n - k = n by omega] at hi
  have hrn : maxOrder - k = r + n := by omega
  have hq : Quiet (splitTo B a k n) (maxOrder - k) a k := by
    rw [hrn]
    exact quiet_splitTo hdvd (ha.quiet_mark ht hr htk.block)
  obtain ⟨u', hs, hi', hck', hl'⟩ := step_sfree hi splitTo_self hq (by rw [hl]; simp)
  rw [hrn, release_splitTo hdvd hin, ha.release_mark hr htk.block] at hi'
  rw [hl, List.erase_cons_head] at hl'
  obtain ⟨w, hrun, hw⟩ := h u' hi' (hck'.trans hck) hl'
  exact ⟨w, .cons hs hrun, hw⟩

theorem Unwinds.map {r : ℕ × ℕ} (h : Unwinds base ck B L live) :
    Unwinds base ck B (L ++ [r]) ((r.1 + sizeofMetadata) :: live) := by
  intro u hi hck hl
  have hnot : r ∉ L := fun hmem => by
    have hnd := hi.maps.nodup.of_map
    rw [List.nodup_append'] at hnd
    exact hnd.2.2 hmem (by simp)
  obtain ⟨u', hs, hi', hck', hl'⟩ := step_sfree_map hi (r := r) (by simp) (by rw [hl]; simp)
  rw [List.erase_append_right _ hnot, List.erase_cons_head, List.append_nil] at hi'
  rw [hl, List.erase_cons_head] at hl'
  obtain ⟨w, hrun, hw⟩ := h u' hi' (hck'.trans hck) hl'
  exact ⟨w, .cons hs hrun, hw⟩

/-- The invariant of runs that only allocate. -/
structure StackInv (base ck : ℕ) (w : World) (B : Layout) (L : List (ℕ × ℕ)) : Prop where
  inv : Inv base w.st B L
  live : Live base B L w.live
  cookie : w.st.cookie = ck
  allocOnly : AllocOnly maxOrder B
  unwinds : Unwinds base ck B L w.live

theorem StackInv.step {w w' : World} {sys : Sys} {size : ℕ} (h : StackInv base ck w B L)
    (hs : Step w (.smalloc sys size) w') : ∃ B' L', StackInv base ck w' B' L' := by
  have ht := h.inv.repr.heap.tiles
  have hpos := h.inv.arena.pos
  obtain ⟨B', L', p, hi, hck, hlive, hl, hto⟩ := hs.alloc h.inv h.live
  have hck := hck.trans h.cookie
  cases hto with
  | null => exact ⟨B, L, hi, hl, hck, h.allocOnly, by rw [hlive]; exact h.unwinds⟩
  | @heap k j a hk htk =>
    have hn : k + (j - k) = j := Nat.add_sub_cancel' htk.le
    refine ⟨_, L, hi, hl, hck, h.allocOnly.splitTo ht (by rw [hn]; exact htk.block), ?_⟩
    rw [hlive, track, if_neg (by omega)]
    exact h.unwinds.heap ht h.allocOnly htk
  | @map addr hmin hf =>
    refine ⟨B, _, hi, hl, hck, h.allocOnly, ?_⟩
    rw [hlive, track, if_neg (by have := hf.pos; omega)]
    exact h.unwinds.map (r := (addr, size))

theorem stackInv_start (m : Mem) {ck brk : ℕ} (hb : Boots ck brk) : StackInv (arenaBase brk) ck
    (start m ck brk) (fresh maxOrder arenaUnits) [] :=
  ⟨inv_initArena m hb true, live_fresh _, initArena_cookie m hb true, allocOnly_fresh,
    fun u hu hc hl => ⟨u, .nil _, hu, hc, hl⟩⟩

/-- **Stack discipline**: allocate any list of requests, then release the pointers returned in the
reverse order. Every call returns, and the allocator is back in its initial state, with no mapped
block left. -/
theorem stack_discipline (m : Mem) {ck brk : ℕ} (hb : Boots ck brk) {reqs : List (Sys × ℕ)}
    {w : World} (hrun : Run Step (start m ck brk) (reqs.map fun r => .smalloc r.1 r.2) w) :
    (∀ sys size, (maxSize ≤ size → MmapFresh w sys size) → ∃ w', Step w (.smalloc sys size) w') ∧
    ∃ w', Run Step w (w.live.map .sfree) w' ∧ FreshArena (arenaBase brk) ck (start m ck brk).st ∧
      FreshArena (arenaBase brk) ck w'.st ∧ w'.st.mmapHead = 0 ∧ w'.live = [] := by
  have h₀ := stackInv_start m hb
  have hinv : ∀ {ops v}, Run Step (start m ck brk) ops v →
      (∀ op ∈ ops, ∃ sys size, op = .smalloc sys size) →
      ∃ B L, StackInv (arenaBase brk) ck v B L := by
    intro ops v hrun hops
    induction hrun with
    | nil => exact ⟨_, [], h₀⟩
    | snoc _ hs ih =>
      obtain ⟨B, L, hv⟩ := ih fun op hop => hops op (List.mem_append_left _ hop)
      obtain ⟨sys, size, rfl⟩ := hops _ (List.mem_append_right _ List.mem_cons_self)
      exact hv.step hs
  obtain ⟨B, L, hw⟩ := hinv hrun fun op hop => by
    obtain ⟨r, -, rfl⟩ := List.mem_map.mp hop
    exact ⟨r.1, r.2, rfl⟩
  refine ⟨fun sys size hf => ?_, ?_⟩
  · have hwi : WInv (arenaBase brk) w := ⟨B, L, hw.inv, hw.live⟩
    exact hwi.progress hf trivial
  · obtain ⟨w', hrun', hi, hck, hl⟩ := hw.unwinds w hw.inv hw.cookie rfl
    have hs := h₀.inv.freshArena
    have hf := hi.freshArena
    rw [h₀.cookie] at hs
    rw [hck] at hf
    exact ⟨w', hrun', hs, hf, hi.maps.linked, hl⟩

/-- One block of the arena and one mapped block. -/
theorem exists_blockAndMap : ∃ w, Run Step (start (fun _ => 0) 0 4198400)
      [.smalloc ⟨true, none⟩ 65000, .smalloc ⟨true, some 1073741824⟩ 200000] w ∧
    Inv 8388608 w.st (splitTo (fresh maxOrder arenaUnits) 0 9 1) [(1073741824, 200000)] ∧
    Live 8388608 (splitTo (fresh maxOrder arenaUnits) 0 9 1) [(1073741824, 200000)] w.live ∧
    w.live = [1073741864, 8388648] := by
  have hi := inv_initArena (fun _ => 0) boots_example true
  obtain ⟨w₁, h₁, hi₁, -, hl₁⟩ := step_smalloc (w := start (fun _ => 0) 0 4198400) ⟨true, none⟩ hi
    (by norm_num) (by unfold maxSize; norm_num) leastOrder_65000 (takes_fresh (k := 9) (by decide))
  have hto : AllocTo (arenaBase 4198400) (fresh maxOrder arenaUnits) [] ⟨true, none⟩ 65000 _ _ _ :=
    .heap leastOrder_65000 (takes_fresh (k := 9) (by decide))
  have hp₁ : arenaBase 4198400 + startSize * 0 + sizeofMetadata = 8388648 := by
    rw [arenaBase_example]; rfl
  have hlive := (live_fresh _).alloc hi hi₁ hto
  rw [hp₁] at hl₁ hlive
  replace hlive : Live (arenaBase 4198400) (splitTo (fresh maxOrder arenaUnits) 0 9 1) [] w₁.live := by
    rw [hl₁]
    exact hlive
  have hf : MmapFresh w₁ ⟨true, some 1073741824⟩ 200000 := by
    intro addr ha
    obtain rfl := Option.some.inj ha
    rw [hi₁.head, arenaBase_example, hl₁]
    refine ⟨by norm_num, by norm_num [sizeofMetadata], by norm_num [maxSize], fun p hp => ?_⟩
    obtain rfl : p = 8388648 := by simpa [start] using hp
    have := hi₁.payloadLen_heap splitTo_self
    rw [hp₁] at this
    rw [this]
    norm_num [payloadSize, startSize, sizeofMetadata]
  have hmax : 200000 ≤ maxSizeToAllocate := by norm_num [maxSizeToAllocate]
  obtain ⟨w₂, h₂, hi₂, -, hl₂⟩ := step_smalloc_map hi₁ hlive (by norm_num [maxSize]) hmax rfl hf
  have hto₂ : AllocTo (arenaBase 4198400) (splitTo (fresh maxOrder arenaUnits) 0 9 1) []
      ⟨true, some 1073741824⟩ 200000 _ _ _ :=
    .map (by norm_num [maxSize]) (hf.fresh hi₁ hlive _ rfl)
  have hlive₂ := hlive.alloc hi₁ hi₂ hto₂
  have hne : ¬ 1073741824 + sizeofMetadata = 0 := by norm_num [sizeofMetadata]
  rw [track, if_neg hne, ← hl₂] at hlive₂
  rw [arenaBase_example] at hi₂ hlive₂
  exact ⟨w₂, .cons h₁ (.cons h₂ (.nil _)), hi₂, hlive₂, by rw [hl₂, hl₁]; rfl⟩

/-- One request of each kind: from the arena, mapped, and invalid. -/
theorem stack_discipline_three_requests : ∃ w w', Run Step (start (fun _ => 0) 0 4198400)
    [.smalloc ⟨true, none⟩ 65000, .smalloc ⟨true, some 1073741824⟩ 200000, .smalloc ⟨true, none⟩ 0] w ∧
    Run Step w [.sfree 1073741864, .sfree 8388648] w' ∧ FreshArena 8388608 0 w'.st ∧
    w'.st.mmapHead = 0 := by
  obtain ⟨w₂, hrun₂, hi₂, -, hl₂⟩ := exists_blockAndMap
  have h₃ : Step w₂ (.smalloc ⟨true, none⟩ 0) w₂ := by
    refine ⟨fun hm => absurd hm (by norm_num [maxSize]), settles_call.returns (n := 0) ?_⟩
    rw [call, smalloc, malloc_invalid _ hi₂ (.inl rfl), Outcome.ret_bind]
    rfl
  have hrun : Run Step (start (fun _ => 0) 0 4198400) ([(⟨true, none⟩, 65000),
      (⟨true, some 1073741824⟩, 200000), (⟨true, none⟩, 0)].map fun r => .smalloc r.1 r.2) w₂ :=
    .snoc hrun₂ h₃
  obtain ⟨-, w', hrun', -, hw', hmap, -⟩ := stack_discipline _ boots_example hrun
  rw [hl₂] at hrun'
  rw [arenaBase_example] at hw'
  exact ⟨w₂, w', hrun, hrun', hw', hmap⟩

end Stack

/-! ## Full coalescing -/

section Coalesce

variable {base ck : ℕ} {w w' : World}

/-- The invariant of runs on heap-sized requests: no two free buddies of one order. -/
structure CoalesceInv (base ck : ℕ) (w : World) (B : Layout) : Prop where
  inv : Inv base w.st B []
  live : Live base B [] w.live
  cookie : w.st.cookie = ck
  coalesced : Coalesced maxOrder B

theorem CoalesceInv.alloc {B : Layout} {sys : Sys} {size : ℕ} (h : CoalesceInv base ck w B)
    (hsize : size < maxSize) (hs : Step w (.smalloc sys size) w') :
    ∃ B', CoalesceInv base ck w' B' := by
  have ht := h.inv.repr.heap.tiles
  obtain ⟨B', L', p, hi, hck, -, hl, hto⟩ := hs.alloc h.inv h.live
  have hck := hck.trans h.cookie
  cases hto with
  | null => exact ⟨B, hi, hl, hck, h.coalesced⟩
  | @heap k j a hk htk =>
    have hn : k + (j - k) = j := Nat.add_sub_cancel' htk.le
    refine ⟨_, hi, hl, hck, h.coalesced.splitTo ?_⟩
    rw [hn]
    exact ht.aligned htk.block
  | @map addr hmin hf => exact absurd hmin (by omega)

/-- Each release, in this order, is quiet in the state it is made in. -/
def QuietFrees : World → List ℕ → Prop
  | _, [] => True
  | w, p :: ps => QuietFree w.st p ∧ ∀ w', Step w (.sfree p) w' → QuietFrees w' ps

/-- **Quiet releases of all that is held**, in any order, lead to the fresh arena; the induction is on
the pointers still to be released. -/
theorem CoalesceInv.free {ps : List ℕ} {w : World} {B : Layout} (h : CoalesceInv base ck w B)
    (hp : ps.Perm w.live) (hq : QuietFrees w ps) : ∃ w', Run Step w (ps.map .sfree) w' ∧
      Inv base w'.st (fresh maxOrder arenaUnits) [] ∧ w'.st.cookie = ck := by
  induction ps generalizing w B with
  | nil =>
    have hl : w.live = [] := hp.symm.eq_nil
    refine ⟨w, .nil _, ?_, h.cookie⟩
    rw [← h.coalesced.eq_fresh h.inv.repr.heap.tiles (by decide) fun {a c} ha => ?_]
    · exact h.inv
    · -- a used block would be held
      by_contra hc
      have hmem := (h.live.mem (base + startSize * a + sizeofMetadata)).mpr
        (.inl ⟨a, c.order, by rw [ha, ← Bool.eq_false_iff.mpr hc], rfl⟩)
      rw [hl] at hmem
      simp at hmem
  | cons p ps ih =>
    have hmem : p ∈ w.live := hp.subset List.mem_cons_self
    rcases (h.live.mem p).mp hmem with ⟨a, k, ha, rfl⟩ | ⟨r, hr, -⟩
    · have hM : k ≤ maxOrder := h.inv.repr.heap.tiles.le_max ha
      have hq' := (h.inv.quietFree_iff ha).mp hq.1
      obtain ⟨w₁, hs, hi, hck, hl⟩ := step_sfree h.inv ha hq' hmem
      have h₁ : CoalesceInv base ck w₁ (release B (maxOrder - k) a k) :=
        ⟨hi, hl ▸ h.live.free_heap h.inv ha, hck.trans h.cookie,
          h.coalesced.release (by omega) (h.inv.repr.heap.tiles.aligned ha)⟩
      obtain ⟨w', hrun, hw'⟩ := ih h₁
        (by rw [hl]; exact List.cons_perm_iff_perm_erase.mp hp |>.2) (hq.2 w₁ hs)
      exact ⟨w', .cons hs hrun, hw'⟩
    · simp at hr

/-- **Full coalescing**: allocate any heap-sized requests, then release the pointers returned in any
order in which every release is quiet. Every release returns, and the arena is back in its initial
state. -/
theorem full_coalescing (m : Mem) {ck brk : ℕ} (hb : Boots ck brk) {reqs : List (Sys × ℕ)}
    (hsize : ∀ r ∈ reqs, r.2 < maxSize) {w : World}
    (hrun : Run Step (start m ck brk) (reqs.map fun r => .smalloc r.1 r.2) w) {ps : List ℕ}
    (hp : ps.Perm w.live) (hq : QuietFrees w ps) :
    ∃ w', Run Step w (ps.map .sfree) w' ∧ FreshArena (arenaBase brk) ck w'.st := by
  have hinv : ∀ {ops v}, Run Step (start m ck brk) ops v →
      (∀ op ∈ ops, ∃ sys size, op = .smalloc sys size ∧ size < maxSize) →
      ∃ B, CoalesceInv (arenaBase brk) ck v B := by
    intro ops v hrun hops
    induction hrun with
    | nil => exact ⟨_, inv_initArena m hb true, live_fresh _, initArena_cookie m hb true,
        coalesced_fresh⟩
    | snoc _ hs ih =>
      obtain ⟨B, hv⟩ := ih fun op hop => hops op (List.mem_append_left _ hop)
      obtain ⟨sys, size, rfl, hlt⟩ := hops _ (List.mem_append_right _ List.mem_cons_self)
      exact hv.alloc hlt hs
  obtain ⟨B, hw⟩ := hinv hrun fun op hop => by
    obtain ⟨r, hr, rfl⟩ := List.mem_map.mp hop
    exact ⟨r.1, r.2, rfl, hsize r hr⟩
  obtain ⟨w', hrun', hi, hck⟩ := hw.free hp hq
  exact ⟨w', hrun', hck ▸ hi.freshArena⟩

/-- A quiet release, and quiet ones after it. -/
theorem Inv.quietFrees_cons {w : World} {B : Layout} {L : List (ℕ × ℕ)} {a k : ℕ} {ps : List ℕ}
    (h : Inv base w.st B L) (ha : B a = some ⟨k, false⟩) (hq : Quiet B (maxOrder - k) a k)
    (hmem : base + startSize * a + sizeofMetadata ∈ w.live)
    (hps : ∀ w' : World, Inv base w'.st (release B (maxOrder - k) a k) L →
      w'.live = w.live.erase (base + startSize * a + sizeofMetadata) → QuietFrees w' ps) :
    QuietFrees w ((base + startSize * a + sizeofMetadata) :: ps) := by
  refine ⟨(h.quietFree_iff ha).mpr hq, fun w' hs => ?_⟩
  obtain ⟨w₁, hs₁, hi, -, hl⟩ := step_sfree h ha hq hmem
  obtain rfl := hs₁.2.unique hs.2
  exact hps w₁ hi hl

/-- Three blocks of orders 9, 8 and 8, released in the order third, first, second: only the last release merges. -/
theorem quietFrees_threeBlocks {w : World} (h : Inv base w.st threeBlocks [])
    (hl : w.live = [base + startSize * 768 + sizeofMetadata, base + startSize * 512 + sizeofMetadata,
      base + startSize * 0 + sizeofMetadata]) :
    QuietFrees w [base + startSize * 768 + sizeofMetadata, base + startSize * 0 + sizeofMetadata,
      base + startSize * 512 + sizeofMetadata] := by
  have h₁ : threeBlocks (buddy 768 8) = some ⟨8, false⟩ := rfl
  have h₂ : mark threeBlocks 768 8 true (buddy 0 9) = some ⟨8, false⟩ := rfl
  refine h.quietFrees_cons (a := 768) (k := 8) rfl (quiet_of_used h₁) (by simp [hl]) fun w₁ hi₁ hl₁ => ?_
  rw [release_of_used h₁] at hi₁
  have hl₁ : w₁.live = [base + startSize * 512 + sizeofMetadata, base + startSize * 0 + sizeofMetadata] := by
    rw [hl₁, hl, List.erase_cons_head]
  refine hi₁.quietFrees_cons (a := 0) (k := 9) rfl (quiet_of_used h₂) (by simp [hl₁]) fun w₂ hi₂ hl₂ => ?_
  rw [release_of_used h₂] at hi₂
  refine hi₂.quietFrees_cons (a := 512) (k := 8) rfl ?_ (by simp [hl₂, hl₁, startSize]) fun _ _ _ => trivial
  -- the third block is free, then the first, and then the next block of order 10
  refine quiet_of_same rfl (quiet_of_same rfl fun m hm => ?_)
  have h1024 : (10 : ℕ) = m := congrArg (fun c => (c.map Cell.order).getD 0) hm
  exact h1024.symm

/-- Three blocks are allocated, and released in another order. -/
theorem full_coalescing_three_blocks : ∃ w w', Run Step (start (fun _ => 0) 0 4198400)
    [.smalloc ⟨true, none⟩ 65000, .smalloc ⟨true, none⟩ 32000, .smalloc ⟨true, none⟩ 32000] w ∧
    QuietFrees w [8486952, 8388648, 8454184] ∧
    Run Step w [.sfree 8486952, .sfree 8388648, .sfree 8454184] w' ∧ FreshArena 8388608 0 w'.st := by
  obtain ⟨w, hrun, hi, hl, -⟩ := exists_threeBlocks (fun _ => 0) boots_example ⟨true, none⟩
  rw [arenaBase_example] at hi hl
  have hq : QuietFrees w [8486952, 8388648, 8454184] := quietFrees_threeBlocks hi hl
  have hperm : [8486952, 8388648, 8454184].Perm w.live := by
    rw [hl]
    exact (List.Perm.swap _ _ _).cons _
  have hsmall : ∀ r ∈ [((⟨true, none⟩ : Sys), 65000), (⟨true, none⟩, 32000), (⟨true, none⟩, 32000)], r.2 < maxSize := by
    simp [maxSize]
  obtain ⟨w', hrun', hf⟩ := full_coalescing (fun _ => 0) boots_example hsmall hrun hperm hq
  rw [arenaBase_example] at hf
  exact ⟨w, w', hrun, hq, hrun', hf⟩

/-- **A release order that does not coalesce**: with blocks of orders 9, 8 and 8, release the second,
the first and the third. The first swallows the region of the other two; the third then merges with
what is left of the header of the second, and ends up in `freed[9]`. -/
theorem coalescing_fails : ∃ w w', Run Step (start (fun _ => 0) 0 4198400)
    [.smalloc ⟨true, none⟩ 65000, .smalloc ⟨true, none⟩ 32000, .smalloc ⟨true, none⟩ 32000] w ∧
    [8454184, 8388648, 8486952].Perm w.live ∧
    Run Step w [.sfree 8454184, .sfree 8388648, .sfree 8486952] w' ∧
    ¬ FreshArena 8388608 0 w'.st := by
  obtain ⟨w₃, hrun₃, hi₃, hl₃, -⟩ := exists_threeBlocks (fun _ => 0) boots_example ⟨true, none⟩
  obtain ⟨w, t, f, hrun, hi, hw, hs, -⟩ := exists_swallowed hi₃ hl₃
  have hH := hi.repr.heap
  set base := arenaBase 4198400 with hbase
  have hB512 : mark threeBlocks 512 8 true 512 = some ⟨8, true⟩ := rfl
  have hB768 : mark threeBlocks 512 8 true 768 = some ⟨8, false⟩ := rfl
  have hbud : buddy 768 8 = 512 := rfl
  have hs₀ : slots base w.st.mem 0 =
      mergedHdr (slots base t.mem 0) 9 (base + startSize * 768) := by
    rw [hs, prevAt_of_ne (by norm_num), Function.update_self]
  have hs₅ : slots base w.st.mem 512 = slots base t.mem 512 := by
    rw [hs, prevAt_of_ne (by norm_num), Function.update_of_ne (by norm_num)]
  have hs₇ : slots base w.st.mem 768 = { slots base t.mem 768 with prev := base + startSize * 0 } := by
    rw [hs, prevAt, if_neg (by decide), Function.update_self, Function.update_of_ne (by norm_num)]
  have hck : w.st.cookie = t.cookie := by rw [hw]
  -- the third block and the stale header before it
  obtain ⟨m, f', he, -, hf'⟩ := free_one_merge (s := w.st) (y := 768) (k := 8) (i := 8) (j := 8)
    (t := 8) hi.arena (by decide) (by rw [hbud]; decide) (by norm_num) (by norm_num) (by decide)
    (by rw [hs₇, hck]; exact (hH.hdrs hB768).cookie) (by rw [hs₇]; exact (hH.hdrs hB768).isMmap)
    (by rw [hs₇]; exact (hH.hdrs hB768).order)
    (by rw [hbud, hs₅, hck]; exact (hH.hdrs hB512).cookie)
    (by rw [hbud, hs₅]; exact hH.marks hB512 (by simp))
    (by rw [hbud, hs₅]; exact (hH.hdrs hB512).order)
    (by rw [hbud, min_eq_right (by norm_num), hs₅]; exact (hH.hdrs hB512).order)
    (by rw [hbud, max_eq_left (by norm_num), hs₇]; exact (hH.hdrs hB768).next)
    (by
      rw [hbud, min_eq_right (by norm_num), show buddy 512 (8 + 1) = 0 from rfl, hs₀]
      exact fun h => absurd (show (10 : ℤ) < 10 from h.2) (by decide))
    (by rw [hbud, min_eq_right (by norm_num), max_eq_left (by norm_num)]; decide)
    (Nat.lt_succ_self 1)
  have hp₁ : base + startSize * 0 + sizeofMetadata = 8388648 := by rw [hbase, arenaBase_example]; rfl
  have hp₂ : base + startSize * 512 + sizeofMetadata = 8454184 := by
    rw [hbase, arenaBase_example]; rfl
  have hp₃ : base + startSize * 768 + sizeofMetadata = 8486952 := by
    rw [hbase, arenaBase_example]; rfl
  have hlive : w.live = [8486952] := by rw [hw, hp₃]
  have hstep : Step w (.sfree 8486952) ⟨{ w.st with mem := m, freed := f' }, []⟩ := by
    refine ⟨.inr (by rw [hlive]; simp), settles_call.returns (n := 2) ?_⟩
    rw [call, sfree, ← hp₃, he, Outcome.ret_bind, hlive, hp₃]
    rfl
  rw [hp₁, hp₂] at hrun
  rw [hp₁, hp₂, hp₃] at hl₃
  refine ⟨w₃, _, hrun₃, ?_, hrun.snoc hstep, fun hfr => ?_⟩
  · rw [hl₃]; decide
  · rw [show f' 9 = [] from hfr.rest 9 (by decide)] at hf'
    simp at hf'

end Coalesce

end OsHomework.Malloc3
