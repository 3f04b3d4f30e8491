import OsHomework.Malloc3.Sound

/-!
# `malloc_3`: small requests, and the gap below `MAX_SIZE`

* `Cut s s' b k j`: what an allocation of order `k` from the order-`j` block `b` does to the blocks;
* **`small_allocation`**: a request that fits a block of order 10 gets the lowest block of the least order
  that has one, cut down to the least order that holds the request;
* **`served_unless_gap`**: a request is served, if an order-10 block is free and `mmap` succeeds, unless it
  is below `MAX_SIZE` and does not leave room for the header in a block of order 10;
* `CanServe`: what a request needs before the call, `gives_of_canServe`, `malloc_of_not_canServe`;
* `gap_fails`: 131040 bytes are refused by an empty heap.
-/

set_option autoImplicit false

namespace OsHomework.Malloc3

open Buddy

/-! ## Small requests -/

/-- **The block `b` of order `j` is cut down to order `k`**: `l` are the blocks before, `l'` those after.
No other block changes, but for the link back of the block that follows. -/
structure Cut (s s' : State) (l l' : List ℕ) (b k j : ℕ) : Prop where
  blocks : ∀ a, a ∈ l' ↔ a ∈ l ∨ ∃ i, k ≤ i ∧ i < j ∧ a = b + startSize * 2 ^ i
  used : (hdr s'.mem b).order = k ∧ (hdr s'.mem b).isFree = false
  pieces : ∀ i, k ≤ i → i < j → b + startSize * 2 ^ i ∉ l ∧
    (hdr s'.mem (b + startSize * 2 ^ i)).order = i ∧ (hdr s'.mem (b + startSize * 2 ^ i)).isFree = true
  others : ∀ a ∈ l, a ≠ b → { hdr s'.mem a with prev := (hdr s.mem a).prev } = hdr s.mem a
  prevs : ∀ a ∈ l, a ≠ b → a ≠ b + startSize * 2 ^ j → (hdr s'.mem a).prev = (hdr s.mem a).prev
  contents : ∀ x, (∀ a ∈ l', x < a ∨ a + sizeofMetadata ≤ x) → s'.mem x = s.mem x

section Small

variable {base : ℕ} {s s' : State} {B : Layout} {a b k j : ℕ}

theorem HdrOk.eq_of {ck : ℕ} {h h' : MallocMetadata} (hh : HdrOk base ck a k h)
    (hh' : HdrOk base ck a k h') (hfree : h'.isFree = h.isFree) : { h' with prev := h.prev } = h := by
  cases h
  cases h'
  obtain ⟨rfl, rfl, rfl, rfl, rfl⟩ := hh
  obtain ⟨rfl, rfl, rfl, rfl, rfl⟩ := hh'
  cases hfree
  rfl

/-- Inside a block no other one starts. -/
theorem piece_free {M z n i : ℕ} {f : Bool} (h : Tiles M z B) (ha : B a = some ⟨n, f⟩) (hi : i < n) :
    B (a + 2 ^ i) = none := by
  have hpos := Nat.two_pow_pos i
  have hlt := two_pow_lt hi
  apply h.inner ha
  · omega
  · show a + 2 ^ i < a + 2 ^ n
    omega

/-- Every block but the first follows another one. -/
theorem exists_before {M z x : ℕ} {c : Cell} (h : Tiles M z B) (hx : B x = some c) (h0 : 0 < x) :
    ∃ u d, B u = some d ∧ u + 2 ^ d.order = x := by
  have hlt := h.lt hx
  obtain ⟨u, d, hu, h₁, h₂⟩ := h.cover (show x - 1 < z by omega)
  refine ⟨u, d, hu, ?_⟩
  by_contra hne
  rw [h.inner hu (show u < x by omega) (by omega)] at hx
  cases hx

/-- From layouts to blocks. -/
theorem cut_of_repr {l : List ℕ} (hl : ∀ p, p ∈ l ↔ ∃ v c, B v = some c ∧ p = base + startSize * v)
    (h : Repr base s B none) (ha : B a = some ⟨j, true⟩) (hkj : k ≤ j) (hA : Arena base)
    (h' : Repr base s' (splitTo B a k (j - k)) none) (hh : s'.head = base) (hck : s'.cookie = s.cookie)
    (ho : Outside base (splitTo B a k (j - k)) s.mem s'.mem) :
    ∃ l', RIList s' l' ∧ Cut s s' l l' (base + startSize * a) k j := by
  obtain ⟨l', hri, hl'⟩ := h'.riList hA hh
  have haddr : ∀ i, base + startSize * a + startSize * 2 ^ i = base + startSize * (a + 2 ^ i) := by
    intro i
    rw [Nat.mul_add, Nat.add_assoc]
  have hself := splitTo_self (n := j - k) (a := a) (k := k) (B := B)
  have hpiece : ∀ i, k ≤ i → i < j → splitTo B a k (j - k) (a + 2 ^ i) = some ⟨i, true⟩ :=
    fun i h₁ h₂ => splitTo_piece h₁ (by omega)
  -- a block that is not cut is a block of both layouts
  have hkeep : ∀ {u c}, B u = some c → u ≠ a → splitTo B a k (j - k) u = some c := by
    intro u c hu hua
    rw [← hu]
    apply splitTo_other hua
    intro i h₁ h₂ he
    rw [he, piece_free h.heap.tiles ha (show i < j by omega)] at hu
    cases hu
  refine ⟨l', hri, ⟨fun p => ?_, ?_, fun i h₁ h₂ => ?_, fun p hp hne => ?_, fun p hp hne hnx => ?_,
    fun x hx => ?_⟩⟩
  · rw [hl', hl]
    constructor
    · rintro ⟨u, c, hu, rfl⟩
      by_cases hpc : ∃ i, k ≤ i ∧ i < j ∧ u = a + 2 ^ i
      · obtain ⟨i, h₁, h₂, rfl⟩ := hpc
        exact .inr ⟨i, h₁, h₂, (haddr i).symm⟩
      · refine .inl ?_
        by_cases hua : u = a
        · exact ⟨a, _, ha, by rw [hua]⟩
        · rw [splitTo_other hua fun i h₁ h₂ he => hpc ⟨i, h₁, by omega, he⟩] at hu
          exact ⟨u, c, hu, rfl⟩
    · rintro (⟨u, c, hu, rfl⟩ | ⟨i, h₁, h₂, rfl⟩)
      · obtain ⟨d, hd⟩ := splitTo_start (n := j - k) (a := a) (k := k) hu
        exact ⟨u, d, hd, rfl⟩
      · exact ⟨_, _, hpiece i h₁ h₂, haddr i⟩
  · rw [hdr_slot]
    exact ⟨(h'.heap.hdrs hself).order, h'.heap.marks hself (by simp)⟩
  · rw [haddr, hdr_slot]
    refine ⟨fun hmem => ?_, (h'.heap.hdrs (hpiece i h₁ h₂)).order, h'.heap.marks (hpiece i h₁ h₂) (by simp)⟩
    obtain ⟨v, c, hv, heq⟩ := (hl _).mp hmem
    rw [← slot_inj heq, piece_free h.heap.tiles ha h₂] at hv
    cases hv
  · obtain ⟨u, c, hu, rfl⟩ := (hl p).mp hp
    have hua : u ≠ a := fun he => hne (by rw [he])
    have hu' := hkeep hu hua
    have hH' := h'.heap.hdrs hu'
    rw [hck] at hH'
    apply (h.heap.hdrs hu).eq_of hH'
    rw [h.heap.marks hu (by simp), h'.heap.marks hu' (by simp)]
  · obtain ⟨u, c, hu, rfl⟩ := (hl p).mp hp
    rw [hdr_slot, hdr_slot]
    rcases Nat.eq_zero_or_pos u with rfl | hpos
    · rw [h.heap.headPrev, h'.heap.headPrev]
    · obtain ⟨v, d, hv, rfl⟩ := exists_before h.heap.tiles hu hpos
      have hva : v ≠ a := by
        rintro rfl
        rw [ha] at hv
        cases hv
        exact hnx (by rw [Nat.mul_add, Nat.add_assoc])
      have hlt := h.heap.tiles.lt hu
      rw [h.heap.prevs hv hlt, h'.heap.prevs (hkeep hv hva) hlt]
  · apply ho x
    intro u c hu
    exact hx _ ((hl' _).mpr ⟨u, c, hu, rfl⟩)

/-- **A small request.** With `k` the least order that holds it: if no list from `k` on has a block, `malloc`
returns `NULL` and nothing changes; else it returns the lowest block of the first list that has one, cut
down to order `k`. -/
theorem small_allocation (sys : Sys) {size : ℕ} (hs : RI s) (h1 : 1 ≤ size)
    (hmax : size ≤ startSize * 2 ^ maxOrder - sizeofMetadata) :
    ∃ k ≤ maxOrder, LeastOrder size k ∧
      ((∀ i, k ≤ i → i ≤ maxOrder → s.freed i = []) → Returns (fun n => malloc sys n s size) (s, 0)) ∧
      ∀ j b l, k ≤ j → j ≤ maxOrder → (∀ i, k ≤ i → i < j → s.freed i = []) → b ∈ s.freed j →
        (∀ c ∈ s.freed j, b ≤ c) → RIList s l →
        ∃ m f l', Returns (fun n => malloc sys n s size)
            ({ s with mem := m, freed := f }, b + sizeofMetadata) ∧
          RIList { s with mem := m, freed := f } l' ∧
          Cut s { s with mem := m, freed := f } l l' b k j := by
  obtain ⟨k, hk, hleast⟩ := exists_leastOrder (K := maxOrder) hmax
  have hsize : size < maxSize := by
    unfold startSize maxOrder sizeofMetadata at hmax
    unfold maxSize
    omega
  refine ⟨k, hk, hleast, fun hnone => ?_, fun j b l hkj hj hleastj hb hlow hl => ?_⟩
  · obtain ⟨l, hl⟩ := hs
    refine ⟨0, fun n _ => malloc_none sys hl.arena.pos.ne' hl.repr.lists h1 hsize fun j a hfit ha => ?_⟩
    have hj := hl.tiles.le_max ha
    have hmem := (hl.repr.lists.mem_slot hj).mpr ha
    rw [hnone j (hleast.le_iff.mp hfit) hj] at hmem
    cases hmem
  · obtain ⟨a, rfl, ha⟩ := (hl.repr.lists.mem hj b).mp hb
    have ht : Takes (layoutOf s l) k j a := by
      refine ⟨ha, hkj, fun c hc => ?_, fun i c hi hij hc => ?_⟩
      · have := hlow _ ((hl.repr.lists.mem_slot hj).mpr hc)
        unfold startSize at this
        omega
      · have hmem := (hl.repr.lists.mem_slot (by omega)).mpr hc
        rw [hleastj i hi hij] at hmem
        cases hmem
    have hblocks : ∀ p, p ∈ l ↔ ∃ v c, layoutOf s l v = some c ∧ p = s.head + startSize * v := by
      intro p
      constructor
      · intro hp
        obtain ⟨u, rfl⟩ := hl.exists_slot hp
        exact ⟨u, _, layoutOf_eq_some.mpr ⟨hp, rfl⟩, rfl⟩
      · rintro ⟨u, c, hu, rfl⟩
        exact (hl.cell hu).1
    obtain ⟨m, f, he, hr, ho⟩ := malloc_takes sys hl.arena rfl hl.repr h1 hsize hleast ht
      (Nat.lt_succ_self maxOrder)
    obtain ⟨l', hri, hcut⟩ := cut_of_repr hblocks hl.repr ha hkj hl.arena hr rfl rfl ho
    exact ⟨m, f, l', settles_malloc.returns he, hri, hcut⟩

end Small

theorem ri_start : RI (start (fun _ => 0) 0 4198400).st := (wInv_start (fun _ => 0) boots_example).ri

theorem first_lowest : 8388608 ∈ (start (fun _ => 0) 0 4198400).st.freed maxOrder ∧
    ∀ c ∈ (start (fun _ => 0) 0 4198400).st.freed maxOrder, 8388608 ≤ c := by
  have hi := inv_initArena (fun _ => 0) boots_example true
  rw [arenaBase_example] at hi
  refine ⟨(hi.repr.lists.mem_slot (a := 0) le_rfl).mpr (fresh_block (i := 0) (by norm_num)), fun c hc => ?_⟩
  obtain ⟨a, rfl, -⟩ := (hi.repr.lists.mem le_rfl c).mp hc
  omega

/-- 65000 bytes from the fresh arena are the first half of its first block. -/
theorem small_allocation_first : ∃ s', Returns
    (fun n => malloc ⟨true, none⟩ n (start (fun _ => 0) 0 4198400).st 65000) (s', 8388648) ∧ RI s' := by
  obtain ⟨k, -, hk, -, h⟩ := small_allocation ⟨true, none⟩ ri_start (show 0 < 65000 by norm_num)
    (by unfold startSize maxOrder sizeofMetadata; norm_num)
  have hkM : k ≤ maxOrder := hk.le_iff.mp (by unfold payloadSize startSize maxOrder sizeofMetadata; norm_num)
  obtain ⟨l, hl⟩ := ri_start
  have hnone : ∀ i, k ≤ i → i < maxOrder → (start (fun _ => 0) 0 4198400).st.freed i = [] := by
    intro i _ hi
    apply List.eq_nil_iff_forall_not_mem.mpr
    intro c hc
    obtain ⟨a, -, ha⟩ := ((inv_initArena (fun _ => 0) boots_example true).repr.lists.mem hi.le c).mp hc
    exact hi.ne (fresh_order ha)
  obtain ⟨m, f, l', hr, hri, -⟩ := h maxOrder 8388608 l hkM le_rfl hnone first_lowest.1 first_lowest.2 hl
  exact ⟨_, hr, l', hri⟩

/-! ## The gap -/

section Gap

variable {s : State} {L : List (ℕ × ℕ)} {addr size : ℕ} {sys : Sys}

/-- `smalloc(size)` returns a block of at least that size. -/
def Served (sys : Sys) (s : State) (size : ℕ) : Prop :=
  ∃ s' p, Returns (fun n => smalloc sys n s size) (s', p) ∧ p ≠ 0 ∧
    size ≤ (hdr s'.mem (headerOf p)).size

/-- No block holds a request in the gap, whatever is free. -/
theorem not_served_of_gap (hs : RI s) (h₁ : maxSize - sizeofMetadata < size) (h₂ : size < maxSize) :
    ¬ Served sys s size := by
  obtain ⟨l, hl⟩ := hs
  have hnone : Returns (fun n => smalloc sys n s size) (s, 0) := by
    refine ⟨0, fun n _ => malloc_none sys hl.arena.pos.ne' hl.repr.lists (by omega) h₂ fun j a hfit ha => ?_⟩
    have hle := hfit.trans (payloadSize_mono (hl.tiles.le_max ha))
    unfold payloadSize startSize maxOrder sizeofMetadata at hle
    unfold maxSize sizeofMetadata at h₁
    omega
  rintro ⟨s', p, hr, hp, -⟩
  exact hp (congrArg Prod.snd (hr.unique hnone))

/-- `malloc(size)` returns the payload of a block of at least that size. -/
def Gives (sys : Sys) (s : State) (size : ℕ) : Prop :=
  ∃ s' a, Returns (fun n => malloc sys n s size) (s', a + sizeofMetadata) ∧ a < 2 ^ 64 ∧
    size ≤ (hdr s'.mem a).size

theorem Gives.served (h : Gives sys s size) : Served sys s size := by
  obtain ⟨s', a, hr, ha, hle⟩ := h
  refine ⟨s', _, hr, by unfold sizeofMetadata; omega, ?_⟩
  rwa [headerOf_add ha]

theorem gives_small {k : ℕ} (hs : RI s) (hkM : k ≤ maxOrder) (hfit : size ≤ payloadSize k)
    (hfree : s.freed k ≠ []) (h1 : 1 ≤ size) (hlt : size < maxSize) : Gives sys s size := by
  obtain ⟨l, hl⟩ := hs
  obtain ⟨p, hp⟩ := List.exists_mem_of_ne_nil _ hfree
  obtain ⟨a, -, ha⟩ := (hl.repr.lists.mem hkM p).mp hp
  obtain ⟨i, hik, hi⟩ := exists_leastOrder hfit
  obtain ⟨j, b, ht⟩ := exists_takes hik ha
  obtain ⟨m, f, he, hr, -⟩ := malloc_takes sys hl.arena rfl hl.repr h1 hlt hi ht (Nat.lt_succ_self maxOrder)
  have hb : s.head + startSize * b < 2 ^ 64 := by
    have := hl.arena.fits
    have := hl.tiles.lt ht.block
    unfold startSize at *
    omega
  refine ⟨_, _, settles_malloc.returns he, hb, ?_⟩
  rw [hdr_slot, (hr.heap.hdrs splitTo_self).size]
  exact hi.fits

/-- Above the gap the block is mapped. -/
theorem gives_large (hs : RI s) (hm : Maps s.head s.cookie s.mem s.mmapHead L)
    (hsys : sys.mmapAddr = some addr) (hf : Fresh s.head L addr size) (hmin : maxSize ≤ size)
    (hmax : size ≤ maxSizeToAllocate) : Gives sys s size := by
  obtain ⟨l, hl⟩ := hs
  have hi : Inv s.head s (layoutOf s l) L := ⟨hl.arena, rfl, hl.repr, hm⟩
  obtain ⟨m, p, he, hi', -⟩ := malloc_map sys hi hmin hmax hsys hf (Nat.lt_succ_self L.length)
  have hlt : addr < 2 ^ 64 := by
    have := hf.fits
    omega
  refine ⟨_, _, settles_malloc.returns he, hlt, ?_⟩
  rw [(hi'.maps.hdrs (r := (addr, size)) (by simp)).size]

/-- `Malloc` has something to serve the request with: a mapping, or a free block that is large enough. -/
def CanServe (sys : Sys) (s : State) (size : ℕ) : Prop :=
  if maxSize ≤ size then sys.mmapAddr ≠ none else ∃ k ≤ maxOrder, size ≤ payloadSize k ∧ s.freed k ≠ []

theorem gives_of_canServe (hs : RI s) (hm : Maps s.head s.cookie s.mem s.mmapHead L)
    (hf : maxSize ≤ size → FreshAnswer s.head L sys size) (h1 : 1 ≤ size) (hmax : size ≤ maxSizeToAllocate)
    (h : CanServe sys s size) : Gives sys s size := by
  rw [CanServe] at h
  split_ifs at h with hmin
  · obtain ⟨addr, hsys⟩ := Option.ne_none_iff_exists'.mp h
    exact gives_large hs hm hsys (hf hmin addr hsys) hmin hmax
  · obtain ⟨k, hkM, hfit, hfree⟩ := h
    exact gives_small hs hkM hfit hfree h1 (not_le.mp hmin)

theorem malloc_of_not_canServe {base fuel : ℕ} {B : Layout} (h : Inv base s B L)
    (hno : ¬ CanServe sys s size) : malloc sys fuel s size = .ret (s, 0) := by
  by_cases hv : size = 0 ∨ maxSizeToAllocate < size
  · exact malloc_invalid sys h hv
  rw [CanServe] at hno
  split_ifs at hno with hmin
  · rw [malloc, if_neg h.head_ne]
    simp only [if_neg hv, if_pos hmin, not_not.mp hno]
  · apply malloc_null sys h (by omega) (not_le.mp hmin)
    intro j a hfit ha
    have hj : j ≤ maxOrder := h.repr.heap.tiles.le_max ha
    exact hno ⟨j, hj, hfit, List.ne_nil_of_mem ((h.repr.lists.mem_slot hj).mpr ha)⟩

/-- **A request is served exactly if it is not in the gap**: at least `MAX_SIZE`, or with room for the
header below it. -/
theorem served_unless_gap (hs : RI s) (hm : Maps s.head s.cookie s.mem s.mmapHead L)
    (hfree : s.freed maxOrder ≠ []) (hsys : sys.mmapAddr = some addr)
    (hf : maxSize ≤ size → Fresh s.head L addr size) (h1 : 1 ≤ size) (hmax : size ≤ maxSizeToAllocate) :
    Served sys s size ↔ ¬ (maxSize - sizeofMetadata < size ∧ size < maxSize) := by
  constructor
  · intro h hgap
    exact not_served_of_gap hs hgap.1 hgap.2 h
  · intro h
    by_cases hmin : maxSize ≤ size
    · exact (gives_large hs hm hsys (hf hmin) hmin hmax).served
    · have hfit : size ≤ payloadSize maxOrder := by
        unfold maxSize sizeofMetadata at *
        unfold payloadSize startSize maxOrder sizeofMetadata
        omega
      exact (gives_small hs le_rfl hfit hfree h1 (by omega)).served

end Gap

/-- 200000 bytes are mapped, behind the fresh arena. -/
theorem served_unless_gap_mapped :
    Served ⟨true, some 1073741824⟩ (start (fun _ => 0) 0 4198400).st 200000 := by
  have hi := inv_initArena (fun _ => 0) boots_example true
  have hhead : (start (fun _ => 0) 0 4198400).st.head = 8388608 := hi.head.trans arenaBase_example
  refine (served_unless_gap ri_start hi.maps (List.ne_nil_of_mem first_lowest.1) rfl (fun _ => ?_) (by decide)
    (by decide)).mpr (by decide)
  rw [hhead]
  exact ⟨by decide, by decide, by decide, fun r hr => by cases hr⟩

/-- **131040 bytes are refused by the fresh arena**: 32 blocks of order 10 are free, and `mmap` would
succeed. -/
theorem gap_fails : maxOrder = 10 ∧ 8388608 ∈ (start (fun _ => 0) 0 4198400).st.freed maxOrder ∧
    1 ≤ 131040 ∧ 131040 ≤ maxSizeToAllocate ∧
    ¬ Served ⟨true, some 4096⟩ (start (fun _ => 0) 0 4198400).st 131040 :=
  ⟨rfl, first_lowest.1, by norm_num, by decide, not_served_of_gap ri_start (by decide) (by decide)⟩

end OsHomework.Malloc3
