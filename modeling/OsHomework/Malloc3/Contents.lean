import OsHomework.Malloc3.Crossing
import OsHomework.Malloc3.Image

/-!
# `malloc_3`: the contents of a block across `srealloc`

A block keeps its contents where it grows, where it is moved to another block of the arena or to a mapped one,
and whatever is merged when the old block is released. The merge loops go wrong only at the top: they do not
bound the order of the block that grows, so a block of the whole arena is merged with a header outside of it.

* `KeepsContents s p size s' q`: what is expected of a call that returns `q` for `p`;
* `keeps_of_inPlace`, `keeps_of_moved`: the contents survive a call that spares the header across the boundary;
* `inPlace_kept`, `moved_kept`, and with them **`contents_kept`**: they survive unless the headers before the call
  make it merge there;
* `not_keeps_across`: if that header lies below the arena and reads as a free one, the block returned is too
  small.
-/

set_option autoImplicit false

namespace OsHomework.Malloc3

open Buddy

/-- **What is expected of a call `srealloc(p, size)` that returns `q`**: the block of `q` is large enough and
starts with what was in the block of `p`. If `q` is `NULL`, nothing has changed. -/
def KeepsContents (s : State) (p size : ℕ) (s' : State) (q : ℕ) : Prop :=
  (q ≠ 0 → size ≤ payloadLen s' q ∧ ∀ i < payloadLen s p, s'.mem (q + i) = s.mem (p + i)) ∧
    (q = 0 → s' = s)

section Blocks

variable {base : ℕ} {s : State} {B B' : Layout} {L L' : List (ℕ × ℕ)} {a k size : ℕ}

theorem inPayload_slot {i : ℕ} (ha : B a = some ⟨k, false⟩) (hi : i < payloadSize k) :
    InPayload base B L (base + startSize * a + sizeofMetadata + i) := by
  refine .inl ⟨a, _, ha, by omega, ?_⟩
  rw [← payload_end]
  simp only
  omega

theorem Inv.payloadLen_slot (h : Inv base s B L) (ha : B a = some ⟨k, false⟩) :
    payloadLen s (base + startSize * a + sizeofMetadata) = payloadSize k := by
  rw [payloadLen, headerOf_add (h.slot_lt ha)]
  exact (h.repr.heap.hdrs ha).size

/-- The block allocated has no byte of the payload of a block in use. -/
theorem AllocTo.apart {sys : Sys} {q i : ℕ} (hto : AllocTo base B L sys size B' L' q) (h : Inv base s B L)
    (ha : B a = some ⟨k, false⟩) (hi : i < payloadSize k) (hq : q ≠ 0) :
    base + startSize * a + sizeofMetadata + i < q ∨ q + size ≤ base + startSize * a + sizeofMetadata + i := by
  have hT := h.repr.heap.tiles
  have hend : base + startSize * a + sizeofMetadata + payloadSize k = base + startSize * (a + 2 ^ k) :=
    payload_end
  cases hto with
  | null => exact absurd rfl hq
  | @heap k' j b hk ht =>
    by_contra hc
    have hfits := hk.fits
    have hmono := payloadSize_mono ht.le
    have hend' : base + startSize * b + sizeofMetadata + payloadSize j = base + startSize * (b + 2 ^ j) :=
      payload_end
    -- the byte would lie in both blocks
    obtain ⟨u, hu⟩ : ∃ u, u = (startSize * a + sizeofMetadata + i) / startSize := ⟨_, rfl⟩
    have hu' : startSize * u ≤ startSize * a + sizeofMetadata + i ∧
        startSize * a + sizeofMetadata + i < startSize * u + startSize := by
      unfold startSize at *
      omega
    obtain rfl : a = b := hT.cover_unique ha ht.block (u := u) (by unfold startSize at *; omega)
      (by unfold startSize at *; simp only; omega) (by unfold startSize sizeofMetadata at *; omega)
      (by unfold startSize at *; simp only; omega)
    rw [ht.block] at ha
    simp at ha
  | @map addr hmin hf =>
    have := hf.arena
    have := hT.fits ha
    unfold startSize sizeofMetadata at *
    simp only at *
    omega

end Blocks

/-! ## Growing in place -/

section InPlace

variable {base : ℕ} {s s' : State} {B : Layout} {L : List (ℕ × ℕ)} {a k size A : ℕ}

/-- **A block that grows to the whole arena does not stop there**: either it has no free list, or it is merged
with the header across the boundary. -/
theorem sreallocUnion_not_climbsAll (hA : Arena base) (h : Repr base s B none) (ha : B a = some ⟨k, false⟩)
    (hcl : ClimbsAll B a k) (hsize : payloadSize 15 < size) {n : ℕ} (hn : 16 ≤ n)
    (hw : Logged.Within (SparesPeer (peer base 15)) (Merges.sreallocUnion n s (base + startSize * a) size))
    {r : State × ℕ} : sreallocUnion n s (base + startSize * a) size ≠ .ret r := by
  intro hr
  have hT := h.heap.tiles
  have hk : k ≤ 10 := hT.le_max ha
  have hmono := payloadSize_mono (show 14 ≤ 15 by norm_num)
  obtain ⟨m, f, hg, -, -, he⟩ := sreallocLoop_climbsAll hA h ha (hmono.trans_lt hsize)
    (show k + (15 - k) = 15 by omega) hcl (h.growState ha) (by omega)
  have hbud := h.buddyAddr_hdr_peer ha
  have hP : peer base 15 = peer (base + startSize * a) 15 := by
    rw [Nat.eq_zero_of_dvd_of_lt hcl.aligned (hT.lt ha), mul_zero, add_zero]
  obtain ⟨i, rfl⟩ : ∃ i, n = i + 1 + (15 - k) := ⟨n - 1 - (15 - k), by omega⟩
  obtain ⟨hloop, hlog⟩ := he (i + 1)
  rw [Merges.sreallocUnion, hbud, Logged.lift_ret_bind, hP] at hw
  rw [sreallocUnion, hbud, Outcome.ret_bind, hloop] at hr
  obtain ⟨r₁, h₁, h₂⟩ := Outcome.bind_eq_ret.mp hr
  rw [sreallocLoop] at h₁
  split_ifs at h₁ with hgo
  · -- the merge across the boundary
    obtain ⟨r₂, h₃, -⟩ := Outcome.bind_eq_ret.mp h₁
    obtain ⟨e, hmem, hns⟩ := not_sparesPeer_of_mergeStep h₃
    refine hns (hw e (Logged.mem_log_bind.mpr (.inl (hlog ?_))))
    rw [Merges.sreallocLoop, if_pos hgo]
    exact Logged.mem_log_bind.mpr (.inl hmem)
  · obtain rfl := Outcome.ret.inj h₁
    have hord : (slots base (setIsFree m (base + startSize * a) false) a).order = (15 : ℕ) :=
      (order_setIsFree ..).trans hg.order
    simp only [hdr_slot, hord] at h₂
    rw [addToFreeOrder, freedIdx, if_neg (by unfold maxOrder; omega)] at h₂
    cases h₂

/-- A growth that returns, for a request that the arena can hold, ends at an order that has a free list. -/
theorem climbs_of_sreallocUnion (h : Inv base s B L) (ha : B a = some ⟨k, false⟩)
    (hcheck : Returns (fun n => checkIfUnionIsPossible n s (base + startSize * a) size) true)
    (hfit : size ≤ payloadSize 15) {n : ℕ} (hn : 16 ≤ n) {r : State × ℕ}
    (hr : sreallocUnion n s (base + startSize * a) size = .ret r) : ∃ K ≤ maxOrder, Climbs B size a k K := by
  have hT := h.repr.heap.tiles
  have hH := h.repr.heap.hdrs ha
  have hk : k ≤ 10 := hT.le_max ha
  by_cases hsize : size ≤ payloadSize 14
  · obtain ⟨K, hcl⟩ := h.repr.climbs_of_check h.arena ha (.inl hsize) hcheck
    refine ⟨K, ?_, hcl⟩
    by_contra hK
    rw [sreallocUnion_ub h.arena h.repr ha hcl (not_le.mp hK) (by omega)] at hr
    cases hr
  · obtain ⟨n', he⟩ := h.repr.checkLoop_of_check h.arena ha hcheck
    obtain ⟨hcl, -⟩ := checkLoop_climbsAll h.arena h.repr ha (not_le.mp hsize) le_rfl
      (hk.trans (by decide)) (hT.aligned ha) hH.order hH.size hH.cookie he
    rw [sreallocUnion_ub_of_climbsAll h.arena h.repr ha hcl (not_le.mp hsize) hfit (by omega)] at hr
    cases hr

/-- **Growing in place merges across the boundary exactly for a request that does not fit the arena.** -/
theorem sreallocUnion_across_iff (h : Inv base s B L) (ha : B a = some ⟨k, false⟩)
    (hcheck : Returns (fun n => checkIfUnionIsPossible n s (base + startSize * a) size) true) {n : ℕ} (hn : 16 ≤ n)
    {r : State × ℕ} (hr : sreallocUnion n s (base + startSize * a) size = .ret r) :
    (∃ e ∈ (Merges.sreallocUnion n s (base + startSize * a) size).log, ¬ SparesPeer (peer base 15) e) ↔
      payloadSize 15 < size := by
  have hT := h.repr.heap.tiles
  have hH := h.repr.heap.hdrs ha
  have hlt := hT.lt ha
  have hk : k ≤ 10 := hT.le_max ha
  have hmono := payloadSize_mono (show 14 ≤ 15 by norm_num)
  constructor
  · rintro ⟨e, hmem, hns⟩
    by_contra hfit
    obtain ⟨K, hK, hcl⟩ := climbs_of_sreallocUnion h ha hcheck (not_lt.mp hfit) hn hr
    -- the merges are those of the path, and stay in the arena
    have hend := hcl.region_le hlt
    rw [Merges.sreallocUnion_path h.arena h.repr ha (hcl.grows hK) (by unfold maxOrder; omega)] at hmem
    obtain ⟨l, hl, rfl⟩ := List.mem_map.mp hmem
    obtain ⟨h₄, h₅⟩ := List.mem_range'_1.mp hl
    have hpow := two_pow_lt (show l < K by omega)
    exact hns ⟨slot_ne_peer h.arena hlt, slot_ne_peer h.arena (by omega)⟩
  · intro hbig
    obtain ⟨n', he⟩ := h.repr.checkLoop_of_check h.arena ha hcheck
    obtain ⟨hcl, -⟩ := checkLoop_climbsAll h.arena h.repr ha (hmono.trans_lt hbig) le_rfl
      (hk.trans (by decide)) (hT.aligned ha) hH.order hH.size hH.cookie he
    by_contra hno
    push Not at hno
    exact sreallocUnion_not_climbsAll h.arena h.repr ha hcl hbig hn hno hr

/-- **Growing in place** leaves the block where it is, large enough, and writes only to headers. -/
theorem keeps_of_inPlace (h : Inv base s B L) (ha : B a = some ⟨k, false⟩)
    (hcheck : Returns (fun n => checkIfUnionIsPossible n s (base + startSize * a) size) true)
    (hfit : size ≤ payloadSize 15)
    (hr : Returns (fun n => sreallocUnion n s (base + startSize * a) size) (s', A)) :
    A = base + startSize * a ∧ size ≤ (hdr s'.mem (base + startSize * a)).size ∧
      Outside base B s.mem s'.mem := by
  obtain ⟨N, hN⟩ := hr
  have hret := hN (max N 16) (le_max_left _ _)
  beta_reduce at hret
  obtain ⟨K, hK, hcl⟩ := climbs_of_sreallocUnion h ha hcheck hfit (le_max_right _ _) hret
  obtain ⟨m, f, he, hg, ho⟩ := sreallocUnion_spec h.arena h.repr ha (hcl.grows hK)
    (show maxOrder < max N 16 by unfold maxOrder; omega)
  rw [hret] at he
  obtain ⟨rfl, rfl⟩ := Prod.mk.inj (Outcome.ret.inj he)
  refine ⟨rfl, ?_, fun x hx => ?_⟩
  · have hsize : (slots base (setIsFree m (base + startSize * a) false) a).size = payloadSize K :=
      (size_setIsFree ..).trans hg.size
    show size ≤ (slots base (setIsFree m (base + startSize * a) false) a).size
    rw [hsize]
    exact hcl.fits
  · exact (setIsFree_out _ _ _ (hx a _ ha)).trans (ho x hx)

end InPlace

/-! ## Moving -/

section Moved

variable {base : ℕ} {s s' : State} {B : Layout} {L : List (ℕ × ℕ)} {a k size q n : ℕ}

/-- **A block that is moved** arrives with its contents: neither the headers of the new block nor the release
of the old one reach them. -/
theorem keeps_of_moved {sys : Sys} (h : Inv base s B L) (ha : B a = some ⟨k, false⟩)
    (hsize : payloadSize k < size) (hf : maxSize ≤ size → FreshAnswer base L sys size)
    (hn : maxOrder + L.length < n)
    (hw : ∀ s₁ q, malloc sys n s size = .ret (s₁, q) → q ≠ 0 → Logged.Within (SparesPeer (peer base 15))
      (Merges.free n
        { s₁ with mem := s₁.mem.copy q (base + startSize * a + sizeofMetadata) (payloadSize k) }
        (base + startSize * a + sizeofMetadata)))
    (hr : (do
      let (s, addr) ← malloc sys n s size
      if addr = 0 then .ret (s, 0)
      else do
        let s ← free n { s with
          mem := s.mem.copy addr (base + startSize * a + sizeofMetadata) (payloadSize k) }
          (base + startSize * a + sizeofMetadata)
        .ret (s, addr)) = Outcome.ret (s', q)) :
    (q ≠ 0 → size ≤ payloadLen s' q ∧
      ∀ i < payloadSize k, s'.mem (q + i) = s.mem (base + startSize * a + sizeofMetadata + i)) ∧
      (q = 0 → s' = s) := by
  obtain ⟨s₁, B₁, L₁, addr, he₁, hi₁, -, hto, hnull, hframe, -⟩ := malloc_cases sys h hf hn
  rw [he₁, Outcome.ret_bind] at hr
  simp only at hr
  split_ifs at hr with haddr
  · obtain ⟨rfl, rfl⟩ := Prod.mk.inj (Outcome.ret.inj hr)
    exact ⟨fun hne => absurd rfl hne, fun _ => hnull haddr⟩
  obtain ⟨s₂, hfree, hs₂⟩ := Outcome.bind_eq_ret.mp hr
  obtain ⟨rfl, rfl⟩ := Prod.mk.inj (Outcome.ret.inj hs₂)
  refine ⟨fun _ => ?_, fun h₀ => absurd h₀ haddr⟩
  have ha₁ := hto.used h ha
  have hT₁ := hi₁.repr.heap.tiles
  have hi₂ := hto.inv_copy hi₁ haddr (by omega : payloadSize k ≤ size) (base + startSize * a + sizeofMetadata)
  have hmm := (hi₂.repr.heap.hdrs ha₁).isMmap
  have hwithin := hw s₁ addr he₁ haddr
  rw [Merges.free, headerOf_add (h.slot_lt ha), if_pos ⟨by have := h.arena.pos; omega, hmm⟩] at hwithin
  rw [free_eq_union h.arena (hT₁.lt ha₁) hmm] at hfree
  obtain ⟨-, hout, hused⟩ := unionIfPossible_uneven h.arena hi₂.repr ha₁ hwithin hfree
  -- the contents
  have hbytes : ∀ i < payloadSize k,
      s₂.mem (addr + i) = s.mem (base + startSize * a + sizeofMetadata + i) := by
    intro i hi
    have hin := hto.inPayload haddr (show addr ≤ addr + i by omega) (show addr + i < addr + size by omega)
    have hp := hi₁.payload_out (inPayload_slot (L := L₁) ha₁ hi)
    rw [hout _ (hi₁.payload_out hin).1]
    refine (Mem.copy_in hi).trans ?_
    rcases hframe _ hp.1 hp.2 with he | ⟨h₁, h₂, -⟩
    · exact he
    · have := hto.apart h ha hi haddr
      omega
  refine ⟨?_, hbytes⟩
  -- the header of the new block
  cases hto with
  | null => exact absurd rfl haddr
  | @heap k' j b hk ht =>
    have hb₁ : splitTo B b k' (j - k') b = some ⟨k', false⟩ := splitTo_self
    have hne : b ≠ a := by
      rintro rfl
      rw [ht.block] at ha
      simp at ha
    have hsame : (slots base s₂.mem b).size = payloadSize k' :=
      (hused hb₁ rfl hne).size.trans (hi₂.repr.heap.hdrs hb₁).size
    rw [payloadLen, headerOf_add (hi₁.slot_lt hb₁), hdr_slot, hsame]
    exact hk.fits
  | @map addr hmin hfr =>
    have hlt := hi₁.map_lt (r := (addr, size)) (by simp)
    have hh := hi₂.maps.hdrs (r := (addr, size)) (by simp)
    rw [payloadLen, headerOf_add hlt]
    have hsame : hdr s₂.mem addr = _ := hdr_congr fun x h₁ h₂ => hout.out hT₁ (by
      have := hfr.arena
      unfold sizeofMetadata at this
      omega)
    rw [hsame]
    exact hh.size.ge

end Moved

/-! ## Both -/

/-- `srealloc(p, size)` merges with the header across the boundary. -/
def MergesAcross (sys : Sys) (s : State) (p size : ℕ) : Prop :=
  ∃ N, ∀ n, N ≤ n → ∃ e ∈ (Merges.srealloc sys n s p size).log, ¬ SparesPeer (peer s.head 15) e

section Kept

variable {base : ℕ} {s s' : State} {B : Layout} {l : List ℕ} {L : List (ℕ × ℕ)} {A a k q size n : ℕ} {sys : Sys}

theorem srealloc_of_check (h : Inv base s B L) (ha : B a = some ⟨k, false⟩) (h0 : 0 < size)
    (hmax : size ≤ maxSizeToAllocate) (hsize : payloadSize k < size)
    (hc : checkIfUnionIsPossible n s (base + startSize * a) size = .ret true) :
    (srealloc sys n s (base + startSize * a + sizeofMetadata) size = do
      let (s, block) ← sreallocUnion n s (base + startSize * a) size
      let addr := block + sizeofMetadata
      .ret ({ s with mem := s.mem.copy addr (base + startSize * a + sizeofMetadata) (payloadSize k) }, addr)) ∧
    (Merges.srealloc sys n s (base + startSize * a + sizeofMetadata) size).log =
      (Merges.sreallocUnion n s (base + startSize * a) size).log := by
  have hhdr := headerOf_add (h.slot_lt ha)
  have hold : (hdr s.mem (base + startSize * a)).size = payloadSize k := (h.repr.heap.hdrs ha).size
  have hpos := h.arena.pos
  have hv : ¬ (size = 0 ∨ maxSizeToAllocate < size) := by omega
  have hp : base + startSize * a + sizeofMetadata ≠ 0 := by omega
  constructor
  · rw [srealloc, if_neg hv, if_neg hp, sreallocList, hhdr]
    simp only [hold, if_neg (not_le.mpr hsize), hc, Outcome.ret_bind, if_true]
  · rw [Merges.srealloc, if_neg hv, if_neg hp, Merges.sreallocList, hhdr]
    simp only [hold, if_neg (not_le.mpr hsize), hc, Logged.lift_ret_bind, if_true]
    exact Logged.log_bind_silent fun _ => rfl

theorem srealloc_of_not_check (sys : Sys) (h : Inv base s B L) (ha : B a = some ⟨k, false⟩) (h0 : 0 < size)
    (hmax : size ≤ maxSizeToAllocate) (hsize : payloadSize k < size)
    (hc : checkIfUnionIsPossible n s (base + startSize * a) size = .ret false) :
    (srealloc sys n s (base + startSize * a + sizeofMetadata) size = do
      let (s, addr) ← malloc sys n s size
      if addr = 0 then .ret (s, 0)
      else do
        let s ← free n { s with
          mem := s.mem.copy addr (base + startSize * a + sizeofMetadata) (payloadSize k) }
          (base + startSize * a + sizeofMetadata)
        .ret (s, addr)) ∧
    ∀ s₁ q, malloc sys n s size = .ret (s₁, q) → q ≠ 0 →
      (Merges.srealloc sys n s (base + startSize * a + sizeofMetadata) size).log =
        (Merges.free n { s₁ with mem := s₁.mem.copy q (base + startSize * a + sizeofMetadata) (payloadSize k) }
          (base + startSize * a + sizeofMetadata)).log := by
  have hhdr := headerOf_add (h.slot_lt ha)
  have hold : (hdr s.mem (base + startSize * a)).size = payloadSize k := (h.repr.heap.hdrs ha).size
  have hpos := h.arena.pos
  have hv : ¬ (size = 0 ∨ maxSizeToAllocate < size) := by omega
  have hp : base + startSize * a + sizeofMetadata ≠ 0 := by omega
  constructor
  · rw [srealloc, if_neg hv, if_neg hp, sreallocList, hhdr]
    simp only [hold, if_neg (not_le.mpr hsize), hc, Outcome.ret_bind, Bool.false_eq_true, if_false]
  · intro s₁ q he hq
    rw [Merges.srealloc, if_neg hv, if_neg hp, Merges.sreallocList, hhdr]
    simp only [hold, if_neg (not_le.mpr hsize), hc, Logged.lift_ret_bind, Bool.false_eq_true, if_false, he, if_neg hq]
    exact Logged.log_bind_silent fun _ => rfl

/-- A call for more that returns has got an answer from the rehearsal. -/
theorem exists_check (h : Inv base s B L) (ha : B a = some ⟨k, false⟩) (h0 : 0 < size)
    (hmax : size ≤ maxSizeToAllocate) (hsize : payloadSize k < size)
    (hr : Returns (fun n => srealloc sys n s (base + startSize * a + sizeofMetadata) size) (s', q)) :
    ∃ b, Returns (fun n => checkIfUnionIsPossible n s (base + startSize * a) size) b := by
  have hold : (hdr s.mem (base + startSize * a)).size = payloadSize k := (h.repr.heap.hdrs ha).size
  have hpos := h.arena.pos
  obtain ⟨N, hN⟩ := hr
  have hret := hN N le_rfl
  beta_reduce at hret
  rw [srealloc, if_neg (by omega), if_neg (by omega), sreallocList, headerOf_add (h.slot_lt ha)] at hret
  simp only [hold, if_neg (not_le.mpr hsize)] at hret
  obtain ⟨b, hb, -⟩ := Outcome.bind_eq_ret.mp hret
  exact ⟨b, settles_checkIfUnionIsPossible.returns hb⟩

/-- **A call that grows the block in place** keeps the contents if the request fits the arena, and otherwise
merges across the boundary. -/
theorem inPlace_kept (h : Inv base s B L) (ha : B a = some ⟨k, false⟩) (h0 : 0 < size)
    (hmax : size ≤ maxSizeToAllocate) (hsize : payloadSize k < size)
    (hcheck : Returns (fun n => checkIfUnionIsPossible n s (base + startSize * a) size) true)
    (hr : Returns (fun n => srealloc sys n s (base + startSize * a + sizeofMetadata) size) (s', q)) :
    (size ≤ payloadSize 15 → KeepsContents s (base + startSize * a + sizeofMetadata) size s' q) ∧
      (payloadSize 15 < size → MergesAcross sys s (base + startSize * a + sizeofMetadata) size) := by
  have hp : base + startSize * a + sizeofMetadata ≠ 0 := by
    have := h.arena.pos
    omega
  obtain ⟨N, hN⟩ := hr
  obtain ⟨Nc, hc⟩ := hcheck
  beta_reduce at hN hc
  -- from here on the call is the growth
  have hgrow : ∀ n, max N Nc ≤ n → ∃ s₁ A, sreallocUnion n s (base + startSize * a) size = .ret (s₁, A) ∧
      ({ s₁ with mem := s₁.mem.copy (A + sizeofMetadata) (base + startSize * a + sizeofMetadata) (payloadSize k) },
        A + sizeofMetadata) = (s', q) := by
    intro n hn
    have hret := hN n (by omega)
    rw [(srealloc_of_check h ha h0 hmax hsize (hc n (by omega))).1] at hret
    obtain ⟨⟨s₁, A⟩, h₁, h₂⟩ := Outcome.bind_eq_ret.mp hret
    exact ⟨s₁, A, h₁, Outcome.ret.inj h₂⟩
  constructor
  · intro hfit
    obtain ⟨s₁, A, h₁, h₂⟩ := hgrow _ le_rfl
    obtain ⟨rfl, hlarge, hout⟩ := keeps_of_inPlace h ha ⟨Nc, hc⟩ hfit (settles_sreallocUnion.returns h₁)
    simp only [Mem.copy_self] at h₂
    obtain ⟨rfl, rfl⟩ := Prod.mk.inj h₂
    rw [KeepsContents, payloadLen, headerOf_add (h.slot_lt ha), h.payloadLen_slot ha]
    refine ⟨fun _ => ⟨hlarge, fun i hi => ?_⟩, fun h₀ => absurd h₀ hp⟩
    exact hout _ (h.payload_out (inPayload_slot ha hi)).1
  · intro hbig
    refine ⟨max (max N Nc) 16, fun n hn => ?_⟩
    obtain ⟨s₁, A, h₁, -⟩ := hgrow n (by omega)
    rw [(srealloc_of_check h ha h0 hmax hsize (hc n (by omega))).2, h.head]
    exact (sreallocUnion_across_iff h ha ⟨Nc, hc⟩ (by omega) h₁).mpr hbig

/-- **A call that moves the block** keeps the contents if the release does not meet the header across the
boundary, and otherwise merges with it. -/
theorem moved_kept (h : Inv base s B L) (ha : B a = some ⟨k, false⟩) (h0 : 0 < size)
    (hmax : size ≤ maxSizeToAllocate) (hsize : payloadSize k < size)
    (hf : maxSize ≤ size → FreshAnswer base L sys size) (hpages : maxSize ≤ size → Paged L sys)
    (hcheck : Returns (fun n => checkIfUnionIsPossible n s (base + startSize * a) size) false)
    (hserve : CanServe sys s size)
    (hr : Returns (fun n => srealloc sys n s (base + startSize * a + sizeofMetadata) size) (s', q)) :
    ((¬ ∃ l, MeetsPeer (peer base 15) l (freeAt sys s (base + startSize * a + sizeofMetadata) size)
        (base + startSize * a) k) → KeepsContents s (base + startSize * a + sizeofMetadata) size s' q) ∧
      ((∃ l, MeetsPeer (peer base 15) l (freeAt sys s (base + startSize * a + sizeofMetadata) size)
        (base + startSize * a) k) → MergesAcross sys s (base + startSize * a + sizeofMetadata) size) := by
  have hp : base + startSize * a + sizeofMetadata ≠ 0 := by
    have := h.arena.pos
    omega
  obtain ⟨N, hN⟩ := hr
  obtain ⟨Nc, hc⟩ := hcheck
  beta_reduce at hN hc
  -- with enough fuel, the merges of the call are those of the release
  have hlog : ∀ n, max N (max Nc (maxOrder + L.length + 1)) ≤ n →
      ((∃ e ∈ (Merges.srealloc sys n s (base + startSize * a + sizeofMetadata) size).log,
        ¬ SparesPeer (peer base 15) e) ↔ ∃ l, MeetsPeer (peer base 15) l
          (freeAt sys s (base + startSize * a + sizeofMetadata) size) (base + startSize * a) k) := by
    intro n hn
    obtain ⟨s₁, q₁, B₁, he, hq, hready⟩ := exists_ready h ha h0 hsize hmax hf hpages hserve
      (show maxOrder + L.length < n by omega)
    obtain ⟨hcall, hmerges⟩ := srealloc_of_not_check sys h ha h0 hmax hsize (hc n (by omega))
    have hmm := (hready.repr.heap.hdrs hready.block).isMmap
    have hret := hN n (by omega)
    rw [hcall, he, Outcome.ret_bind] at hret
    simp only [if_neg hq] at hret
    obtain ⟨s₂, hfree, -⟩ := Outcome.bind_eq_ret.mp hret
    rw [free_eq_union h.arena (hready.repr.heap.tiles.lt hready.block) hmm] at hfree
    rw [hmerges s₁ q₁ he hq, Merges.free, headerOf_add (h.slot_lt ha), if_pos ⟨hp, hmm⟩]
    exact hready.meets_iff h.arena h.repr.heap.tiles hfree
  constructor
  · intro hno
    obtain ⟨n, hn⟩ : ∃ n, max N (max Nc (maxOrder + L.length + 1)) ≤ n := ⟨_, le_rfl⟩
    have hret := hN n (by omega)
    obtain ⟨hcall, hmerges⟩ := srealloc_of_not_check sys h ha h0 hmax hsize (hc n (by omega))
    rw [hcall] at hret
    rw [KeepsContents, h.payloadLen_slot ha]
    refine keeps_of_moved h ha hsize hf (by omega) (fun s₁ q₁ he hq e hmem => ?_) hret
    by_contra hns
    exact hno ((hlog n hn).mp ⟨e, by rw [hmerges s₁ q₁ he hq]; exact hmem, hns⟩)
  · intro hmeets
    refine ⟨max N (max Nc (maxOrder + L.length + 1)), fun n hn => ?_⟩
    rw [h.head]
    exact (hlog n hn).mpr hmeets

/-- **The contents survive `srealloc`**, wherever the block ends up, unless the call merges with the header at
`head ^ 4 MiB`, which the XOR gives for the buddy of the whole arena; and whether it does can be read off before
the call. -/
theorem contents_kept (h : RIList s l) (hm : Maps s.head s.cookie s.mem s.mmapHead L) (hA : A ∈ l)
    (hused : (hdr s.mem A).isFree = false) (h0 : 0 < size) (hmax : size ≤ maxSizeToAllocate)
    (hf : maxSize ≤ size → FreshAnswer s.head L sys size) (hpages : maxSize ≤ size → Paged L sys)
    (hr : Returns (fun n => srealloc sys n s (A + sizeofMetadata) size) (s', q)) :
    (¬ Crosses sys s (A + sizeofMetadata) size → KeepsContents s (A + sizeofMetadata) size s' q) ∧
      (Crosses sys s (A + sizeofMetadata) size → MergesAcross sys s (A + sizeofMetadata) size) := by
  obtain ⟨a, rfl⟩ := h.exists_slot hA
  have ha : layoutOf s l a = some ⟨_, false⟩ := layoutOf_eq_some.mpr ⟨hA, by rw [← hused]; rfl⟩
  generalize (slots s.head s.mem a).order.toNat = k at ha
  have hi : Inv s.head s (layoutOf s l) L := ⟨h.arena, rfl, h.repr, hm⟩
  have hlen := hi.payloadLen_slot ha
  have hhdr := headerOf_add (hi.slot_lt ha)
  have hH := h.repr.heap.hdrs ha
  have hp : s.head + startSize * a + sizeofMetadata ≠ 0 := by
    have := h.arena.pos
    omega
  have hord : (hdr s.mem (s.head + startSize * a)).order.toNat = k := by
    rw [hdr_slot, hH.order]
    rfl
  rcases Nat.lt_or_ge (payloadSize k) size with hsize | hsize
  swap
  · -- nothing to do
    have hno : ¬ Larger s (s.head + startSize * a + sizeofMetadata) size := fun hl => by
      have := hl.2.2
      omega
    obtain ⟨N, hN⟩ := hr
    have hret := (hN N le_rfl).symm.trans (srealloc_fits sys hp h0.ne' hmax (by rw [hlen]; exact hsize))
    obtain ⟨rfl, rfl⟩ := Prod.mk.inj (Outcome.ret.inj hret)
    refine ⟨fun _ => ⟨fun _ => ⟨by rw [hlen]; exact hsize, fun _ _ => rfl⟩, fun h₀ => absurd h₀ hp⟩, ?_⟩
    rintro (⟨hgr, -⟩ | ⟨hmv, -⟩)
    · exact absurd hgr.1 hno
    · exact absurd hmv.1 hno
  have hlarger : Larger s (s.head + startSize * a + sizeofMetadata) size := ⟨h0, hmax, by rw [hlen]; exact hsize⟩
  obtain ⟨b, hcheck⟩ := exists_check hi ha h0 hmax hsize hr
  cases b with
  | true =>
    have hiff : Crosses sys s (s.head + startSize * a + sizeofMetadata) size ↔ payloadSize 15 < size := by
      rw [Crosses, GrowsInPlace, Moves, hhdr]
      constructor
      · rintro (⟨-, hbig⟩ | ⟨⟨-, hno⟩, -⟩)
        · exact hbig
        · exact absurd (hcheck.unique hno) (by simp)
      · exact fun hbig => .inl ⟨⟨hlarger, hcheck⟩, hbig⟩
    obtain ⟨hkeep, hcross⟩ := inPlace_kept hi ha h0 hmax hsize hcheck hr
    rw [hiff, not_lt]
    exact ⟨hkeep, hcross⟩
  | false =>
    have hiff : Crosses sys s (s.head + startSize * a + sizeofMetadata) size ↔ CanServe sys s size ∧
        ∃ n, MeetsPeer (peer s.head 15) n (freeAt sys s (s.head + startSize * a + sizeofMetadata) size)
          (s.head + startSize * a) k := by
      rw [Crosses, GrowsInPlace, Moves, hhdr, hord]
      constructor
      · rintro (⟨⟨-, hyes⟩, -⟩ | ⟨-, hmeets⟩)
        · exact absurd (hcheck.unique hyes) (by simp)
        · exact hmeets
      · exact fun hmeets => .inr ⟨⟨hlarger, hcheck⟩, hmeets⟩
    rw [hiff]
    by_cases hserve : CanServe sys s size
    · obtain ⟨hkeep, hcross⟩ := moved_kept hi ha h0 hmax hsize hf hpages hcheck hserve hr
      exact ⟨fun hno => hkeep fun hmeets => hno ⟨hserve, hmeets⟩, fun hmeets => hcross hmeets.2⟩
    · -- nothing is allocated, and nothing released
      refine ⟨fun _ => ?_, fun hc => absurd hc.1 hserve⟩
      obtain ⟨N, hN⟩ := hr
      obtain ⟨Nc, hc⟩ := hcheck
      have hret := hN (max N Nc) (le_max_left _ _)
      beta_reduce at hret
      rw [(srealloc_of_not_check sys hi ha h0 hmax hsize (hc _ (le_max_right _ _))).1,
        malloc_of_not_canServe hi hserve, Outcome.ret_bind] at hret
      obtain ⟨rfl, rfl⟩ := Prod.mk.inj (Outcome.ret.inj hret)
      exact ⟨fun h₀ => absurd rfl h₀, fun _ => rfl⟩

end Kept

/-- The only block in use grows from 65000 to 100000 bytes. -/
theorem contents_kept_one_block : ∃ w l s',
    Run Step (start (fun _ => 0) 0 4198400) [.smalloc ⟨true, none⟩ 65000] w ∧ RIList w.st l ∧ 8388608 ∈ l ∧
    Returns (fun n => srealloc ⟨true, none⟩ n w.st 8388648 100000) (s', 8388648) ∧
    ¬ Crosses ⟨true, none⟩ w.st 8388648 100000 ∧ KeepsContents w.st 8388648 100000 s' 8388648 := by
  obtain ⟨w, hrun, -, hi, -, -, hlen⟩ := exists_oneBlock
  obtain ⟨l, hri, hmem⟩ := hi.repr.riList hi.arena hi.head
  have h0 : oneBlock 0 = some ⟨9, false⟩ := splitTo_self
  have hA : 8388608 ∈ l := (hmem _).mpr ⟨0, _, h0, rfl⟩
  have hused : (hdr w.st.mem 8388608).isFree = false := hi.repr.heap.marks h0 (by simp)
  obtain ⟨s', hret, -⟩ := not_freedExact_of_grows ⟨true, none⟩ hi h0 (.inl oneBlock_grows.fits)
    (by rw [firstBlock]; exact oneBlock_growsInPlace hi hlen)
  have hm := hi.maps
  rw [firstBlock] at hret
  rw [← hi.head] at hm
  have hno : ¬ Crosses ⟨true, none⟩ w.st 8388648 100000 := by
    rintro (⟨-, hbig⟩ | ⟨⟨-, hcheck⟩, -⟩)
    · exact absurd hbig (by decide)
    · exact absurd ((oneBlock_growsInPlace hi hlen).2.unique hcheck) (by simp)
  have hsmall : ¬ maxSize ≤ 100000 := by decide
  exact ⟨w, l, s', hrun, hri, hA, hret, hno, (contents_kept hri hm hA hused (by norm_num)
    (by unfold maxSizeToAllocate; norm_num) (fun hbig => absurd hbig hsmall) (fun hbig => absurd hbig hsmall)
    hret).1 hno⟩

/-! ## A header across the boundary -/

section Across

variable {base : ℕ} {s : State} {B : Layout} {L : List (ℕ × ℕ)} {k i size : ℕ}

/-- The header below the arena is the first one of an arena of its own. -/
theorem arena_peer (hA : Arena base) (hlow : peer base 15 < base) (hpos : 0 < peer base 15) :
    Arena (peer base 15) ∧ base = peer base 15 + startSize * arenaUnits := by
  have hend : peer base 15 + startSize * arenaUnits = base := by
    have := peer_boundary hA
    omega
  have hfits := hA.fits
  have hd : 2 ^ 22 ∣ peer base 15 := by
    rw [show peer base 15 = buddy base 22 from peer_eq base 15]
    exact two_pow_dvd_buddy hA.aligned
  exact ⟨⟨hd, hpos, by omega⟩, hend.symm⟩

/-- An address in the upper half, counted from an arena below. -/
theorem nextAddr_shift {P j : ℕ} (hj : j < 14) :
    nextAddr (P + startSize * arenaUnits) (2 ^ 14) j = nextAddr P (arenaUnits + 2 ^ 14) j := by
  have hlt := two_pow_lt hj
  have hlast : 2 ^ 14 + 2 ^ j ≠ arenaUnits := by
    unfold arenaUnits
    omega
  have hne : arenaUnits + 2 ^ 14 + 2 ^ j ≠ arenaUnits := by
    rw [add_assoc]
    exact (Nat.lt_add_of_pos_right (by positivity)).ne'
  rw [nextAddr, nextAddr, if_neg hlast, if_neg hne]
  ring

/-- **A merge with the header below the arena**: that header stays, and takes the order found there, plus one. -/
theorem mergeStep_across {t : State} {P j : ℕ} (hA : Arena P)
    (hc : (hdr t.mem (P + startSize * arenaUnits)).cookie = t.cookie) (hcP : (hdr t.mem P).cookie = t.cookie)
    (ho : (hdr t.mem P).order = i) (hi : i < 10) (hj : j < 14)
    (hn : (hdr t.mem (P + startSize * arenaUnits)).next = nextAddr (P + startSize * arenaUnits) (2 ^ 14) j) :
    ∃ t', mergeStep t (P + startSize * arenaUnits) P = .ret (t', P, P + startSize * 2 ^ (i + 1)) ∧
      (hdr t'.mem P).order = ((i + 1 : ℕ) : ℤ) ∧ (hdr t'.mem P).size = payloadSize (i + 1) ∧
      hdr t'.mem (P + startSize * 2 ^ (i + 1)) = hdr t.mem (P + startSize * 2 ^ (i + 1)) := by
  have hP : P + startSize * 0 = P := by rw [mul_zero, add_zero]
  have hbud : buddy 0 (i + 1) = 2 ^ (i + 1) := by rw [buddy_left (dvd_zero _), zero_add]
  have hmin : min arenaUnits 0 = 0 := Nat.min_zero _
  have hmax : max arenaUnits 0 = arenaUnits := Nat.max_zero _
  obtain ⟨m, he, hslots, -⟩ := mergeStep_slots (s := t) (i := i) (j := i) (y := arenaUnits) (z := 0) (t := j)
    hA (by decide) (by decide) hc (by rw [← hdr_slot, hP]; exact hcP) (by rw [← hdr_slot, hP]; exact ho)
    (by unfold maxOrder; omega) (by rw [hmin, ← hdr_slot, hP]; exact ho) (by omega)
    (by rw [hmin]; exact buddyAddr_slot hA (by decide) (by omega))
    (by rw [hmax, ← hdr_slot, hn, nextAddr_shift hj])
  rw [hmin, hP] at he hslots
  rw [hbud] at he
  -- what follows in the arena above is neither of the two headers looked at
  have hfar : ∀ w, w < arenaUnits → w ≠ arenaUnits + 2 ^ 14 + 2 ^ j := fun w hw => by
    rw [add_assoc]
    exact (hw.trans_le (Nat.le_add_right _ _)).ne
  have h0 : slots P m 0 = mergedHdr (slots P t.mem 0) i (nextAddr P (arenaUnits + 2 ^ 14) j) := by
    rw [hslots, prevAt_of_ne (hfar 0 (by decide)), Function.update_self]
  refine ⟨_, he, ?_, ?_, ?_⟩
  · rw [← hP, hdr_slot, h0]
    rfl
  · rw [← hP, hdr_slot, h0]
    rfl
  · have hlt : 2 ^ (i + 1) < arenaUnits := two_pow_lt (show i + 1 < 15 by omega)
    show slots P m _ = slots P t.mem _
    rw [hslots, prevAt_of_ne (hfar _ hlt), Function.update_of_ne (Nat.two_pow_pos _).ne']

/-- **A block of the whole arena is swallowed by the header below it**, and the block returned has the order
that is found there, plus one. -/
theorem sreallocUnion_across (hA : Arena base) (h : Repr base s B none) (h0 : B 0 = some ⟨k, false⟩)
    (hcl : ClimbsAll B 0 k) (hsize : payloadSize 15 < size) (hlow : peer base 15 < base)
    (hpos : 0 < peer base 15) (hp : Passes s (peer base 15)) (ho : (hdr s.mem (peer base 15)).order = i)
    (hstop : (hdr s.mem (peer base 15 + startSize * 2 ^ (i + 1))).isFree = false) :
    ∃ s', Returns (fun n => sreallocUnion n s base size) (s', peer base 15) ∧
      (hdr s'.mem (peer base 15)).size = payloadSize (i + 1) := by
  obtain ⟨hA', hb⟩ := arena_peer hA hlow hpos
  have hT := h.heap.tiles
  have hi : i < 10 := by
    have := hp.2.1
    omega
  have hk : k ≤ 10 := hT.le_max h0
  have hmono := payloadSize_mono (show 14 ≤ 15 by norm_num)
  obtain ⟨m, f, hg, hout, ⟨j, hz, hnext⟩, he⟩ := sreallocLoop_climbsAll hA h h0 (hmono.trans_lt hsize)
    (show k + (15 - k) = 15 by omega) hcl (h.growState h0) (by omega)
  have hj : j < 10 := by
    obtain ⟨j', hj', hz'⟩ := hcl.steps 14 (by omega) (by norm_num)
    rw [hz] at hz'
    cases hz'
    exact hj'
  have hbud := h.buddyAddr_hdr_peer h0
  rw [mul_zero, add_zero] at he hbud
  rw [zero_add] at hnext
  have hbase : slots base m 0 = hdr m base := by rw [← hdr_slot, mul_zero, add_zero]
  generalize peer base 15 = P at *
  have hroom : P + 131112 ≤ base := by
    rw [hb]
    unfold startSize arenaUnits
    omega
  -- below the arena nothing has changed
  have hbelow : ∀ a, a + 40 ≤ P + 131112 → hdr m a = hdr s.mem a := fun a ha =>
    hdr_congr fun x _ h₂ => hout.out hT (.inl (by omega))
  have hbuddy : P + startSize * 2 ^ (i + 1) + 40 ≤ P + 131112 := by
    have := Nat.pow_le_pow_right (n := 2) (by norm_num) (show i + 1 ≤ 10 by omega)
    unfold startSize
    omega
  have hhdr := hbelow P (by omega)
  obtain ⟨t, hm, hord, hsz, hbud'⟩ := mergeStep_across (t := { s with mem := m, freed := f }) hA'
    (by rw [← hb, ← hbase]; exact hg.hdrCookie) (by rw [hhdr]; exact hp.2.2) (by rw [hhdr]; exact ho) hi
    (show j < 14 by omega) (by rw [← hb, ← hbase]; exact hnext)
  rw [← hb] at hm
  have hloop : sreallocLoop size 2 { s with mem := m, freed := f } base P =
      .ret (t, P, P + startSize * 2 ^ (i + 1)) := by
    have hguard : (hdr m P).isFree = true ∧ (hdr m P).order < 10 ∧ (hdr m base).size < size := by
      rw [hhdr, ← hbase, hg.size]
      exact ⟨hp.1, hp.2.1, hsize⟩
    rw [sreallocLoop, if_pos hguard, hm, Outcome.ret_bind]
    simp only
    rw [sreallocLoop, hbud', if_neg]
    rintro ⟨hfree, -⟩
    rw [hbelow _ hbuddy, hstop] at hfree
    cases hfree
  have hhdr' := hdr_setIsFree t.mem P false
  refine ⟨{ t with
    mem := setIsFree t.mem P false
    freed := Function.update t.freed (i + 1)
      ((t.freed (i + 1)).orderedInsert (· ≤ ·) (P + startSize * 2 ^ (i + 1))) },
    settles_sreallocUnion.returns (n := 2 + (15 - k)) ?_, ?_⟩
  · rw [sreallocUnion, hbud, Outcome.ret_bind, (he 2).1, hloop, Outcome.ret_bind]
    simp only [hhdr', hord, addToFreeOrder_eq (show i + 1 ≤ maxOrder from hi), Outcome.ret_bind]
  · show (hdr (setIsFree t.mem P false) P).size = _
    rw [hhdr']
    exact hsz

/-- **A request that such a header seems to satisfy** gets a block that is too small. -/
theorem not_keeps_across (sys : Sys) (hi : Inv base s B L) (h0 : B 0 = some ⟨k, false⟩) (hcl : ClimbsAll B 0 k)
    (hsize : payloadSize 15 < size) (hmax : size ≤ maxSizeToAllocate) (hlow : peer base 15 < base)
    (hpos : 0 < peer base 15) (hp : Passes s (peer base 15)) (ho : (hdr s.mem (peer base 15)).order = i)
    (hbig : size ≤ (hdr s.mem (peer base 15)).size)
    (hstop : (hdr s.mem (peer base 15 + startSize * 2 ^ (i + 1))).isFree = false) :
    ∃ s', Returns (fun n => srealloc sys n s (base + sizeofMetadata) size) (s', peer base 15 + sizeofMetadata) ∧
      ¬ KeepsContents s (base + sizeofMetadata) size s' (peer base 15 + sizeofMetadata) := by
  have hA := hi.arena
  have hT := hi.repr.heap.tiles
  have hk : k ≤ 10 := hT.le_max h0
  have hi10 : i < 10 := by
    have := hp.2.1
    omega
  have hH := hi.repr.heap.hdrs h0
  have hmono := payloadSize_mono (show 14 ≤ 15 by norm_num)
  have hhdr : headerOf (base + sizeofMetadata) = base := headerOf_add (by have := hA.fits; omega)
  have hslot : hdr s.mem base = slots base s.mem 0 := by rw [← hdr_slot, mul_zero, add_zero]
  have hold : (hdr s.mem base).size = payloadSize k := by
    rw [hslot]
    exact hH.size
  obtain ⟨s₁, hu, hsz⟩ := sreallocUnion_across hA hi.repr h0 hcl hsize hlow hpos hp ho hstop
  -- the rehearsal ends at the header below, which looks large enough
  have hcheck : Returns (fun n => checkIfUnionIsPossible n s base size) true := by
    obtain ⟨mm, hs, hck, he⟩ := checkLoop_of_climbsAll hA hi.repr h0 (hmono.trans_lt hsize)
      (show k + (15 - k) = 15 by omega) hcl hH.order hH.size hH.cookie
    have htop := he 2
    rw [mul_zero, add_zero, checkLoop_back hp hlow.not_gt ho (by omega) hck, checkLoop, if_neg (by omega),
      decide_eq_true hbig] at htop
    refine settles_checkIfUnionIsPossible.returns (n := 2 + (15 - k)) ?_
    rw [checkIfUnionIsPossible, hslot, hH.order, buddyAddr_peer (by simp only; omega), Outcome.ret_bind]
    exact htop
  obtain ⟨N, hN⟩ := hcheck
  obtain ⟨N', hN'⟩ := hu
  beta_reduce at hN hN'
  refine ⟨{ s₁ with
    mem := s₁.mem.copy (peer base 15 + sizeofMetadata) (base + sizeofMetadata) (hdr s.mem base).size },
    ⟨max N N', fun n hn => ?_⟩, ?_⟩
  · beta_reduce
    rw [srealloc, if_neg (by unfold maxSizeToAllocate at *; omega), if_neg (by have := hA.pos; omega), sreallocList,
      hhdr]
    simp only
    rw [if_neg (by have := payloadSize_mono (show k ≤ 15 by omega); omega), hN n (by omega), Outcome.ret_bind,
      if_pos rfl, hN' n (by omega), Outcome.ret_bind]
  · rintro ⟨hkeep, -⟩
    obtain ⟨hlarge, -⟩ := hkeep (by unfold sizeofMetadata; omega)
    rw [payloadLen, headerOf_add (by have := hA.fits; omega)] at hlarge
    have hcopy : hdr (s₁.mem.copy (peer base 15 + sizeofMetadata) (base + sizeofMetadata) (hdr s.mem base).size)
        (peer base 15) = hdr s₁.mem (peer base 15) :=
      hdr_congr fun x _ h₂ => Mem.copy_out (.inl (by unfold sizeofMetadata; omega))
    have := payloadSize_mono (show i + 1 ≤ 15 by omega)
    rw [hcopy, hsz] at hlarge
    omega

end Across

/-- A block of order 10, and halves of which those at powers of two are free: the layout after an allocation of
order 10 and 62 of order 9, when the first, third, seventh, 15th and 31st of the latter are released. -/
def oddHalves : Layout := fun x =>
  if x = 0 then some ⟨10, false⟩
  else if 512 ∣ x ∧ 1024 ≤ x ∧ x < arenaUnits then some ⟨9, decide (x ∈ [1024, 2048, 4096, 8192, 16384])⟩
  else none

theorem oddHalves_eq {x : ℕ} {c : Cell} (h : oddHalves x = some c) : (x = 0 ∧ c = ⟨10, false⟩) ∨
    (512 ∣ x ∧ 1024 ≤ x ∧ x < arenaUnits ∧ c.order = 9) := by
  unfold oddHalves at h
  split_ifs at h with h₁ h₂
  · cases h
    exact .inl ⟨h₁, rfl⟩
  · cases h
    exact .inr ⟨h₂.1, h₂.2.1, h₂.2.2, rfl⟩

theorem tiles_oddHalves : Tiles maxOrder arenaUnits oddHalves := by
  refine ⟨⟨_, rfl⟩, fun {a c} ha => ?_, fun {a c} ha => ?_, fun {a c} ha => ?_, fun {a c} ha hlt => ?_,
    fun {a c u} ha h₁ h₂ => ?_⟩
  · rcases oddHalves_eq ha with ⟨-, rfl⟩ | ⟨-, -, -, hc⟩
    · exact le_rfl
    · rw [hc]
      decide
  · rcases oddHalves_eq ha with ⟨rfl, -⟩ | ⟨hd, -, -, hc⟩
    · exact dvd_zero _
    · rw [hc]
      exact hd
  · rcases oddHalves_eq ha with ⟨rfl, rfl⟩ | ⟨hd, -, hlt, hc⟩
    · decide
    · rw [hc]
      unfold arenaUnits at *
      omega
  · rcases oddHalves_eq ha with ⟨rfl, rfl⟩ | ⟨hd, hle, -, hc⟩
    · exact ⟨⟨9, true⟩, rfl⟩
    · rw [hc] at hlt ⊢
      rw [oddHalves, if_neg (by omega), if_pos ⟨by omega, by omega, hlt⟩]
      exact ⟨_, rfl⟩
  · rcases oddHalves_eq ha with ⟨rfl, rfl⟩ | ⟨hd, hle, -, hc⟩
    · rw [oddHalves, if_neg (by omega), if_neg (by simp only at h₂; omega)]
    · rw [hc] at h₂
      rw [oddHalves, if_neg (by omega), if_neg (by omega)]

/-- What reads as a free header of order 0. -/
def strayHdr : MallocMetadata :=
  { cookie := 1804289383, size := 5000000, isFree := true, isMmap := false, order := 0, next := 0, prev := 0 }

/-- The arena with that layout, and such a header in the memory 4 MiB below it. -/
def strayBelow : State :=
  imageState 12582912 1804289383 oddHalves (setHdr (fun _ => 0) 8388608 strayHdr)

theorem strayBelow_hdr {a : ℕ} (ha : a + 40 ≤ 12582912) :
    hdr strayBelow.mem a = hdr (setHdr (fun _ => 0) 8388608 strayHdr) a :=
  hdr_congr fun x _ h₂ => image_out fun _ _ _ => .inl (by omega)

/-- **The contents are lost across the boundary**: the block of order 10 is to grow to 5000000 bytes, and gets
216. -/
theorem contents_lost : ∃ l s', RIList strayBelow l ∧
    Maps strayBelow.head strayBelow.cookie strayBelow.mem strayBelow.mmapHead [] ∧
    12582912 ∈ l ∧ (hdr strayBelow.mem 12582912).isFree = false ∧
    Returns (fun n => srealloc ⟨true, none⟩ n strayBelow 12582952 5000000) (s', 8388648) ∧
    ¬ KeepsContents strayBelow 12582952 5000000 s' 8388648 := by
  have hA : Arena 12582912 := ⟨by norm_num, by norm_num, by unfold startSize arenaUnits; norm_num⟩
  have hi : Inv 12582912 strayBelow oddHalves [] := inv_imageState hA (by norm_num) tiles_oddHalves
  obtain ⟨l, hri, hmem⟩ := hi.repr.riList hi.arena hi.head
  have h0 : oddHalves 0 = some ⟨10, false⟩ := rfl
  have hcl : ClimbsAll oddHalves 0 10 := by
    refine ⟨dvd_zero _, fun l h₁ h₂ => ⟨9, by norm_num, ?_⟩⟩
    obtain rfl | rfl | rfl | rfl | rfl : l = 10 ∨ l = 11 ∨ l = 12 ∨ l = 13 ∨ l = 14 := by omega
    all_goals rfl
  have hP : peer 12582912 15 = 8388608 := by decide
  have hstray : hdr strayBelow.mem 8388608 = strayHdr := by
    rw [strayBelow_hdr (by norm_num)]
    have hread : slots 8388608 (setHdr (fun _ => 0) (8388608 + startSize * 0) strayHdr) 0 = strayHdr := by
      rw [slots_setHdr, Function.update_self]
      decide
    rwa [← hdr_slot, mul_zero, add_zero] at hread
  have hstop : (hdr strayBelow.mem (8388608 + startSize * 2 ^ (0 + 1))).isFree = false := by
    rw [strayBelow_hdr (by unfold startSize; norm_num), @hdr_congr _ (fun _ => 0) _ fun x h₁ _ =>
      setHdr_out _ _ (.inr (by unfold startSize at h₁; omega))]
    rfl
  have hkeep := not_keeps_across (i := 0) ⟨true, none⟩ hi h0 hcl
    (show payloadSize 15 < 5000000 by unfold payloadSize startSize sizeofMetadata; norm_num)
    (by unfold maxSizeToAllocate; norm_num)
  rw [hP, hstray] at hkeep
  obtain ⟨s', hret, hnot⟩ := hkeep (by norm_num) (by norm_num) ⟨by rw [hstray]; rfl, by rw [hstray]; decide,
    by rw [hstray]; rfl⟩ rfl le_rfl hstop
  refine ⟨l, s', hri, hi.maps, (hmem _).mpr ⟨0, _, h0, rfl⟩, ?_, hret, hnot⟩
  exact hi.repr.heap.marks h0 (by simp)

end OsHomework.Malloc3
