import OsHomework.Malloc3.Realloc

/-!
# `malloc_3`: what a block that grows in place covers

`SreallocUnion` doubles a block into the region of its buddy as soon as the header at the buddy's address
is marked free, whatever the order in that header is. If the region has been split, only its first piece
need be free.

* `Covers m b x`: the byte `x` belongs to the block at `b`;
* `TakesOnlyFree s l A size`: what is expected of a growth in place: every byte gained was free, and no
  other block in use is touched;
* `FreeUpTo s l A K`: no block in use starts in the `2 ^ K` units from `A` on, but for `A` itself;
* **`takes_only_free_iff`**: a block that grows in place takes only free memory exactly if the region it
  grows into has no block in use;
* `grows_over_live_block`: a block that grows over another one in use.
-/

set_option autoImplicit false

namespace OsHomework.Malloc3

open Buddy

/-- The byte `x` belongs to the block at `b`, header included. -/
def Covers (m : Mem) (b x : ℕ) : Prop := b ≤ x ∧ x < b + blockLen m b

/-- **A growth in place takes only free memory**, among the blocks `l`. -/
def TakesOnlyFree (s : State) (l : List ℕ) (A size : ℕ) : Prop :=
  ∃ s' A', Returns (fun n => sreallocUnion n s A size) (s', A') ∧
    (∀ x, Covers s'.mem A' x → ¬ Covers s.mem A x →
      ∃ b ∈ l, (hdr s.mem b).isFree = true ∧ Covers s.mem b x) ∧
    ∀ b ∈ l, b ≠ A → (hdr s.mem b).isFree = false → ∀ x, Covers s.mem b x → ¬ Covers s'.mem A' x

/-- The blocks that start in the `2 ^ K` units from `A` on are free, but for `A` itself. -/
def FreeUpTo (s : State) (l : List ℕ) (A K : ℕ) : Prop :=
  ∀ b ∈ l, A < b → b < A + startSize * 2 ^ K → (hdr s.mem b).isFree = true

section Cover

variable {base : ℕ} {s : State} {l : List ℕ} {A size : ℕ}

/-- The least order that holds the request is reached, unless the block is large enough already. -/
theorem Climbs.eq_or {B : Layout} {a k K K' : ℕ} (hgr : Climbs B size a k K') (hK : LeastOrder size K) :
    (K' = k ∧ K ≤ k) ∨ (K' = K ∧ k < K) := by
  have hle := hK.le_iff.mp hgr.fits
  have hk := hgr.le
  rcases Nat.eq_or_lt_of_le hk with rfl | hlt
  · exact .inl ⟨rfl, hle⟩
  · have hsize := (hgr.steps (K' - 1) (by omega) (by omega)).1
    have : ¬ K ≤ K' - 1 := fun h => absurd (hK.le_iff.mpr h) (by omega)
    exact .inr ⟨by omega, by omega⟩

/-- Every byte of the arena belongs to a block. -/
theorem RIList.exists_covers (h : RIList s l) {x : ℕ} (h₁ : s.head ≤ x)
    (h₂ : x < s.head + startSize * arenaUnits) : ∃ b ∈ l, Covers s.mem b x := by
  have hu : (x - s.head) / startSize < arenaUnits := by
    rw [Nat.div_lt_iff_lt_mul (by decide), mul_comm]
    omega
  obtain ⟨v, c, hv, hle, hlt⟩ := h.tiles.cover hu
  obtain ⟨hmem, -, -, hlen⟩ := h.cell hv
  refine ⟨_, hmem, ?_, ?_⟩
  · have := Nat.div_mul_le_self (x - s.head) startSize
    have := Nat.mul_le_mul_right startSize hle
    rw [mul_comm startSize]
    omega
  · rw [hlen, Nat.add_assoc, ← Nat.mul_add]
    have := (Nat.div_lt_iff_lt_mul (show 0 < startSize by decide)).mp hlt
    rw [mul_comm startSize]
    omega

/-- **Beyond the greatest order `SreallocUnion` does not return**: it writes to `freed[]` outside its
bounds. -/
theorem sreallocUnion_ub {B : Layout} {a k K fuel : ℕ} (hA : Arena base) (h : Repr base s B none)
    (ha : B a = some ⟨k, false⟩) (hcl : Climbs B size a k K) (hK : maxOrder < K) (hfuel : 14 < fuel) :
    sreallocUnion fuel s (base + startSize * a) size = .ub := by
  have hT := h.heap.tiles
  have hk : k ≤ 10 := hT.le_max ha
  have hmax := hcl.max
  obtain ⟨m, f, he, hg, -⟩ := sreallocLoop_spec hA h ha le_rfl (show K < k + fuel by omega) hcl
    (h.growState ha)
  have hord : (slots base (setIsFree m (base + startSize * a) false) a).order = K :=
    (order_setIsFree ..).trans hg.order
  rw [sreallocUnion, h.buddyAddr_hdr hA ha, Outcome.ret_bind, he, Outcome.ret_bind]
  simp only [hdr_slot, hord]
  rw [addToFreeOrder, freedIdx, if_neg (by unfold maxOrder at *; omega)]
  rfl

theorem sreallocUnion_covers {B : Layout} {a k K : ℕ} (hA : Arena base) (h : Repr base s B none)
    (ha : B a = some ⟨k, false⟩) (hgr : Grows B size a k K) :
    ∃ s', Returns (fun n => sreallocUnion n s (base + startSize * a) size) (s', base + startSize * a) ∧
      ∀ x, Covers s'.mem (base + startSize * a) x ↔
        base + startSize * a ≤ x ∧ x < base + startSize * a + startSize * 2 ^ K := by
  obtain ⟨m, f, he, hg, -⟩ := sreallocUnion_spec hA h ha hgr (Nat.lt_succ_self maxOrder)
  refine ⟨_, settles_sreallocUnion.returns he, fun x => ?_⟩
  have hord : (slots base (setIsFree m (base + startSize * a) false) a).order = K :=
    (order_setIsFree ..).trans hg.order
  rw [Covers, blockLen, hdr_slot, hord, Int.toNat_natCast]

theorem FreeUpTo.mono {K K' : ℕ} (h : FreeUpTo s l A K') (hle : K ≤ K') : FreeUpTo s l A K := by
  intro b hb h₁ h₂
  have := Nat.mul_le_mul_left startSize (Nat.pow_le_pow_right (n := 2) (by norm_num) hle)
  exact h b hb h₁ (by omega)

theorem RIList.freeUpTo_self (h : RIList s l) (hA : A ∈ l) :
    FreeUpTo s l A (hdr s.mem A).order.toNat := by
  intro b hb h₁ h₂
  have := h.list.not_inside A hA b hb
  rw [blockLen] at this
  omega

theorem Climbs.region_le {B : Layout} {a k K : ℕ} (hcl : Climbs B size a k K) (ha : a < arenaUnits) :
    a + 2 ^ K ≤ arenaUnits := by
  have := hcl.max
  exact add_le_of_dvd hcl.aligned (two_pow_dvd_arenaUnits (by omega)) ha

/-- Growing into a region without a block in use. -/
theorem takesOnlyFree_of_freeUpTo {a k K : ℕ} (h : RIList s l) (ha : layoutOf s l a = some ⟨k, false⟩)
    (hgr : Grows (layoutOf s l) size a k K) (hfree : FreeUpTo s l (s.head + startSize * a) K) :
    TakesOnlyFree s l (s.head + startSize * a) size := by
  have hmem := (h.cell ha).1
  have hend := hgr.climbs.region_le (h.tiles.lt ha)
  have hpos := Nat.two_pow_pos K
  obtain ⟨s', hr, hcov⟩ := sreallocUnion_covers h.arena h.repr ha hgr
  -- a block with a byte in the region, other than the one that grows, is free
  have key : ∀ b ∈ l, b ≠ s.head + startSize * a → ∀ x, Covers s.mem b x →
      Covers s'.mem (s.head + startSize * a) x → (hdr s.mem b).isFree = true := by
    intro b hb hne x hbx hx
    rw [hcov] at hx
    have hbA : ¬ b < s.head + startSize * a := by
      intro hlt
      have := h.list.not_inside b hb _ hmem
      have := hbx.2
      omega
    have := hbx.1
    exact hfree b hb (by omega) (by omega)
  refine ⟨s', _, hr, fun x hx hold => ?_, fun b hb hne hused x hbx hx => ?_⟩
  · have hx' := (hcov x).mp hx
    obtain ⟨b, hb, hbx⟩ := h.exists_covers (x := x) (by omega) (by unfold startSize at *; omega)
    refine ⟨b, hb, key b hb ?_ x hbx hx, hbx⟩
    rintro rfl
    exact hold hbx
  · rw [key b hb hne x hbx hx] at hused
    cases hused

theorem freeUpTo_of_takesOnlyFree {B : Layout} {a k K : ℕ} (hA : Arena base) (h : Repr base s B none)
    (ha : B a = some ⟨k, false⟩) (hgr : Grows B size a k K)
    (htake : TakesOnlyFree s l (base + startSize * a) size) : FreeUpTo s l (base + startSize * a) K := by
  obtain ⟨s', hr, hcov⟩ := sreallocUnion_covers hA h ha hgr
  obtain ⟨s'', A', hr', -, hlive⟩ := htake
  cases hr'.unique hr
  intro b hb h₁ h₂
  by_contra hused
  refine hlive b hb h₁.ne' (by simpa using hused) b ⟨le_rfl, ?_⟩ ((hcov b).mpr ⟨h₁.le, h₂⟩)
  have := blockLen_pos (m := s.mem) (a := b)
  omega

/-- **A block that grows in place takes only free memory exactly if the region it grows into has no block in
use.** The second part asks that the buddies lie in the arena. -/
theorem takes_only_free_iff {K : ℕ} (h : RIList s l) (hA : A ∈ l) (hused : (hdr s.mem A).isFree = false)
    (hK : LeastOrder size K)
    (hcheck : Returns (fun n => checkIfUnionIsPossible n s A size) true) :
    (K ≤ maxOrder ∧ FreeUpTo s l A K → TakesOnlyFree s l A size) ∧
    (size ≤ payloadSize 14 → TakesOnlyFree s l A size → K ≤ maxOrder ∧ FreeUpTo s l A K) := by
  have hself := h.freeUpTo_self hA
  obtain ⟨a, rfl⟩ := h.exists_slot hA
  rw [hdr_slot] at hself
  have ha : layoutOf s l a = some ⟨_, false⟩ :=
    layoutOf_eq_some.mpr ⟨hA, by rw [← hused]; rfl⟩
  generalize (slots s.head s.mem a).order.toNat = k at ha hself
  have hk : k ≤ maxOrder := h.tiles.le_max ha
  constructor
  · rintro ⟨hKM, hfree⟩
    obtain ⟨K', hgr⟩ := h.repr.grows_of_check h.arena ha (.inl (hK.le_iff.mpr hKM)) hcheck
    apply takesOnlyFree_of_freeUpTo h ha hgr
    rcases hgr.climbs.eq_or hK with ⟨rfl, -⟩ | ⟨rfl, -⟩
    · exact hself
    · exact hfree
  · intro hsize htake
    obtain ⟨K', hcl⟩ := h.repr.climbs_of_check h.arena ha (.inl hsize) hcheck
    by_cases hK' : K' ≤ maxOrder
    · have hfree := freeUpTo_of_takesOnlyFree h.arena h.repr ha (hcl.grows hK') htake
      rcases hcl.eq_or hK with ⟨rfl, hle⟩ | ⟨rfl, -⟩
      · exact ⟨hle.trans hk, hfree.mono hle⟩
      · exact ⟨hK', hfree⟩
    · -- nothing is returned
      obtain ⟨s', A', ⟨N, hN⟩, -⟩ := htake
      have he := hN (max N 15) (le_max_left _ _)
      beta_reduce at he
      rw [sreallocUnion_ub h.arena h.repr ha hcl (not_le.mp hK') (by omega)] at he
      cases he

end Cover

theorem leastOrder_100000 : LeastOrder 100000 10 :=
  leastOrder_succ (by unfold payloadSize startSize sizeofMetadata; norm_num)
    (by unfold payloadSize startSize sizeofMetadata; norm_num)

/-- The only block in use grows into the free half next to it. -/
theorem takes_only_free_iff_one_block : ∃ w l,
    Run Step (start (fun _ => 0) 0 4198400) [.smalloc ⟨true, none⟩ 65000] w ∧ 8388648 ∈ w.live ∧
    RIList w.st l ∧ TakesOnlyFree w.st l 8388608 100000 := by
  obtain ⟨w, l, hrun, hlive, hi, hri, hmem, hA, hused, hcheck⟩ := exists_oneBlock_listed
  refine ⟨w, l, hrun, hlive, hri, ?_⟩
  refine (takes_only_free_iff hri hA hused leastOrder_100000 hcheck).1 ⟨le_rfl, fun b hb h₁ h₂ => ?_⟩
  obtain ⟨v, c, hv, rfl⟩ := (hmem b).mp hb
  have hmark := hi.repr.heap.marks hv (by simp)
  rw [hdr_slot, hmark]
  simp only [oneBlock, splitTo, mark_apply, split_apply] at hv
  split_ifs at hv with hv₀ hv₁
  · unfold startSize at h₁
    omega
  · cases hv
    rfl
  · obtain ⟨i, -, -, rfl⟩ := fresh_eq hv
    rfl

/-- The layout of three blocks whose second one is free. -/
theorem middleFree_grows : Grows (mark threeBlocks 512 8 true) 100000 0 9 10 := by
  refine ⟨by norm_num, le_rfl, ?_, dvd_zero _, fun l h₁ h₂ => ?_⟩
  · exact leastOrder_100000.fits
  · obtain rfl : l = 9 := by omega
    exact ⟨leastOrder_100000.least 9 (by norm_num), 8, by norm_num, rfl⟩

/-- **A block grows over another one in use**: of three blocks of orders 9, 8 and 8 the second is released,
and the first is to grow to 100000 bytes. -/
theorem grows_over_live_block : ∃ w l, Run Step (start (fun _ => 0) 0 4198400)
      [.smalloc ⟨true, none⟩ 65000, .smalloc ⟨true, none⟩ 32000, .smalloc ⟨true, none⟩ 32000,
        .sfree 8454184] w ∧
    RIList w.st l ∧ 8388608 ∈ l ∧ 8388648 ∈ w.live ∧ 8486952 ∈ w.live ∧
    Returns (fun n => checkIfUnionIsPossible n w.st 8388608 100000) true ∧
    ¬ TakesOnlyFree w.st l 8388608 100000 := by
  obtain ⟨w₃, hrun, hi₃, hl₃, -⟩ := exists_threeBlocks (fun _ => 0) boots_example ⟨true, none⟩
  rw [arenaBase_example] at hi₃ hl₃
  have h512 : threeBlocks 512 = some ⟨8, false⟩ := rfl
  obtain ⟨w₄, h₄, hi₄, -, hl₄⟩ := step_sfree hi₃ h512 quiet_threeBlocks (by rw [hl₃]; simp)
  rw [show maxOrder - 8 = 2 from rfl, release_threeBlocks] at hi₄
  have hp : 8388608 + startSize * 512 + sizeofMetadata = 8454184 := by
    unfold startSize sizeofMetadata; norm_num
  have hq : 8388608 + startSize * 768 + sizeofMetadata = 8486952 := by
    unfold startSize sizeofMetadata; norm_num
  rw [hp] at h₄ hl₄
  rw [hp, hq, firstBlock] at hl₃
  obtain ⟨l, hri, hmem⟩ := hi₄.repr.riList hi₄.arena hi₄.head
  have h0 : mark threeBlocks 512 8 true 0 = some ⟨9, false⟩ := rfl
  have h768 : mark threeBlocks 512 8 true 768 = some ⟨8, false⟩ := rfl
  have hA : 8388608 ∈ l := (hmem _).mpr ⟨0, _, h0, rfl⟩
  have hcheck := hi₄.check_of_climbs h0 middleFree_grows.climbs
  have hlive : w₄.live = [8486952, 8388648] := by
    rw [hl₄, hl₃]
    rfl
  refine ⟨w₄, l, hrun.append (.cons h₄ (.nil _)), hri, hA, by rw [hlive]; simp, by rw [hlive]; simp,
    hcheck, fun htake => ?_⟩
  have hfree := freeUpTo_of_takesOnlyFree hi₄.arena hi₄.repr h0 middleFree_grows htake
    (8388608 + startSize * 768) ((hmem _).mpr ⟨768, _, h768, rfl⟩) (slot_lt_iff.mpr (by norm_num))
    (by unfold startSize; norm_num)
  rw [hdr_slot, hi₄.repr.heap.marks h768 (by simp)] at hfree
  cases hfree

end OsHomework.Malloc3
