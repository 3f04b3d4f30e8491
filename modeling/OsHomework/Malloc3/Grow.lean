import OsHomework.Malloc3.Runs

/-!
# `malloc_3`: growing a block in place

`CheckIfUnionIsPossible` rehearses on copies of two headers what `SreallocUnion` then does.

* `Climbs B size a i K`: from order `i`, the block at `a` reaches order `K`, the first that holds
  `size`, by merging with free right buddies only; `Grows` if `K` is the order of a block;
* `checkLoop_step`, **`checkLoop_true`**: the rehearsal succeeds only along such a path. At a free left buddy it
  restarts from that buddy, and from then on it cannot succeed (`checkLoop_left`). Along such a path it
  does succeed (`checkLoop_of_climbs`);
* **`quiet_of_checkLoop_false`**: if it says no, the buddies that a release would meet are too small to serve
  the request;
* `GrowState`, **`sreallocLoop_spec`**: the merges of `SreallocUnion` along the path, whatever the
  orders of the buddies.
-/

set_option autoImplicit false

namespace OsHomework.Malloc3

open Buddy

/-- The block at `a` grows from order `i` to order `K` into free right buddies. -/
structure Grows (B : Layout) (size a i K : ℕ) : Prop where
  le : i ≤ K
  max : K ≤ maxOrder
  fits : size ≤ payloadSize K
  aligned : 2 ^ K ∣ a
  steps : ∀ l, i ≤ l → l < K → payloadSize l < size ∧ ∃ j < 10, B (a + 2 ^ l) = some ⟨j, true⟩

/-- The same up to the greatest order whose buddies lie in the arena. -/
structure Climbs (B : Layout) (size a i K : ℕ) : Prop where
  le : i ≤ K
  max : K ≤ 14
  fits : size ≤ payloadSize K
  aligned : 2 ^ K ∣ a
  steps : ∀ l, i ≤ l → l < K → payloadSize l < size ∧ ∃ j < 10, B (a + 2 ^ l) = some ⟨j, true⟩

theorem Grows.climbs {B : Layout} {size a i K : ℕ} (h : Grows B size a i K) : Climbs B size a i K :=
  ⟨h.le, h.max.trans (by decide), h.fits, h.aligned, h.steps⟩

theorem Climbs.grows {B : Layout} {size a i K : ℕ} (h : Climbs B size a i K) (hK : K ≤ maxOrder) :
    Grows B size a i K :=
  ⟨h.le, hK, h.fits, h.aligned, h.steps⟩

/-- A request that a block can hold does not take the block beyond the greatest order. -/
theorem Climbs.le_of_fits {B : Layout} {size a i K : ℕ} (h : Climbs B size a i K) (hi : i ≤ maxOrder)
    (hsize : size ≤ payloadSize maxOrder) : K ≤ maxOrder := by
  by_contra hlt
  have := (h.steps maxOrder hi (not_le.mp hlt)).1
  omega

/-- Nor does a block that meets no smaller free buddy; the induction is on the levels. -/
theorem Climbs.le_of_quiet {B : Layout} {size a K : ℕ} : ∀ {n i : ℕ}, i + n = maxOrder →
    Climbs B size a i K → Quiet B n a i → K ≤ maxOrder := by
  intro n
  induction n with
  | zero =>
    intro i hi h hq
    by_contra hlt
    obtain ⟨-, j, hj, hz⟩ := h.steps i le_rfl (by omega)
    have hd : 2 ^ (i + 1) ∣ a := (pow_dvd_pow 2 (by omega)).trans h.aligned
    rw [← buddy_left hd] at hz
    have := hq j hz
    unfold maxOrder at hi
    omega
  | succ n ih =>
    intro i hi h hq
    by_contra hlt
    obtain ⟨-, j, hj, hz⟩ := h.steps i le_rfl (by omega)
    have hd : 2 ^ (i + 1) ∣ a := (pow_dvd_pow 2 (by omega)).trans h.aligned
    have hbud := buddy_left hd
    rw [← hbud] at hz
    obtain rfl : j = i := hq.1 j hz
    have hq' := hq.2 hz
    rw [hbud, min_eq_left (by omega)] at hq'
    exact hlt (ih (by omega) ⟨by omega, h.max, h.fits, h.aligned, fun l h₁ h₂ => h.steps l (by omega) h₂⟩ hq')

section Check

variable {base : ℕ} {s : State} {B : Layout} {a k size : ℕ}

theorem lt_buddy_iff {a i : ℕ} (h : 2 ^ i ∣ a) : a < buddy a i ↔ 2 ^ (i + 1) ∣ a := by
  have hpos := Nat.two_pow_pos i
  constructor
  · intro hlt
    by_contra hc
    have := (buddy_right h hc).1
    omega
  · intro hd
    rw [buddy_left hd]
    omega

theorem slot_lt_iff {x y : ℕ} : base + startSize * x < base + startSize * y ↔ x < y := by
  unfold startSize; omega

theorem blockBytes_succ {i : ℕ} (hi : i ≤ 22) :
    blockBytes ((i : ℤ) + 1) = .ret (startSize * 2 ^ (i + 1)) := by
  have := blockBytes_ofNat (show i + 1 ≤ 23 by omega)
  exact_mod_cast this

/-- **After a free left buddy the rehearsal never succeeds**: it goes on with that buddy as the block,
with orders `t` up to the one it had reached, all of them too small. The header at the right buddy may
be anything. -/
theorem checkLoop_left {i j : ℕ} (hA : Arena base) (h : Repr base s B none) (ha : a < arenaUnits)
    (hi : i ≤ 14) (hdvd : 2 ^ i ∣ a) (hleft : ¬ a < buddy a i) (hj : j ≤ i)
    (hz : B (buddy a i) = some ⟨j, true⟩) (hsize : payloadSize i < size) :
    ∀ {n t : ℕ} {mm bm : MallocMetadata}, j ≤ t → t ≤ i → mm.order = t → mm.size = payloadSize t →
      checkLoop s (base + startSize * a) size n (base + startSize * buddy a i)
        (base + startSize * buddy a t) mm bm ≠ .ret true
  | 0, t, mm, bm, _, _, _, _ => by simp [checkLoop]
  | n + 1, t, mm, bm, hjt, hti, ho, hs => by
    have hts := payloadSize_mono hti
    rw [checkLoop]
    split_ifs with h₁ h₂ h₃
    · simp
    · -- the buddy at a lower level lies to the right
      have hlt : t < i := by
        apply lt_of_le_of_ne hti
        intro e
        subst e
        exact absurd h₃ (lt_irrefl _)
      rw [ho, blockBytes_succ (by omega), Outcome.ret_bind]
      simp only [subSize_payload (show t + 1 ≤ 23 by omega)]
      rw [show ((t : ℤ) + 1) = ((t + 1 : ℕ) : ℤ) by omega, buddyAddr_slot hA ha (by omega),
        Outcome.ret_bind]
      exact checkLoop_left hA h ha hi hdvd hleft hj hz hsize (by omega) (by omega) rfl rfl
    · -- the left buddy itself: start over from its header
      have hti : t = i := by
        by_contra hne
        have hd : 2 ^ (t + 1) ∣ a := (pow_dvd_pow 2 (by omega)).trans hdvd
        have := (lt_buddy_iff ((pow_dvd_pow 2 (by omega)).trans hd)).mpr hd
        exact h₃ (slot_lt_iff.mpr (by omega))
      subst hti
      rcases hb : blockBytes (bm.order + 1) with v | c | _ | _
      · have hHz := h.heap.hdrs hz
        rw [Outcome.ret_bind]
        simp only [hdr_slot, hHz.order]
        rw [buddyAddr_slot hA ha (by omega), Outcome.ret_bind]
        exact checkLoop_left hA h ha hi hdvd hleft hj hz hsize le_rfl hj hHz.order hHz.size
      · simp
      · simp
      · simp
    · rw [hs]
      simp only [ne_eq, Outcome.ret.injEq, decide_eq_true_eq]
      omega

/-- **One turn of a rehearsal that succeeds**: it stops, or goes on past a free right buddy. After a left
one it could not succeed. -/
theorem checkLoop_step {n i : ℕ} {mm : MallocMetadata} (hA : Arena base) (h : Repr base s B none)
    (ha : B a = some ⟨k, false⟩) (hki : k ≤ i) (hi : i ≤ 14) (hdvd : 2 ^ i ∣ a) (ho : mm.order = i)
    (hs : mm.size = payloadSize i)
    (he : checkLoop s (base + startSize * a) size (n + 1) (base + startSize * a)
      (base + startSize * buddy a i) mm (hdr s.mem (base + startSize * buddy a i)) = .ret true) :
    size ≤ payloadSize i ∨ 2 ^ (i + 1) ∣ a ∧ payloadSize i < size ∧
      (∃ j < 10, j ≤ i ∧ B (a + 2 ^ i) = some ⟨j, true⟩) ∧
      ∃ mm' b, mm'.order = ((i + 1 : ℕ) : ℤ) ∧ mm'.size = payloadSize (i + 1) ∧ mm'.cookie = mm.cookie ∧
        buddyAddr (base + startSize * a) ((i + 1 : ℕ) : ℤ) = .ret b ∧
        checkLoop s (base + startSize * a) size n (base + startSize * a) b mm' (hdr s.mem b) = .ret true := by
  have hT := h.heap.tiles
  obtain ⟨⟨j, f⟩, hz, hj⟩ := hT.exists_buddy_of_le (two_pow_dvd_arenaUnits (by omega)) ha hki hdvd
  have hfree : (slots base s.mem (buddy a i)).isFree = f := h.heap.marks hz (by simp)
  have hord : (slots base s.mem (buddy a i)).order = j := (h.heap.hdrs hz).order
  rw [checkLoop] at he
  simp only [hdr_slot, hfree, hord, hs] at he
  split_ifs at he with h₁ h₂ h₃
  · obtain ⟨rfl, hj10, hlt⟩ := h₁
    have hd := (lt_buddy_iff hdvd).mp (slot_lt_iff.mp h₃)
    rw [buddy_left hd] at hz
    rw [ho, blockBytes_succ (by omega), Outcome.ret_bind] at he
    simp only [subSize_payload (show i + 1 ≤ 23 by omega)] at he
    rw [show ((i : ℤ) + 1) = ((i + 1 : ℕ) : ℤ) by omega] at he
    obtain ⟨b, hb, he⟩ := Outcome.bind_eq_ret.mp he
    exact .inr ⟨hd, hlt, ⟨j, by omega, hj, hz⟩, { mm with
      next := (slots base s.mem (buddy a i)).next
      order := ((i + 1 : ℕ) : ℤ)
      size := payloadSize (i + 1) }, b, rfl, rfl, rfl, hb, he⟩
  · -- a free left buddy
    obtain ⟨rfl, hj10, hlt⟩ := h₁
    have hHz := h.heap.hdrs hz
    rcases hb : blockBytes ((j : ℤ) + 1) with v | c | _ | _ <;> rw [hb] at he
    · rw [Outcome.ret_bind, buddyAddr_slot hA (hT.lt ha) (by simp only at hj; omega),
        Outcome.ret_bind] at he
      exact absurd he (checkLoop_left hA h (hT.lt ha) hi hdvd
        (fun hc => h₃ (slot_lt_iff.mpr hc)) hj hz hlt le_rfl hj hord hHz.size)
    · simp at he
    · simp at he
    · simp at he
  · simp only [Outcome.ret.injEq, decide_eq_true_eq] at he
    exact .inl he

/-- **The rehearsal succeeds only by growing to the right.** Either the request fits an order whose buddies
lie in the arena, or the block meets no smaller free buddy; the induction is on the fuel. -/
theorem checkLoop_true (hA : Arena base) (h : Repr base s B none) (ha : B a = some ⟨k, false⟩) :
    ∀ {n i : ℕ} {mm : MallocMetadata}, k ≤ i → i ≤ 14 → 2 ^ i ∣ a → mm.order = i →
      mm.size = payloadSize i → (size ≤ payloadSize 14 ∨ Quiet B (maxOrder - i) a i) →
      checkLoop s (base + startSize * a) size n (base + startSize * a) (base + startSize * buddy a i)
        mm (hdr s.mem (base + startSize * buddy a i)) = .ret true → ∃ K, Climbs B size a i K
  | 0, i, mm, _, _, _, _, _, _, he => by simp [checkLoop] at he
  | n + 1, i, mm, hki, hi, hdvd, ho, hs, hc, he => by
    rcases checkLoop_step hA h ha hki hi hdvd ho hs he with
      hfit | ⟨hd, hlt, ⟨j, hj10, hji, hz⟩, mm', b, ho', hs', -, hb, he⟩
    · exact ⟨i, le_rfl, hi, hfit, hdvd, fun l h₁ h₂ => by omega⟩
    · have hbud := buddy_left hd
      have hzb : B (buddy a i) = some ⟨j, true⟩ := hbud ▸ hz
      -- the buddies stay in the arena
      have hilt : i < 14 := by
        apply lt_of_le_of_ne hi
        intro e
        subst e
        rcases hc with hc | hc
        · omega
        · have := hc j hzb
          omega
      rw [buddyAddr_slot hA (h.heap.tiles.lt ha) (by omega)] at hb
      obtain rfl := Outcome.ret.inj hb
      have hc' : size ≤ payloadSize 14 ∨ Quiet B (maxOrder - (i + 1)) a (i + 1) := by
        apply hc.imp_right
        intro hq
        have hiM : i < maxOrder := by
          by_contra hM
          rw [show maxOrder - i = 0 by omega] at hq
          have := hq j hzb
          unfold maxOrder at hM
          omega
        rw [show maxOrder - i = maxOrder - (i + 1) + 1 by omega] at hq
        have hji := hq.1 j hzb
        have := hq.2 (hji ▸ hzb)
        rwa [hbud, min_eq_left (by omega)] at this
      obtain ⟨K, hK⟩ := checkLoop_true hA h ha (by omega) hilt hd ho' hs' hc' he
      refine ⟨K, by have := hK.le; omega, hK.max, hK.fits, hK.aligned, fun l hl hlK => ?_⟩
      rcases Nat.eq_or_lt_of_le hl with rfl | hl
      · exact ⟨hlt, j, hj10, hz⟩
      · exact hK.steps l hl hlK

theorem checkLoop_right {n i j : ℕ} {mm : MallocMetadata} (hA : Arena base) (h : Repr base s B none)
    (ha : a < arenaUnits) (hi : i < 14) (hd : 2 ^ (i + 1) ∣ a) (hj : j < 10)
    (hz : B (buddy a i) = some ⟨j, true⟩) (ho : mm.order = i) (hs : mm.size < size) (hck : mm.cookie = s.cookie) :
    checkLoop s (base + startSize * a) size (n + 1) (base + startSize * a) (base + startSize * buddy a i) mm
        (hdr s.mem (base + startSize * buddy a i)) =
      checkLoop s (base + startSize * a) size n (base + startSize * a) (base + startSize * buddy a (i + 1))
        { mm with
          next := (hdr s.mem (base + startSize * buddy a i)).next
          order := ((i + 1 : ℕ) : ℤ)
          size := payloadSize (i + 1) }
        (hdr s.mem (base + startSize * buddy a (i + 1))) := by
  have hHz := h.heap.hdrs hz
  have hfree : (slots base s.mem (buddy a i)).isFree = true := h.heap.marks hz (by simp)
  have hlt : a < buddy a i := (lt_buddy_iff ((pow_dvd_pow 2 (by omega)).trans hd)).mpr hd
  rw [checkLoop]
  simp only [hdr_slot, hfree, hHz.order]
  rw [if_pos ⟨trivial, by exact_mod_cast hj, hs⟩, if_neg (by rw [hHz.cookie, hck]; simp),
    if_pos (slot_lt_iff.mpr hlt), ho, blockBytes_succ (by omega), Outcome.ret_bind]
  simp only [subSize_payload (show i + 1 ≤ 23 by omega)]
  rw [show ((i : ℤ) + 1) = ((i + 1 : ℕ) : ℤ) by omega, buddyAddr_slot hA ha (by omega), Outcome.ret_bind,
    hdr_slot]

/-- **Along a path of growth the rehearsal succeeds.** -/
theorem checkLoop_of_climbs {K : ℕ} (hA : Arena base) (h : Repr base s B none)
    (ha : B a = some ⟨k, false⟩) :
    ∀ {n i : ℕ} (mm : MallocMetadata), K < i + n → Climbs B size a i K → mm.order = i →
      mm.size = payloadSize i → mm.cookie = s.cookie →
      checkLoop s (base + startSize * a) size n (base + startSize * a) (base + startSize * buddy a i)
        mm (hdr s.mem (base + startSize * buddy a i)) = .ret true
  | 0, i, mm, hn, hgr, _, _, _ => by have := hgr.le; omega
  | n + 1, i, mm, hn, hgr, ho, hs, hck => by
    have hT := h.heap.tiles
    have hmax : K ≤ 14 := hgr.max
    rcases Nat.eq_or_lt_of_le hgr.le with rfl | hlt
    · have := hgr.fits
      rw [checkLoop, hs, if_neg (by omega), decide_eq_true this]
    · obtain ⟨hsize, j, hj, hz⟩ := hgr.steps i le_rfl hlt
      have hd : 2 ^ (i + 1) ∣ a := (pow_dvd_pow 2 hlt).trans hgr.aligned
      rw [← buddy_left hd] at hz
      rw [checkLoop_right hA h (hT.lt ha) (by omega) hd hj hz ho (hs ▸ hsize) hck]
      refine checkLoop_of_climbs hA h ha _ (by omega)
        ⟨hlt, hgr.max, hgr.fits, hgr.aligned, fun l h₁ h₂ => hgr.steps l (by omega) h₂⟩ ?_ ?_ ?_
      · rfl
      · rfl
      · exact hck

/-- **At a free left buddy of the order reached the rehearsal goes round for ever.** -/
theorem checkLoop_left_equal {i n fake : ℕ} {mm : MallocMetadata} (hA : Arena base)
    (h : Repr base s B none) (ha : a < arenaUnits) (hi : i < 10)
    (hz : B (buddy a i) = some ⟨i, true⟩) (hsize : payloadSize i < size)
    (hfake : ¬ fake < base + startSize * buddy a i) (hs : mm.size < size) (hck : mm.cookie = s.cookie) :
    checkLoop s (base + startSize * a) size n fake (base + startSize * buddy a i) mm
      (hdr s.mem (base + startSize * buddy a i)) = .fuel := by
  have hHz := h.heap.hdrs hz
  have hfree : (slots base s.mem (buddy a i)).isFree = true := h.heap.marks hz (by simp)
  induction n generalizing fake mm with
  | zero => rfl
  | succ n ih =>
    rw [checkLoop]
    simp only [hdr_slot, hfree, hHz.order]
    rw [if_pos ⟨trivial, by exact_mod_cast hi, hs⟩, if_neg (by rw [hHz.cookie, hck]; simp), if_neg hfake,
      blockBytes_succ (by omega), Outcome.ret_bind, buddyAddr_slot hA ha (by omega), Outcome.ret_bind]
    exact ih (lt_irrefl _) (by rw [hHz.size]; exact hsize) hHz.cookie

/-- A rehearsal that says no has found the block too small. -/
theorem lt_of_checkLoop_false {n fake x : ℕ} {mm bm : MallocMetadata}
    (he : checkLoop s a size n fake x mm bm = .ret false) : mm.size < size := by
  cases n with
  | zero => simp [checkLoop] at he
  | succ n =>
    by_contra hlt
    rw [checkLoop, if_neg (fun hc => hlt hc.2.2)] at he
    simp only [Outcome.ret.injEq, decide_eq_false_iff_not] at he
    omega

/-- **What a rehearsal that says no has met is too small for the request.** So if an allocation of this
size leaves the smaller free blocks alone, a release that is quiet after it was quiet before it; the
induction is on the levels. -/
theorem quiet_of_checkLoop_false {B' : Layout} (hA : Arena base) (h : Repr base s B none)
    (ha : B a = some ⟨k, false⟩)
    (hkeep : ∀ {x j : ℕ}, B x = some ⟨j, true⟩ → payloadSize j < size → B' x = some ⟨j, true⟩) :
    ∀ {r n i : ℕ} {mm : MallocMetadata}, i + r = maxOrder → k ≤ i → 2 ^ i ∣ a → mm.order = i →
      mm.size = payloadSize i → mm.cookie = s.cookie →
      checkLoop s (base + startSize * a) size n (base + startSize * a) (base + startSize * buddy a i)
        mm (hdr s.mem (base + startSize * buddy a i)) = .ret false →
      Quiet B' r a i → Quiet B r a i := by
  have hT := h.heap.tiles
  -- the buddy at one level is in the new layout as well
  have hbuddy : ∀ {i j : ℕ}, i ≤ maxOrder → k ≤ i → 2 ^ i ∣ a → payloadSize i < size →
      B (buddy a i) = some ⟨j, true⟩ → B' (buddy a i) = some ⟨j, true⟩ := by
    intro i j hi hki hdvd hsize hz
    obtain ⟨d, hd, hj⟩ := hT.exists_buddy_of_le
      (two_pow_dvd_arenaUnits (by unfold maxOrder at hi; omega)) ha hki hdvd
    obtain rfl := Option.some.inj (hz.symm.trans hd)
    exact hkeep hz ((payloadSize_mono hj).trans_lt hsize)
  intro r
  induction r with
  | zero =>
    intro n i mm hr hki hdvd ho hs hck he hq j hz
    exact hq j (hbuddy (by omega) hki hdvd (hs ▸ lt_of_checkLoop_false he) hz)
  | succ r ih =>
    intro n i mm hr hki hdvd ho hs hck he hq
    have hsize : payloadSize i < size := hs ▸ lt_of_checkLoop_false he
    have hi : i < 10 := by unfold maxOrder at hr; omega
    refine ⟨fun j hz => hq.1 j (hbuddy (by omega) hki hdvd hsize hz), fun hz => ?_⟩
    have hq' := hq.2 (hbuddy (by omega) hki hdvd hsize hz)
    by_cases hd : 2 ^ (i + 1) ∣ a
    · -- a right buddy: the rehearsal goes on with the block one order larger
      have hbud := buddy_left hd
      rw [min_eq_left (by omega)] at hq' ⊢
      cases n with
      | zero => simp [checkLoop] at he
      | succ n =>
        rw [checkLoop_right hA h (hT.lt ha) (by omega) hd hi hz ho (hs ▸ hsize) hck] at he
        refine ih (by omega) (by omega) hd ?_ ?_ ?_ he hq'
        · rfl
        · rfl
        · exact hck
    · -- a left buddy: the rehearsal would not have come to an end
      have hleft : ¬ a < buddy a i := fun hlt => hd ((lt_buddy_iff hdvd).mp hlt)
      rw [checkLoop_left_equal hA h (hT.lt ha) hi hz hsize (fun hlt => hleft (slot_lt_iff.mp hlt))
        (hs ▸ hsize) hck] at he
      cases he

end Check

/-! ## The merges -/

section Merges

variable {base : ℕ} {s : State} {B : Layout} {a k size : ℕ}

/-- **The block at `a` has grown to order `i`** between `s` and `t`. Outside of it the headers have
kept all but `prev`, and every free list has the blocks it had. -/
structure GrowState (base : ℕ) (s t : State) (a i : ℕ) : Prop where
  cookie : t.cookie = s.cookie
  hdrCookie : (slots base t.mem a).cookie = s.cookie
  order : (slots base t.mem a).order = i
  size : (slots base t.mem a).size = payloadSize i
  out : ∀ x, x < a ∨ a + 2 ^ i ≤ x →
    { slots base t.mem x with prev := (slots base s.mem x).prev } = slots base s.mem x
  freed : ∀ x, x < a ∨ a + 2 ^ i ≤ x → ∀ j,
    (base + startSize * x ∈ t.freed j ↔ base + startSize * x ∈ s.freed j)

theorem Repr.growState (h : Repr base s B none) (ha : B a = some ⟨k, false⟩) :
    GrowState base s s a k := by
  have hH := h.heap.hdrs ha
  exact ⟨rfl, hH.cookie, hH.order, hH.size, fun _ _ => rfl, fun _ _ _ => Iff.rfl⟩

theorem GrowState.hdrOk {t : State} {i x : ℕ} {c : Cell} (hg : GrowState base s t a i)
    (h : Repr base s B none) (hx : B x = some c) (hout : x < a ∨ a + 2 ^ i ≤ x) :
    HdrOk base s.cookie x c.order (slots base t.mem x) ∧ (slots base t.mem x).isFree = c.free := by
  have he := hg.out x hout
  refine ⟨(h.heap.hdrs hx).congr he, ?_⟩
  rw [← h.heap.marks hx (by simp), ← he]

/-- **One merge into the right buddy**, whatever the order `j` of the buddy is. -/
theorem GrowState.merge {t : State} {i j b : ℕ} (hA : Arena base) (h : Repr base s B none)
    (ha : B a = some ⟨k, false⟩) (hg : GrowState base s t a i) (hi : i < 15)
    (hb : buddyAddr (base + startSize * a) ((i + 1 : ℕ) : ℤ) = .ret b)
    (hz : B (a + 2 ^ i) = some ⟨j, true⟩) :
    ∃ m f, mergeStep t (base + startSize * a) (base + startSize * (a + 2 ^ i)) =
        .ret ({ t with mem := m, freed := f }, base + startSize * a, b) ∧
      GrowState base s { t with mem := m, freed := f } a (i + 1) ∧ Outside base B t.mem m ∧
      (slots base m a).next = nextAddr base (a + 2 ^ i) j := by
  have hT := h.heap.tiles
  have hpos := Nat.two_pow_pos i
  have hjpos := Nat.two_pow_pos j
  have hpow : 2 ^ (i + 1) = 2 * 2 ^ i := by ring
  obtain ⟨hHz, -⟩ := hg.hdrOk h hz (.inr le_rfl)
  have hmin : min a (a + 2 ^ i) = a := by omega
  have hmax : max a (a + 2 ^ i) = a + 2 ^ i := by omega
  obtain ⟨m, he, hslots, hout⟩ := mergeStep_slots (s := t) (y := a) (z := a + 2 ^ i) (i := i) (j := j)
    (t := j) hA (min_lt_of_left_lt (hT.lt ha)) (by omega) (hg.hdrCookie.trans hg.cookie.symm)
    (hHz.cookie.trans hg.cookie.symm) hHz.order (hT.le_max hz) (by rw [hmin]; exact hg.order)
    hi (by rw [hmin]; exact hb) (by rw [hmax]; exact hHz.next)
  rw [hmin] at he hslots hout
  refine ⟨m, _, he, ⟨hg.cookie, ?_, ?_, ?_, fun x hx => ?_, fun x hx l => ?_⟩,
    fun x hx => hout x (hx a _ ha) (nextAddr_outside hT hz hx), ?_⟩
  · rw [hslots, prevAt_of_ne (by omega), Function.update_self]
    exact hg.hdrCookie
  · rw [hslots, prevAt_of_ne (by omega), Function.update_self]
    rfl
  · rw [hslots, prevAt_of_ne (by omega), Function.update_self]
    rfl
  · have hne : x ≠ a := by omega
    have hp := prevAt_prev (Function.update (slots base t.mem) a
      (mergedHdr (slots base t.mem a) i (nextAddr base (a + 2 ^ i) j))) (a + 2 ^ i + 2 ^ j)
        (base + startSize * a) x
    rw [← hslots, Function.update_of_ne hne] at hp
    rw [← hg.out x (by omega), ← hp]
  · have h₁ : base + startSize * x ≠ base + startSize * a := fun e => by
      have := slot_inj e
      omega
    have h₂ : base + startSize * x ≠ base + startSize * (a + 2 ^ i) := fun e => by
      have := slot_inj e
      omega
    rw [← hg.freed x (by omega) l]
    simp only [Function.update_apply]
    split_ifs with hl
    · rw [hl, List.mem_filter, List.mem_filter, decide_eq_true h₁, decide_eq_true h₂]
      simp only [and_true]
    · exact Iff.rfl
  · rw [hslots, prevAt_of_ne (by omega), Function.update_self]
    rfl

/-- **`SreallocUnion` merges along the path of the rehearsal**; the induction is on its length. -/
theorem sreallocLoop_spec {K : ℕ} (hA : Arena base) (h : Repr base s B none)
    (ha : B a = some ⟨k, false⟩) :
    ∀ {n i : ℕ} {t : State}, k ≤ i → K < i + n → Climbs B size a i K → GrowState base s t a i →
      ∃ m f, sreallocLoop size n t (base + startSize * a) (base + startSize * buddy a i) =
          .ret ({ t with mem := m, freed := f }, base + startSize * a, base + startSize * buddy a K) ∧
        GrowState base s { t with mem := m, freed := f } a K ∧ Outside base B t.mem m
  | 0, i, t, _, hn, hgr, _ => by have := hgr.le; omega
  | n + 1, i, t, hki, hn, hgr, hg => by
    have hT := h.heap.tiles
    rw [sreallocLoop]
    simp only [hdr_slot, hg.size]
    rcases Nat.eq_or_lt_of_le hgr.le with rfl | hlt
    · have := hgr.fits
      rw [if_neg (by omega)]
      exact ⟨t.mem, t.freed, rfl, hg, fun _ _ => rfl⟩
    · obtain ⟨hsize, j, hj, hz⟩ := hgr.steps i le_rfl hlt
      have hd : 2 ^ (i + 1) ∣ a := (pow_dvd_pow 2 hlt).trans hgr.aligned
      obtain ⟨hHz, hfree⟩ := hg.hdrOk h hz (.inr le_rfl)
      have hmax := hgr.max
      obtain ⟨m₁, f₁, he₁, hg₁, ho₁, -⟩ := hg.merge hA h ha (by omega)
        (buddyAddr_slot hA (hT.lt ha) (by omega)) hz
      obtain ⟨m₂, f₂, he₂, hg₂, ho₂⟩ := sreallocLoop_spec hA h ha (show k ≤ i + 1 by omega)
        (show K < i + 1 + n by omega)
        ⟨hlt, hmax, hgr.fits, hgr.aligned, fun l h₁ h₂ => hgr.steps l (by omega) h₂⟩ hg₁
      refine ⟨m₂, f₂, ?_, hg₂, fun x hx => (ho₂ x hx).trans (ho₁ x hx)⟩
      rw [buddy_left hd, if_pos ⟨hfree, by rw [hHz.order]; exact_mod_cast hj, hsize⟩, he₁,
        Outcome.ret_bind]
      exact he₂

end Merges

end OsHomework.Malloc3
