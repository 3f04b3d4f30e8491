import OsHomework.Malloc3.Realloc

/-!
# `malloc_3`: when the rehearsal of `srealloc` does not end

At a free left buddy `CheckIfUnionIsPossible` goes on with the header of that buddy, but computes the
next buddy from the address it was called with. So it climbs the same buddies again, up to the same left
buddy.

* `peer A i`: the address of the buddy of `A` at order `i`; `Passes s x`: the loop goes on at `x`;
* `checkLoop_up`, `checkLoop_back`, `checkLoop_stop`: what one turn of the loop does;
* `Spins s A size k t`: the rehearsal meets a free left buddy at order `t` and comes back to it;
* **`check_ends_iff`**: the rehearsal ends exactly if there is no such `t`;
* `check_spins`: four calls after which it does not end.
-/

set_option autoImplicit false

namespace OsHomework.Malloc3

open Buddy

/-- The address of the buddy of `A` at order `i`. -/
def peer (A i : ℕ) : ℕ := A ^^^ (startSize * 2 ^ i)

/-- The header at `x` is free, of an order below 10, and has the cookie. -/
def Passes (s : State) (x : ℕ) : Prop :=
  (hdr s.mem x).isFree = true ∧ (hdr s.mem x).order < 10 ∧ (hdr s.mem x).cookie = s.cookie

/-- **The rehearsal comes back to the left buddy of `A` at order `t`.** From the order `k` of the block on,
the right buddies pass and are too small; then comes a left buddy that passes. What is read at the orders
below `k` lies in the payload of the block itself. -/
structure Spins (s : State) (A size k t : ℕ) : Prop where
  le : k ≤ t
  lt : t < 24
  right : ∀ i, k ≤ i → i < t → Passes s (peer A i) ∧ A < peer A i
  left : peer A t < A
  passes : Passes s (peer A t)
  small : payloadSize t < size
  small_left : (hdr s.mem (peer A t)).size < size
  order : 0 ≤ (hdr s.mem (peer A t)).order
  inside : ∀ o : ℕ, (hdr s.mem (peer A t)).order ≤ o → o < k → Passes s (peer A o)

/-! ## One turn of the loop -/

section Turn

variable {s : State} {A size n o fake : ℕ} {mm : MallocMetadata}

theorem buddyAddr_peer {i : ℕ} (hi : i < 24) : buddyAddr A (i : ℤ) = .ret (peer A i) := by
  rw [buddyAddr, blockBytes_ofNat (by omega), Outcome.ret_bind, peer]

/-- The header a copy has after growing to order `o + 1`. -/
def grownCopy (s : State) (mm : MallocMetadata) (A o : ℕ) : MallocMetadata :=
  { mm with next := (hdr s.mem (peer A o)).next, order := ((o + 1 : ℕ) : ℤ), size := payloadSize (o + 1) }

theorem checkLoop_up (ho : o + 1 < 24) (hp : Passes s (peer A o)) (hlt : fake < peer A o)
    (hord : mm.order = o) (hsize : mm.size < size) (hck : mm.cookie = s.cookie) :
    checkLoop s A size (n + 1) fake (peer A o) mm (hdr s.mem (peer A o)) =
      checkLoop s A size n fake (peer A (o + 1)) (grownCopy s mm A o) (hdr s.mem (peer A (o + 1))) := by
  rw [checkLoop, if_pos ⟨hp.1, hp.2.1, hsize⟩, if_neg (by rw [hp.2.2, hck]; simp), if_pos hlt, hord,
    blockBytes_succ (by omega), Outcome.ret_bind]
  simp only [subSize_payload (show o + 1 ≤ 23 by omega)]
  rw [show ((o : ℤ) + 1) = ((o + 1 : ℕ) : ℤ) by omega, buddyAddr_peer ho, Outcome.ret_bind]
  rfl

/-- A left buddy that passes, of order `f`: the loop goes on with its header. -/
theorem checkLoop_back {f : ℕ} (hp : Passes s (peer A o)) (hlt : ¬ fake < peer A o)
    (hf : (hdr s.mem (peer A o)).order = f) (hsize : mm.size < size) (hck : mm.cookie = s.cookie) :
    checkLoop s A size (n + 1) fake (peer A o) mm (hdr s.mem (peer A o)) =
      checkLoop s A size n (peer A o) (peer A f) (hdr s.mem (peer A o)) (hdr s.mem (peer A f)) := by
  have hf10 : (f : ℤ) < 10 := by rw [← hf]; exact hp.2.1
  rw [checkLoop, if_pos ⟨hp.1, hp.2.1, hsize⟩, if_neg (by rw [hp.2.2, hck]; simp), if_neg hlt]
  simp only [hf]
  rw [blockBytes_succ (by omega), Outcome.ret_bind, buddyAddr_peer (by omega), Outcome.ret_bind]

theorem checkLoop_stop {x : ℕ} (h : ¬ Passes s x ∨ size ≤ mm.size) :
    checkLoop s A size (n + 1) fake x mm (hdr s.mem x) ≠ .fuel := by
  rw [checkLoop]
  by_cases hgo : (hdr s.mem x).isFree = true ∧ (hdr s.mem x).order < 10 ∧ mm.size < size
  · have hnp : (hdr s.mem x).cookie ≠ s.cookie := by
      intro hc
      rcases h with h | h
      · exact h ⟨hgo.1, hgo.2.1, hc⟩
      · omega
    rw [if_pos hgo, if_pos (.inl hnp)]
    simp
  · rw [if_neg hgo]
    simp

/-- At order 24 the size of the copy overflows. -/
theorem checkLoop_overflow (hlt : fake < peer A o) (hord : mm.order = 23) :
    checkLoop s A size (n + 1) fake (peer A o) mm (hdr s.mem (peer A o)) ≠ .fuel := by
  have hub : blockBytes ((23 : ℤ) + 1) = .ub := by simp [blockBytes, pow2, startSize]
  rw [checkLoop, hord, hub, if_pos hlt]
  split_ifs <;> simp

/-- A left buddy with a negative order has no buddy address. -/
theorem checkLoop_negative (hlt : ¬ fake < peer A o) (hneg : (hdr s.mem (peer A o)).order < 0) :
    checkLoop s A size (n + 1) fake (peer A o) mm (hdr s.mem (peer A o)) ≠ .fuel := by
  have hub : buddyAddr A (hdr s.mem (peer A o)).order = .ub := by
    rw [buddyAddr, blockBytes, pow2, if_neg (by omega)]
    rfl
  rw [checkLoop, if_neg hlt]
  split_ifs
  · simp
  · rcases hb : blockBytes ((hdr s.mem (peer A o)).order + 1) with v | c | _ | _
    · rw [Outcome.ret_bind]
      simp only [hub, Outcome.ub_bind, ne_eq, reduceCtorEq, not_false_eq_true]
    · simp
    · simp
    · -- no size takes fuel to compute
      rw [blockBytes, pow2] at hb
      split_ifs at hb
      · rw [Outcome.ret_bind] at hb
        split_ifs at hb
      · cases hb
  · simp

end Turn

/-! ## Where the buddies lie -/

section Peers

variable {A i t : ℕ}

theorem peer_eq (A i : ℕ) : peer A i = buddy A (i + 7) := by
  rw [peer, buddy, startSize, pow_add, mul_comm]
  rfl

theorem peer_ne (A i : ℕ) : peer A i ≠ A := by
  rw [peer_eq]
  exact buddy_ne A (i + 7)

theorem lt_peer_iff (h : 2 ^ (i + 7) ∣ A) : A < peer A i ↔ 2 ^ (i + 1 + 7) ∣ A := by
  rw [peer_eq, lt_buddy_iff h, show i + 7 + 1 = i + 1 + 7 by omega]

/-- Below the order of the first left buddy all buddies are to the right. -/
theorem lt_peer_of_dvd (h : 2 ^ (t + 7) ∣ A) (hi : i < t) : A < peer A i := by
  have hd : 2 ^ (i + 1 + 7) ∣ A := (pow_dvd_pow 2 (by omega)).trans h
  exact (lt_peer_iff ((pow_dvd_pow 2 (by omega)).trans hd)).mpr hd

theorem dvd_of_right {k : ℕ} (hk : 2 ^ (k + 7) ∣ A) (hkt : k ≤ t)
    (hr : ∀ i, k ≤ i → i < t → A < peer A i) : 2 ^ (t + 7) ∣ A := by
  induction t, hkt using Nat.le_induction with
  | base => exact hk
  | succ t hkt ih =>
    have hd := ih fun i h₁ h₂ => hr i h₁ (by omega)
    exact (lt_peer_iff hd).mp (hr t hkt (Nat.lt_succ_self t))

end Peers

/-! ## Going round -/

section Round

variable {s : State} {A size k t f : ℕ}

/-- **From the left buddy back to the left buddy**, by induction on the fuel. -/
theorem Spins.left_fuel (h : Spins s A size k t) (hd : 2 ^ (t + 7) ∣ A)
    (hf : (hdr s.mem (peer A t)).order = f) (hft : f ≤ t) (n : ℕ) : ∀ {o : ℕ} (mm : MallocMetadata),
      f ≤ o → o ≤ t → mm.order = o → mm.size < size → mm.cookie = s.cookie →
      checkLoop s A size n (peer A t) (peer A o) mm (hdr s.mem (peer A o)) = .fuel := by
  induction n with
  | zero => exact fun _ _ _ _ _ _ => rfl
  | succ n ih =>
    intro o mm hfo hot hord hsize hck
    have ht := h.lt
    rcases Nat.eq_or_lt_of_le hot with rfl | hlt
    · rw [checkLoop_back h.passes (lt_irrefl _) hf hsize hck]
      exact ih _ le_rfl hft hf h.small_left h.passes.2.2
    · have hp : Passes s (peer A o) := by
        by_cases hok : o < k
        · exact h.inside o (by omega) hok
        · exact (h.right o (by omega) hlt).1
      rw [checkLoop_up (by omega) hp (h.left.trans (lt_peer_of_dvd hd hlt)) hord hsize hck]
      apply ih (grownCopy s mm A o) (show f ≤ o + 1 by omega) hlt rfl _ hck
      exact (payloadSize_mono hlt).trans_lt h.small

/-- **From the block itself up to the left buddy.** -/
theorem Spins.right_fuel (h : Spins s A size k t) (hd : 2 ^ (t + 7) ∣ A)
    (hf : (hdr s.mem (peer A t)).order = f) (hft : f ≤ t) (n : ℕ) : ∀ {i : ℕ} {mm : MallocMetadata},
      k ≤ i → i ≤ t → mm.order = i → mm.size = payloadSize i → mm.cookie = s.cookie →
      checkLoop s A size n A (peer A i) mm (hdr s.mem (peer A i)) = .fuel := by
  induction n with
  | zero => exact fun _ _ _ _ _ => rfl
  | succ n ih =>
    intro i mm hki hit hord hsize hck
    have ht := h.lt
    have hlt : mm.size < size := by
      rw [hsize]
      exact (payloadSize_mono hit).trans_lt h.small
    rcases Nat.eq_or_lt_of_le hit with rfl | hit
    · rw [checkLoop_back h.passes h.left.not_gt hf hlt hck]
      exact h.left_fuel hd hf hft n _ le_rfl hft hf h.small_left h.passes.2.2
    · obtain ⟨hp, hr⟩ := h.right i hki hit
      rw [checkLoop_up (by omega) hp hr hord hlt hck]
      exact ih (by omega) hit rfl rfl hck

end Round

/-! ## Coming to an end -/

section Ends

variable {s : State} {A size k t f : ℕ}

theorem left_ends (hd : 2 ^ (t + 7) ∣ A) (ht : t < 24) (hleft : peer A t < A) {o' : ℕ}
    (ho' : o' < t) (hno : ¬ Passes s (peer A o')) : ∀ {j o : ℕ} (mm : MallocMetadata), o + j = o' →
      mm.order = o → mm.cookie = s.cookie →
      ∃ n, checkLoop s A size n (peer A t) (peer A o) mm (hdr s.mem (peer A o)) ≠ .fuel := by
  intro j
  induction j with
  | zero =>
    rintro o mm rfl _ _
    exact ⟨1, checkLoop_stop (.inl hno)⟩
  | succ j ih =>
    intro o mm hj hord hck
    by_cases hgo : Passes s (peer A o) ∧ mm.size < size
    · obtain ⟨n, hn⟩ := ih (grownCopy s mm A o) (show o + 1 + j = o' by omega) rfl hck
      refine ⟨n + 1, ?_⟩
      rwa [checkLoop_up (by omega) hgo.1 (hleft.trans (lt_peer_of_dvd hd (by omega))) hord hgo.2 hck]
    · refine ⟨1, checkLoop_stop ?_⟩
      by_cases hp : Passes s (peer A o)
      · exact .inr (not_lt.mp fun hlt => hgo ⟨hp, hlt⟩)
      · exact .inl hp

/-- At a left buddy that passes, the loop ends unless it comes back to it. -/
theorem back_ends {mm : MallocMetadata} (hk : 2 ^ (k + 7) ∣ A) (hkt : k ≤ t) (ht : t < 24)
    (hno : ¬ Spins s A size k t) (hr : ∀ l, k ≤ l → l < t → Passes s (peer A l) ∧ A < peer A l)
    (hleft : peer A t < A) (hp : Passes s (peer A t)) (hsmall : payloadSize t < size)
    (hsize : mm.size < size) (hck : mm.cookie = s.cookie) :
    ∃ n, checkLoop s A size n A (peer A t) mm (hdr s.mem (peer A t)) ≠ .fuel := by
  by_cases hneg : (hdr s.mem (peer A t)).order < 0
  · exact ⟨1, checkLoop_negative hleft.not_gt hneg⟩
  obtain ⟨f, hf⟩ := Int.eq_ofNat_of_zero_le (not_lt.mp hneg)
  have hd := dvd_of_right hk hkt fun i h₁ h₂ => (hr i h₁ h₂).2
  suffices hends : ∃ n, checkLoop s A size n (peer A t) (peer A f) (hdr s.mem (peer A t))
      (hdr s.mem (peer A f)) ≠ .fuel by
    obtain ⟨n, hn⟩ := hends
    refine ⟨n + 1, ?_⟩
    rwa [checkLoop_back hp hleft.not_gt hf hsize hck]
  by_cases hbig : size ≤ (hdr s.mem (peer A t)).size
  · exact ⟨1, checkLoop_stop (.inr hbig)⟩
  · -- so one of the buddies inside the block does not pass
    have hin : ∃ o, f ≤ o ∧ o < k ∧ ¬ Passes s (peer A o) := by
      by_contra hc
      push Not at hc
      exact hno ⟨hkt, ht, hr, hleft, hp, hsmall, not_le.mp hbig, not_lt.mp hneg,
        fun o h₁ h₂ => hc o (by omega) h₂⟩
    obtain ⟨o, hfo, hok, ho⟩ := hin
    exact left_ends hd ht hleft (show o < t by omega) ho _ (Nat.add_sub_cancel' hfo) hf hp.2.2

/-- One turn at order `t`: the loop ends if it does so after a right buddy that passes. -/
theorem turn_ends {mm : MallocMetadata} (hk : 2 ^ (k + 7) ∣ A) (hkt : k ≤ t) (ht : t < 24)
    (hno : ¬ Spins s A size k t) (hr : ∀ l, k ≤ l → l < t → Passes s (peer A l) ∧ A < peer A l)
    (hs : mm.size = payloadSize t) (hck : mm.cookie = s.cookie)
    (hnext : Passes s (peer A t) → mm.size < size → A < peer A t →
      ∃ n, checkLoop s A size n A (peer A t) mm (hdr s.mem (peer A t)) ≠ .fuel) :
    ∃ n, checkLoop s A size n A (peer A t) mm (hdr s.mem (peer A t)) ≠ .fuel := by
  by_cases hgo : Passes s (peer A t) ∧ mm.size < size
  · rcases Nat.lt_or_gt_of_ne (peer_ne A t) with hleft | hright
    · exact back_ends hk hkt ht hno hr hleft hgo.1 (hs ▸ hgo.2) hgo.2 hck
    · exact hnext hgo.1 hgo.2 hright
  · exact ⟨1, checkLoop_stop (not_and_or.mp hgo |>.imp_right not_lt.mp)⟩

/-- **Without a left buddy to come back to, the loop ends**; the induction is on the distance to the
order at which sizes overflow. -/
theorem right_ends (hk : 2 ^ (k + 7) ∣ A) (hno : ∀ t, ¬ Spins s A size k t) :
    ∀ {j i : ℕ} (mm : MallocMetadata), i + j = 23 → k ≤ i →
      (∀ l, k ≤ l → l < i → Passes s (peer A l) ∧ A < peer A l) → mm.order = i →
      mm.size = payloadSize i → mm.cookie = s.cookie →
      ∃ n, checkLoop s A size n A (peer A i) mm (hdr s.mem (peer A i)) ≠ .fuel := by
  intro j
  induction j with
  | zero =>
    intro i mm hj hki hr ho hs hck
    obtain rfl : i = 23 := hj
    exact turn_ends hk hki (by norm_num) (hno 23) hr hs hck fun _ _ hright =>
      ⟨1, checkLoop_overflow hright ho⟩
  | succ j ih =>
    intro i mm hj hki hr ho hs hck
    apply turn_ends hk hki (by omega) (hno i) hr hs hck
    intro hp hsize hright
    have hr' : ∀ l, k ≤ l → l < i + 1 → Passes s (peer A l) ∧ A < peer A l := by
      intro l h₁ h₂
      rcases Nat.eq_or_lt_of_le (Nat.le_of_lt_succ h₂) with rfl | h₂
      · exact ⟨hp, hright⟩
      · exact hr l h₁ h₂
    obtain ⟨n, hn⟩ := ih (grownCopy s mm A i) (show i + 1 + j = 23 by omega) (by omega) hr' rfl rfl hck
    refine ⟨n + 1, ?_⟩
    rwa [checkLoop_up (by omega) hp hright ho hsize hck]

end Ends

/-! ## In the arena -/

section Arena

variable {base : ℕ} {s : State} {B : Layout} {a k t size : ℕ} {f : Bool}

theorem peer_slot (hA : Arena base) (ha : a < arenaUnits) (ht : t < 15) :
    peer (base + startSize * a) t = base + startSize * buddy a t := slot_xor hA ha ht

theorem slot_dvd_iff (hA : Arena base) (hk : k ≤ 15) : 2 ^ (k + 7) ∣ base + startSize * a ↔ 2 ^ k ∣ a := by
  have hb : 2 ^ (k + 7) ∣ base := (pow_dvd_pow 2 (by omega)).trans hA.aligned
  rw [Nat.dvd_add_right hb, pow_add, mul_comm, startSize]
  exact Nat.mul_dvd_mul_iff_left (by norm_num)

/-- The buddy at which the rehearsal stops is not larger than what the block would have grown to. -/
theorem order_le_of_passes (hA : Arena base) (h : Repr base s B none) (ha : B a = some ⟨k, f⟩)
    (hkt : k ≤ t) (hd : 2 ^ (t + 7) ∣ base + startSize * a) (hp : Passes s (peer (base + startSize * a) t)) :
    (hdr s.mem (peer (base + startSize * a) t)).order ≤ t := by
  have hT := h.heap.tiles
  by_cases ht : t < 10
  · obtain ⟨d, hz, hd⟩ := hT.exists_buddy_of_le (two_pow_dvd_arenaUnits (by omega)) ha hkt
      ((slot_dvd_iff hA (by omega)).mp hd)
    rw [peer_slot hA (hT.lt ha) (by omega), hdr_slot, (h.heap.hdrs hz).order]
    exact_mod_cast hd
  · have := hp.2.1
    omega

/-- The address of the buddy as a `peer`. -/
theorem Repr.buddyAddr_hdr_peer {x : Option ℕ} (h : Repr base s B x) (ha : B a = some ⟨k, f⟩) :
    buddyAddr (base + startSize * a) (hdr s.mem (base + startSize * a)).order =
      .ret (peer (base + startSize * a) k) := by
  have hk : k ≤ 10 := h.heap.tiles.le_max ha
  rw [hdr_slot, (h.heap.hdrs ha).order]
  exact buddyAddr_peer (by simp only; omega)

theorem check_eq (h : Repr base s B none) (ha : B a = some ⟨k, f⟩) (n : ℕ) :
    checkIfUnionIsPossible n s (base + startSize * a) size =
      checkLoop s (base + startSize * a) size n (base + startSize * a) (peer (base + startSize * a) k)
        (slots base s.mem a) (hdr s.mem (peer (base + startSize * a) k)) := by
  rw [checkIfUnionIsPossible, h.buddyAddr_hdr_peer ha, Outcome.ret_bind, hdr_slot]

theorem Repr.slot_dvd (hA : Arena base) (h : Repr base s B none) (ha : B a = some ⟨k, f⟩) :
    2 ^ (k + 7) ∣ base + startSize * a := by
  have hk : k ≤ 10 := h.heap.tiles.le_max ha
  exact (slot_dvd_iff hA (by omega)).mpr (h.heap.tiles.aligned ha)

theorem Spins.check_fuel (hs : Spins s (base + startSize * a) size k t) (hA : Arena base)
    (h : Repr base s B none) (ha : B a = some ⟨k, f⟩) (n : ℕ) :
    checkIfUnionIsPossible n s (base + startSize * a) size = .fuel := by
  have hH := h.heap.hdrs ha
  have hd := dvd_of_right (h.slot_dvd hA ha) hs.le fun i h₁ h₂ => (hs.right i h₁ h₂).2
  obtain ⟨g, hg⟩ := Int.eq_ofNat_of_zero_le hs.order
  have hgt := order_le_of_passes hA h ha hs.le hd hs.passes
  rw [hg] at hgt
  rw [check_eq h ha]
  exact hs.right_fuel hd hg (by exact_mod_cast hgt) n le_rfl hs.le hH.order hH.size hH.cookie

theorem check_ends (hA : Arena base) (h : Repr base s B none) (ha : B a = some ⟨k, f⟩)
    (hno : ∀ t, ¬ Spins s (base + startSize * a) size k t) :
    ∃ n, checkIfUnionIsPossible n s (base + startSize * a) size ≠ .fuel := by
  have hH := h.heap.hdrs ha
  have hk : k ≤ 10 := h.heap.tiles.le_max ha
  simp only [check_eq h ha]
  exact right_ends (h.slot_dvd hA ha) hno (j := 23 - k) _ (by omega) le_rfl
    (fun l h₁ h₂ => absurd h₂ (by omega)) hH.order hH.size hH.cookie

end Arena

/-- **The rehearsal ends exactly if it meets no left buddy to which it comes back**, for every block of the
arena, every size and whatever the payloads hold. -/
theorem check_ends_iff {s : State} {l : List ℕ} (h : RIList s l) {A : ℕ} (hA : A ∈ l) (size : ℕ) :
    (∃ n, checkIfUnionIsPossible n s A size ≠ .fuel) ↔
      ¬ ∃ t, Spins s A size (hdr s.mem A).order.toNat t := by
  obtain ⟨a, rfl⟩ := h.exists_slot hA
  have ha : layoutOf s l a = some _ := layoutOf_eq_some.mpr ⟨hA, rfl⟩
  rw [hdr_slot]
  constructor
  · rintro ⟨n, hn⟩ ⟨t, ht⟩
    exact hn (ht.check_fuel h.arena h.repr ha n)
  · intro hno
    exact check_ends h.arena h.repr ha fun t ht => hno ⟨t, ht⟩

/-- The first block, when it is the only one: its buddies are to the right, up to a block of order 10. -/
theorem not_spins_oneBlock {s : State} (h : Inv 8388608 s oneBlock []) (t : ℕ) :
    ¬ Spins s 8388608 100000 9 t := by
  intro hs
  have hbud : oneBlock (buddy 0 10) = some ⟨10, true⟩ := rfl
  have hp : peer 8388608 10 = 8388608 + startSize * buddy 0 10 :=
    peer_slot (a := 0) h.arena (by norm_num [arenaUnits]) (by norm_num)
  by_cases ht : t ≤ 10
  · -- a buddy to the left would need a bit of the address that is not set
    have hd : 2 ^ (10 + 1 + 7) ∣ 8388608 := by norm_num
    have := hs.left
    have := lt_peer_of_dvd (t := 11) (i := t) hd (by omega)
    omega
  · have hlt := (hs.right 10 (by norm_num) (by omega)).1.2.1
    rw [hp, hdr_slot, (h.repr.heap.hdrs hbud).order] at hlt
    exact absurd hlt (by norm_num)

/-- Rehearsing the growth of the only block in use. -/
theorem check_ends_iff_one_block : ∃ w,
    Run Step (start (fun _ => 0) 0 4198400) [.smalloc ⟨true, none⟩ 65000] w ∧ 8388648 ∈ w.live ∧
    ∃ n, checkIfUnionIsPossible n w.st 8388608 100000 ≠ .fuel := by
  obtain ⟨w, hrun, -, hi, hl, -, -⟩ := exists_oneBlock
  have hself : oneBlock 0 = some ⟨9, false⟩ := splitTo_self
  obtain ⟨l, hri, hmem⟩ := hi.repr.riList hi.arena hi.head
  have hord : (hdr w.st.mem 8388608).order = 9 := (hi.repr.heap.hdrs hself).order
  have hfirst : 8388608 ∈ l := (hmem _).mpr ⟨0, _, hself, rfl⟩
  refine ⟨w, hrun, by rw [hl]; simp, (check_ends_iff hri hfirst 100000).mpr ?_⟩
  rintro ⟨t, ht⟩
  rw [hord] at ht
  exact not_spins_oneBlock hi t ht

/-- The layout after two allocations of order 9, the first of which has been released. -/
def leftFree : Layout := mark (splitTo oneBlock 512 9 0) 0 9 true

theorem exists_leftFree : ∃ w, Run Step (start (fun _ => 0) 0 4198400)
      [.smalloc ⟨true, none⟩ 65000, .smalloc ⟨true, none⟩ 65000, .sfree 8388648] w ∧
    Inv 8388608 w.st leftFree [] ∧ w.live = [8454184] := by
  obtain ⟨w₁, hrun, -, hi₁, hl₁, -, -⟩ := exists_oneBlock
  have ht : Takes oneBlock 9 9 512 := by
    refine ⟨splitTo_piece le_rfl (by norm_num), le_rfl, fun b hb => ?_, fun i b h₁ h₂ => by omega⟩
    simp only [oneBlock, splitTo, mark_apply, split_apply] at hb
    split_ifs at hb with h₁ h₂
    · simp at hb
    · exact h₂.ge
    · exact absurd (fresh_order hb) (by decide)
  obtain ⟨w₂, hs₂, hi₂, -, hl₂⟩ := step_smalloc (w := w₁) ⟨true, none⟩ hi₁ (by norm_num)
    (by unfold maxSize; norm_num) leastOrder_65000 ht
  have h0 : splitTo oneBlock 512 9 (9 - 9) 0 = some ⟨9, false⟩ := rfl
  have hb : splitTo oneBlock 512 9 (9 - 9) (buddy 0 9) = some ⟨9, false⟩ := rfl
  have hq : Quiet (splitTo oneBlock 512 9 (9 - 9)) (maxOrder - 9) 0 9 := by
    refine ⟨fun m hm => ?_, fun hm => ?_⟩ <;> rw [hb] at hm <;> simp at hm
  obtain ⟨w₃, hs₃, hi₃, -, hl₃⟩ := step_sfree (w := w₂) hi₂ h0 hq (by
    rw [hl₂, hl₁, firstBlock]
    exact List.mem_cons_of_mem _ List.mem_cons_self)
  rw [firstBlock] at hs₃ hl₃
  refine ⟨w₃, hrun.append (.cons hs₂ (.cons hs₃ (.nil _))), ?_, ?_⟩
  · rw [show maxOrder - 9 = 1 from rfl, release, hb, if_neg (by simp)] at hi₃
    exact hi₃
  · rw [hl₃, hl₂, hl₁]
    rfl

/-- **The rehearsal does not end**: two blocks of order 9, the first released, and `srealloc` of the second
to 100000 bytes. -/
theorem check_spins : ∃ w, Run Step (start (fun _ => 0) 0 4198400)
      [.smalloc ⟨true, none⟩ 65000, .smalloc ⟨true, none⟩ 65000, .sfree 8388648] w ∧
    RI w.st ∧ 8454184 ∈ w.live ∧ (hdr w.st.mem 8454144).size < 100000 ∧
    ∀ n, checkIfUnionIsPossible n w.st 8454144 100000 = .fuel := by
  obtain ⟨w, hrun, hi, hl⟩ := exists_leftFree
  have h0 : leftFree (buddy 512 9) = some ⟨9, true⟩ := rfl
  have h512 : leftFree 512 = some ⟨9, false⟩ := rfl
  have hH := hi.repr.heap.hdrs h0
  have hsize : payloadSize 9 < 100000 := by unfold payloadSize startSize sizeofMetadata; norm_num
  have hp : peer (8388608 + startSize * 512) 9 = 8388608 + startSize * buddy 512 9 :=
    peer_slot hi.arena (by norm_num [arenaUnits]) (by norm_num)
  have hspins : Spins w.st (8388608 + startSize * 512) 100000 9 9 := by
    refine ⟨le_rfl, by norm_num, fun i h₁ h₂ => by omega, ?_, ?_, hsize, ?_, ?_, fun o h₁ h₂ => ?_⟩
    all_goals rw [hp] at *
    · exact slot_lt_iff.mpr (show buddy 512 9 < 512 by decide)
    · exact ⟨hi.repr.heap.marks h0 (by simp), by rw [hdr_slot, hH.order]; norm_num, hH.cookie⟩
    · rw [hdr_slot, hH.size]
      exact hsize
    · rw [hdr_slot, hH.order]
      norm_num
    · rw [hdr_slot, hH.order] at h₁
      norm_num at h₁
      omega
  obtain ⟨l, hri, -⟩ := hi.repr.riList hi.arena hi.head
  refine ⟨w, hrun, ⟨l, hri⟩, by rw [hl]; simp, ?_, hspins.check_fuel hi.arena hi.repr h512⟩
  exact (hi.repr.heap.hdrs h512).size.trans_lt hsize

end OsHomework.Malloc3
