import OsHomework.Malloc3.Uneven

/-!
# `malloc_3`: the header across the boundary

For the buddy of a block of the whole arena the XOR gives `head ^ 4 MiB`, outside the arena. Whether a call of
`srealloc` merges with the header there can be read off before the call.

* `MeetsPeer P n F y o`: going up by the rule of `UnionIfPossible`, the header at `P` is met, where `F` says which
  headers are free; **`Uneven.meets_iff`**: the merge loop does just that;
* `freeAt`: the free headers, as the release at the end of `srealloc` will find them;
* **`Crosses`**: the calls that merge across the boundary, by the headers before the call.
-/

set_option autoImplicit false

namespace OsHomework.Malloc3

open Buddy

/-! ## Going up -/

/-- **Going up from the block at `y`, of order `o`, the header at `P` is met**: as long as the buddy is free and
of an order below 10, the lower of the two goes on, one order larger. `F` says which headers are free, and of
which order they are. -/
def MeetsPeer (P : ℕ) : ℕ → (ℕ → Option ℤ) → ℕ → ℕ → Prop
  | 0, _, _, _ => False
  | n + 1, F, y, o =>
    match F (peer y o) with
    | none => False
    | some i => i < 10 ∧ (peer y o = P ∨
        if y < peer y o then MeetsPeer P n (Function.update F y (some ((o + 1 : ℕ) : ℤ))) y (o + 1)
        else MeetsPeer P n (Function.update F (peer y o) (some (i + 1))) (peer y o) (i + 1).toNat)

theorem meetsPeer_turn {P y o : ℕ} {F : ℕ → Option ℤ} {i : ℤ} (hi : F (peer y o) = some i) (hi10 : i < 10)
    (hP : peer y o ≠ P) : (∃ n, MeetsPeer P n F y o) ↔ ∃ n,
      if y < peer y o then MeetsPeer P n (Function.update F y (some ((o + 1 : ℕ) : ℤ))) y (o + 1)
      else MeetsPeer P n (Function.update F (peer y o) (some (i + 1))) (peer y o) (i + 1).toNat := by
  constructor
  · rintro ⟨n, hn⟩
    cases n with
    | zero => exact hn.elim
    | succ n =>
      rw [MeetsPeer, hi] at hn
      exact ⟨n, hn.2.resolve_left hP⟩
  · rintro ⟨n, hn⟩
    refine ⟨n + 1, ?_⟩
    rw [MeetsPeer, hi]
    exact ⟨hi10, .inr hn⟩

/-- The way up ends at a buddy that is not free, or has order 10. -/
theorem not_meetsPeer {P n y o : ℕ} {F : ℕ → Option ℤ} (h : ∀ i, F (peer y o) = some i → ¬ i < 10) :
    ¬ MeetsPeer P n F y o := by
  intro hn
  cases n with
  | zero => exact hn
  | succ n =>
    rw [MeetsPeer] at hn
    rcases hF : F (peer y o) with _ | i
    · rw [hF] at hn
      exact hn
    · rw [hF] at hn
      exact h i hF hn.1

section Boundary

variable {base : ℕ} {B : Layout} {m m' : Mem} {a : ℕ}

/-- The header that the XOR gives for the buddy of the whole arena. -/
theorem peer_boundary (hA : Arena base) :
    peer base 15 + startSize * arenaUnits = base ∨ peer base 15 = base + startSize * arenaUnits := by
  have hP : peer base 15 = buddy base 22 := peer_eq base 15
  have hlen : startSize * arenaUnits = 2 ^ 22 := rfl
  rw [hP, hlen]
  by_cases h22 : 2 ^ (22 + 1) ∣ base
  · exact .inr (buddy_left h22)
  · exact .inl (buddy_right hA.aligned h22).1

theorem slot_ne_peer (hA : Arena base) (ha : a < arenaUnits) : base + startSize * a ≠ peer base 15 := by
  have hlt : startSize * a < startSize * arenaUnits := Nat.mul_lt_mul_of_pos_left ha (by decide)
  have := peer_boundary hA
  omega

theorem dvd_peer (hA : Arena base) : startSize ∣ peer base 15 := by
  have hb : startSize ∣ base := (show startSize ∣ 2 ^ 22 by decide).trans hA.aligned
  have hlen : startSize ∣ startSize * arenaUnits := Dvd.intro _ rfl
  rcases peer_boundary hA with he | he
  · apply (Nat.dvd_add_left hlen).mp
    rwa [he]
  · rw [he]
    exact Nat.dvd_add hb hlen

theorem Outside.hdr_peer (h : Outside base B m m') (hA : Arena base) (hT : Tiles maxOrder arenaUnits B) :
    hdr m' (peer base 15) = hdr m (peer base 15) := by
  have hP := peer_boundary hA
  refine hdr_congr fun x h₁ h₂ => h.out hT ?_
  unfold startSize arenaUnits at *
  omega

end Boundary

section Loop

variable {base : ℕ} {s t : State} {B B' : Layout} {a k y o : ℕ}

theorem Repr.freeOrder_slot (h : Repr base s B none) {x : ℕ} {c : Cell} (hx : B x = some c) :
    freeOrder (hdr s.mem (base + startSize * x)) = if c.free then some (c.order : ℤ) else none := by
  rw [hdr_slot, freeOrder, h.heap.marks hx (by simp), (h.heap.hdrs hx).order]

theorem freeOrder_eq_some {h : MallocMetadata} {i : ℤ} :
    freeOrder h = some i ↔ h.isFree = true ∧ h.order = i := by
  unfold freeOrder
  split_ifs with hf <;> simp [hf]

/-- The way up goes on from the block that has grown. -/
theorem Uneven.meetsPeer_next (hA : Arena base) (h : Repr base s B none) (hu : Uneven base s B a t y o) (ho : o < 15)
    {F : ℕ → Option ℤ} {y' o' : ℕ} (hz : buddy y o < arenaUnits)
    (hi : F (base + startSize * buddy y o) = some (hdr t.mem (base + startSize * buddy y o)).order)
    (h10 : (hdr t.mem (base + startSize * buddy y o)).order < 10) (hnext : NextBlock B y o y' o') :
    (∃ l, MeetsPeer (peer base 15) l F (base + startSize * y) o) ↔
      ∃ l, MeetsPeer (peer base 15) l (Function.update F (base + startSize * y') (some (o' : ℤ)))
        (base + startSize * y') o' := by
  obtain ⟨c, hy, -⟩ := hu.block
  have hslot := peer_slot hA (h.heap.tiles.lt hy) ho
  rw [← hslot] at hi h10
  rw [meetsPeer_turn hi h10 (by rw [hslot]; exact slot_ne_peer hA hz), hslot]
  cases hnext with
  | right hlt => simp only [if_pos (slot_lt_iff.mpr hlt)]
  | @left j hlt hzB =>
    have hj : (hdr t.mem (base + startSize * buddy y o)).order = j :=
      (hu.below hzB hlt).order.trans (h.heap.hdrs hzB).order
    rw [hj]
    simp only [if_neg (fun hc => hlt.not_gt (slot_lt_iff.mp hc))]
    rfl

/-- **The merge loop merges with the header across the boundary exactly if that is met on the way up.** `F` need
only be right about the blocks of a layout `B'` in which the free blocks are those of `B`; the induction is on
the fuel. -/
theorem Uneven.meets_iff (hA : Arena base) (h : Repr base s B none) (hT' : Tiles maxOrder arenaUnits B')
    (hsame : ∀ {x c}, B' x = some c → ∃ d, B x = some d ∧ (d.free = true → c = d)) (n : ℕ) :
    ∀ {t : State} {y o : ℕ} {F : ℕ → Option ℤ} {r : State × ℕ}, Uneven base s B a t y o →
      (∃ c, B' y = some c ∧ c.order ≤ o) →
      (∀ {x c}, B' x = some c → F (base + startSize * x) = freeOrder (slots base t.mem x)) →
      F (peer base 15) = freeOrder (hdr t.mem (peer base 15)) →
      unionLoop n t (base + startSize * y) (peer (base + startSize * y) o) = .ret r →
      ((∃ e ∈ (Merges.unionLoop n t (base + startSize * y) (peer (base + startSize * y) o)).log,
          ¬ SparesPeer (peer base 15) e) ↔ ∃ l, MeetsPeer (peer base 15) l F (base + startSize * y) o) := by
  induction n with
  | zero => intro _ _ _ _ _ _ _ _ _ hr; cases hr
  | succ n ih =>
    intro t y o F r hu hy' hF hFP hr
    have hT := h.heap.tiles
    obtain ⟨c, hy, -⟩ := hu.block
    obtain ⟨c', hy', hc'⟩ := hy'
    have hpeer : F (peer (base + startSize * y) o) = freeOrder (hdr t.mem (peer (base + startSize * y) o)) := by
      rcases Nat.lt_or_ge o 15 with ho | ho
      · obtain ⟨d, hz, -⟩ := hT'.exists_buddy_of_le (two_pow_dvd_arenaUnits (by omega)) hy' hc' hu.aligned
        rw [peer_slot hA (hT.lt hy) ho]
        exact hF hz
      · obtain rfl : o = 15 := le_antisymm hu.le ho
        obtain rfl : y = 0 := Nat.eq_zero_of_dvd_of_lt hu.aligned (hT.lt hy)
        rwa [mul_zero, add_zero]
    rw [unionLoop] at hr
    rw [Merges.unionLoop]
    split_ifs at hr ⊢ with hgo
    · obtain ⟨r₁, h₁, h₂⟩ := Outcome.bind_eq_ret.mp hr
      have hi := hpeer.trans (freeOrder_eq_some.mpr ⟨hgo.1, rfl⟩)
      rcases Nat.lt_or_ge o 15 with ho | ho
      · obtain ⟨d, hz, hd⟩ := hT'.exists_buddy_of_le (two_pow_dvd_arenaUnits (by omega)) hy' hc' hu.aligned
        have hzlt : buddy y o < arenaUnits := hT'.lt hz
        rw [peer_slot hA (hT.lt hy) ho] at hgo h₁ hi ⊢
        obtain ⟨m, f, y', o', he, hu', hnext, hm⟩ := hu.step hA h (by omega) hgo
        rw [he] at h₁
        obtain rfl := Outcome.ret.inj h₁
        obtain ⟨c₁, hy₁, -⟩ := hu'.block
        have hP := hT.lt hy₁ |> slot_ne_peer hA
        have hup := hu.meetsPeer_next hA h ho hzlt hi hgo.2 hnext
        have hlow : ∃ c, B' y' = some c ∧ c.order ≤ o' := by
          cases hnext with
          | right _ => exact ⟨c', hy', by omega⟩
          | left _ hzB =>
            obtain ⟨d', hd', hdd⟩ := hsame hz
            rw [hzB] at hd'
            cases hd'
            exact ⟨d, hz, by rw [hdd rfl]; simp⟩
        have hF' : ∀ {x c}, B' x = some c → Function.update F (base + startSize * y') (some (o' : ℤ))
            (base + startSize * x) = freeOrder (slots base m x) := by
          intro x e hx
          by_cases hne : x = y'
          · rw [hne, Function.update_self, hm.grown]
          · rw [Function.update_of_ne fun he => hne (slot_inj he), hF hx, (hm.others x hne).freeOrder]
        have hFP' : Function.update F (base + startSize * y') (some (o' : ℤ)) (peer base 15) =
            freeOrder (hdr m (peer base 15)) := by
          rw [Function.update_of_ne hP.symm, hFP, hu.out.hdr_peer hA hT, ← hu'.out.hdr_peer hA hT]
        rw [hup, ← ih hu' hlow hF' hFP' h₂, Merges.mergeStep_eq he]
        have hspares := sparesPeer_of_mergeStep he (slot_ne_peer hA (hT.lt hy)) (slot_ne_peer hA hzlt)
        rw [Merges.mergeStep_eq he] at hspares
        constructor
        · rintro ⟨e, hmem, hns⟩
          rcases Logged.mem_log_bind.mp hmem with hfirst | ⟨r₁, hr₁, hmem⟩
          · exact absurd (hspares e hfirst) hns
          · obtain rfl := Outcome.ret.inj hr₁
            exact ⟨e, hmem, hns⟩
        · rintro ⟨e, hmem, hns⟩
          exact ⟨e, Logged.mem_log_bind.mpr (.inr ⟨_, rfl, hmem⟩), hns⟩
      · -- the whole arena: its buddy is the header across the boundary
        obtain rfl : o = 15 := le_antisymm hu.le ho
        obtain rfl : y = 0 := Nat.eq_zero_of_dvd_of_lt hu.aligned (hT.lt hy)
        rw [mul_zero, add_zero] at h₁ hi hgo ⊢
        obtain ⟨e, he, hns⟩ := not_sparesPeer_of_mergeStep h₁
        refine iff_of_true ⟨e, Logged.mem_log_bind.mpr (.inl he), hns⟩ ⟨1, ?_⟩
        rw [MeetsPeer, hi]
        exact ⟨hgo.2, .inl rfl⟩
    · refine iff_of_false (by simp) ?_
      rintro ⟨l, hl⟩
      refine not_meetsPeer (fun i hi hlt => hgo ?_) hl
      obtain ⟨hfree, rfl⟩ := freeOrder_eq_some.mp (hpeer.symm.trans hi)
      exact ⟨hfree, hlt⟩

/-- **The state in which a block is released**, and what `F` says of it: the layout has changed, but for blocks
that are in use now. -/
structure Ready (base : ℕ) (B B' : Layout) (t : State) (a k : ℕ) (F : ℕ → Option ℤ) : Prop where
  repr : Repr base t B none
  block : B a = some ⟨k, false⟩
  old : B' a = some ⟨k, false⟩
  same : ∀ {x c}, B' x = some c → ∃ d, B x = some d ∧ (d.free = true → c = d)
  free : ∀ {x c}, B' x = some c → F (base + startSize * x) = freeOrder (slots base t.mem x)
  across : F (peer base 15) = freeOrder (hdr t.mem (peer base 15))

/-- **A release merges across the boundary exactly if it meets the header there.** -/
theorem Ready.meets_iff {F : ℕ → Option ℤ} {n : ℕ} {t' : State} (hr : Ready base B B' t a k F)
    (hA : Arena base) (hT' : Tiles maxOrder arenaUnits B')
    (he : unionIfPossible n t (base + startSize * a) = .ret t') :
    (∃ e ∈ (Merges.unionIfPossible n t (base + startSize * a)).log, ¬ SparesPeer (peer base 15) e) ↔
      ∃ l, MeetsPeer (peer base 15) l F (base + startSize * a) k := by
  have hH := hr.repr.heap.hdrs hr.block
  have hbud := hr.repr.buddyAddr_hdr_peer hr.block
  rw [unionIfPossible, hdr_slot, hH.isMmap, if_neg (by simp), ← hdr_slot, hbud, Outcome.ret_bind] at he
  obtain ⟨r, hloop, -⟩ := Outcome.bind_eq_ret.mp he
  rw [Merges.unionIfPossible, hdr_slot, hH.isMmap, if_neg (by simp), ← hdr_slot, hbud, Logged.lift_ret_bind,
    Logged.log_bind_silent fun _ => rfl]
  exact Uneven.meets_iff hA hr.repr hT' hr.same n (hr.repr.uneven hr.block) ⟨_, hr.old, le_rfl⟩ hr.free
    hr.across hloop

end Loop

/-! ## Before the call -/

/-- **The free headers, as the release at the end of `srealloc(p, size)` will find them**: the block that is
allocated is in use by then, and what a mapping covers holds zeros and the contents of the block of `p`. -/
def freeAt (sys : Sys) (s : State) (p size x : ℕ) : Option ℤ :=
  if maxSize ≤ size then
    match sys.mmapAddr with
    | none => freeOrder (hdr s.mem x)
    | some addr => freeOrder (hdr ((s.mem.fill addr (sizeofMetadata + size) 0).copy (addr + sizeofMetadata) p
        (payloadLen s p)) x)
  else if (getFreeBlock s size).map Prod.snd = some x then none
  else freeOrder (hdr s.mem x)

section Before

variable {base : ℕ} {s : State} {B : Layout} {L : List (ℕ × ℕ)} {a k size n : ℕ} {sys : Sys}

/-- A small request is served from the arena. -/
theorem ready_heap (h : Inv base s B L) (ha : B a = some ⟨k, false⟩) (h0 : 0 < size) (hsize : payloadSize k < size)
    (hlt : size < maxSize) (hserve : CanServe sys s size) (hn : maxOrder < n) : ∃ s₁ q B₁,
    malloc sys n s size = .ret (s₁, q) ∧ q ≠ 0 ∧ Ready base B₁ B
      { s₁ with mem := s₁.mem.copy q (base + startSize * a + sizeofMetadata) (payloadSize k) } a k
      (freeAt sys s (base + startSize * a + sizeofMetadata) size) := by
  have hT := h.repr.heap.tiles
  rw [CanServe, if_neg (not_le.mpr hlt)] at hserve
  obtain ⟨i, hiM, hfit, hfree⟩ := hserve
  obtain ⟨p, hp⟩ := List.exists_mem_of_ne_nil _ hfree
  obtain ⟨b, -, hb⟩ := (h.repr.lists.mem hiM p).mp hp
  obtain ⟨k', hk', hk⟩ := exists_leastOrder hfit
  obtain ⟨-, hno⟩ | ⟨j, b, f₀, ht, hget, -⟩ := getFreeBlock_spec hk h.repr
  · exact absurd hb (hno i b hk')
  obtain ⟨m, f, he, hi, ho⟩ := malloc_heap sys h h0 hlt hk ht hn
  have hto : AllocTo base B L sys size _ _ _ := .heap hk ht
  have hq : base + startSize * b + sizeofMetadata ≠ 0 := by
    have := h.arena.pos
    omega
  have hi₂ := hto.inv_copy hi hq hsize.le (base + startSize * a + sizeofMetadata)
  have hb' : B b = some ⟨k' + (j - k'), true⟩ := by rw [Nat.add_sub_cancel' ht.le]; exact ht.block
  have hself : splitTo B b k' (j - k') b = some ⟨k', false⟩ := splitTo_self
  have hkeep := fun {x : ℕ} {c : Cell} (hx : B x = some c) (hne : x ≠ b) => splitTo_block hT hb' hx hne
  have hfreeAt : ∀ x, freeAt sys s (base + startSize * a + sizeofMetadata) size x =
      if base + startSize * b = x then none else freeOrder (hdr s.mem x) := fun x => by
    rw [freeAt, if_neg (not_le.mpr hlt), hget]
    simp only [Option.map_some, Option.some.injEq]
  refine ⟨_, _, _, he, hq, ⟨hi₂.repr, hto.used h ha, ha, fun {x c} hx => ?_, fun {x c} hx => ?_, ?_⟩⟩
  · by_cases hne : x = b
    · subst hne
      exact ⟨_, hself, by simp⟩
    · exact ⟨c, hkeep hx hne, fun _ => rfl⟩
  · rw [hfreeAt, ← hdr_slot]
    by_cases hne : x = b
    · subst hne
      rw [if_pos rfl, hi₂.repr.freeOrder_slot hself]
      simp
    · rw [if_neg fun hc => hne (slot_inj hc).symm, h.repr.freeOrder_slot hx, hi₂.repr.freeOrder_slot (hkeep hx hne)]
  · have hblt := hT.lt ht.block
    have hend := hi.repr.heap.tiles.fits hself
    have hP := peer_boundary h.arena
    have hpay := hk.fits
    rw [hfreeAt, if_neg (slot_ne_peer h.arena hblt), ← ho.hdr_peer h.arena hi.repr.heap.tiles]
    congr 1
    refine (hdr_congr fun x h₁ h₂ => Mem.copy_out ?_).symm
    have : base + startSize * b + sizeofMetadata + payloadSize k' = base + startSize * (b + 2 ^ k') := payload_end
    unfold startSize arenaUnits at *
    simp only at hend
    omega

/-- A copy from the arena into a mapped block reads and writes no header of a mapped block. -/
theorem copy_onMaps {m m' : Mem} {addr p len x : ℕ} (ho : OnMaps (L ++ [(addr, size)]) m m')
    (hL : ∀ r ∈ L ++ [(addr, size)], Fresh base [] r.1 r.2) (hlen : p + len ≤ base + startSize * arenaUnits)
    (hp : base ≤ p) (hx : ∀ r ∈ L ++ [(addr, size)], x < r.1 ∨ r.1 + 40 ≤ x) :
    m'.copy (addr + sizeofMetadata) p len x = m.copy (addr + sizeofMetadata) p len x := by
  rw [Mem.copy, Mem.copy]
  split_ifs with hin
  · refine ho _ fun r hr => ?_
    have := (hL r hr).arena
    unfold sizeofMetadata at *
    omega
  · exact ho x hx

/-- The mapping leaves the header across the boundary as `freeAt` has it. -/
theorem across_map {m m' : Mem} {addr p len : ℕ} (hA : Arena base)
    (ho : OnMaps (L ++ [(addr, size)]) m m') (hL : ∀ r ∈ L ++ [(addr, size)], Fresh base [] r.1 r.2)
    (hd : ∀ r ∈ L ++ [(addr, size)], startSize ∣ r.1) (hf : Fresh base L addr size)
    (hlinks : ∀ r ∈ L, freeOrder (hdr m' r.1) = freeOrder (hdr m r.1)) (hmarks : SameMarks m m')
    (hzero : (hdr m addr).isFree = false) (hsize : len ≤ size) (hp : base ≤ p)
    (hlen : p + len ≤ base + startSize * arenaUnits) :
    freeOrder (hdr (m'.copy (addr + sizeofMetadata) p len) (peer base 15)) =
      freeOrder (hdr (m.copy (addr + sizeofMetadata) p len) (peer base 15)) := by
  have hP := dvd_peer hA
  -- the copy leaves the headers of mapped blocks alone
  have hcopy : ∀ (m : Mem) (r : ℕ × ℕ), r ∈ L ++ [(addr, size)] →
      hdr (m.copy (addr + sizeofMetadata) p len) r.1 = hdr m r.1 := by
    intro m r hr
    refine hdr_congr fun x h₁ h₂ => Mem.copy_out ?_
    rcases List.mem_append.mp hr with hr | hr
    · have := hf.apart r hr
      unfold Apart sizeofMetadata at *
      simp only at this
      omega
    · obtain rfl := List.mem_singleton.mp hr
      unfold sizeofMetadata
      exact .inl (by omega)
  by_cases hmem : ∃ r ∈ L ++ [(addr, size)], r.1 = peer base 15
  · obtain ⟨r, hr, hrP⟩ := hmem
    rw [← hrP, hcopy m' r hr, hcopy m r hr]
    rcases List.mem_append.mp hr with hr | hr
    · exact hlinks r hr
    · obtain rfl := List.mem_singleton.mp hr
      have hzero' := (hmarks addr (hd (addr, size) (by simp))).trans hzero
      simp [freeOrder, hzero, hzero']
  · push Not at hmem
    congr 1
    refine hdr_congr fun x h₁ h₂ => copy_onMaps ho hL hlen hp fun r hr => ?_
    -- headers at multiples of 128 do not overlap
    have hne := hmem r hr
    obtain ⟨i, hi⟩ := hd r hr
    obtain ⟨j, hj⟩ := hP
    unfold startSize at hi hj
    omega

/-- A large request is mapped. -/
theorem ready_map {addr : ℕ} (h : Inv base s B L) (ha : B a = some ⟨k, false⟩) (hsize : payloadSize k < size)
    (hmin : maxSize ≤ size) (hmax : size ≤ maxSizeToAllocate) (hsys : sys.mmapAddr = some addr)
    (hf : Fresh base L addr size) (hd : ∀ r ∈ L ++ [(addr, size)], startSize ∣ r.1) (hn : L.length < n) :
    ∃ s₁ q, malloc sys n s size = .ret (s₁, q) ∧ q ≠ 0 ∧ Ready base B B
      { s₁ with mem := s₁.mem.copy q (base + startSize * a + sizeofMetadata) (payloadSize k) } a k
      (freeAt sys s (base + startSize * a + sizeofMetadata) size) := by
  have hT := h.repr.heap.tiles
  obtain ⟨m, q, he, hm, ho, -, hlinks, hmarks⟩ := h.maps.malloc_large sys h.repr.cookie h.head_ne hmin hmax hsys hf hn
  obtain ⟨m', q', he', hi, -⟩ := malloc_map sys h hmin hmax hsys hf hn
  obtain ⟨rfl, rfl⟩ : m = m' ∧ q = q' := by
    have := Outcome.ret.inj (he.symm.trans he')
    simp only [Prod.mk.injEq, State.mk.injEq] at this
    exact ⟨this.1.1, this.1.2.2.1⟩
  have hto : AllocTo base B L sys size B _ _ := .map hmin hf
  have hi₂ := hto.inv_copy hi (by unfold sizeofMetadata; omega) hsize.le (base + startSize * a + sizeofMetadata)
  have hfreeAt : ∀ x, freeAt sys s (base + startSize * a + sizeofMetadata) size x =
      freeOrder (hdr ((s.mem.fill addr (sizeofMetadata + size) 0).copy (addr + sizeofMetadata)
        (base + startSize * a + sizeofMetadata) (payloadSize k)) x) := fun x => by
    rw [freeAt, if_pos hmin, hsys, h.payloadLen_heap ha]
  refine ⟨_, _, he, by unfold sizeofMetadata; omega, ⟨hi₂.repr, ha, ha, fun {x c} hx => ⟨c, hx, fun _ => rfl⟩,
    fun {x c} hx => ?_, ?_⟩⟩
  · have hxlt := hT.lt hx
    have hout := hf.arena
    have hover : hdr ((s.mem.fill addr (sizeofMetadata + size) 0).copy (addr + sizeofMetadata)
        (base + startSize * a + sizeofMetadata) (payloadSize k)) (base + startSize * x) =
          hdr s.mem (base + startSize * x) := by
      refine hdr_congr fun y h₁ h₂ => ?_
      unfold startSize sizeofMetadata arenaUnits at *
      rw [Mem.copy_out (by omega), Mem.fill_out (by omega)]
    rw [hfreeAt, hover, ← hdr_slot, h.repr.freeOrder_slot hx, hi₂.repr.freeOrder_slot hx]
  · rw [hfreeAt]
    refine (across_map h.arena ho (fun r hr => hm.fresh hr) hd hf (fun r hr => ?_) (hmarks hd) ?_ hsize.le
      (by omega) ?_).symm
    · obtain ⟨v, hv⟩ := hlinks r hr
      have hfill : hdr (s.mem.fill addr (sizeofMetadata + size) 0) r.1 = hdr s.mem r.1 :=
        hdr_congr fun x h₁ h₂ => Mem.fill_out (by
          have := hf.apart r hr
          unfold Apart sizeofMetadata at *
          simp only at this
          omega)
      rw [hv, hfill]
      rfl
    · have hin : 16 < 40 + size := by omega
      simp [hdr, Mem.load, Mem.fill, sizeofMetadata, hin]
    · rw [payload_end]
      have := hT.fits ha
      exact Nat.add_le_add_left (Nat.mul_le_mul_left _ this) _

/-- `mmap` returns multiples of 128, now as before: pages are larger. -/
def Paged (L : List (ℕ × ℕ)) (sys : Sys) : Prop :=
  (∀ r ∈ L, startSize ∣ r.1) ∧ ∀ addr, sys.mmapAddr = some addr → startSize ∣ addr

/-- **What `freeAt` says before the call is what the release finds.** -/
theorem exists_ready (h : Inv base s B L) (ha : B a = some ⟨k, false⟩) (h0 : 0 < size)
    (hsize : payloadSize k < size) (hmax : size ≤ maxSizeToAllocate)
    (hf : maxSize ≤ size → FreshAnswer base L sys size) (hpages : maxSize ≤ size → Paged L sys)
    (hserve : CanServe sys s size) (hn : maxOrder + L.length < n) : ∃ s₁ q B₁,
    malloc sys n s size = .ret (s₁, q) ∧ q ≠ 0 ∧ Ready base B₁ B
      { s₁ with mem := s₁.mem.copy q (base + startSize * a + sizeofMetadata) (payloadSize k) } a k
      (freeAt sys s (base + startSize * a + sizeofMetadata) size) := by
  rcases Nat.lt_or_ge size maxSize with hlt | hmin
  · exact ready_heap h ha h0 hsize hlt hserve (by omega)
  · have hsys := hserve
    rw [CanServe, if_pos hmin] at hsys
    obtain ⟨addr, hsys⟩ := Option.ne_none_iff_exists'.mp hsys
    obtain ⟨s₁, q, he⟩ := ready_map h ha hsize hmin hmax hsys (hf hmin addr hsys) (fun r hr => by
      rcases List.mem_append.mp hr with hr | hr
      · exact (hpages hmin).1 r hr
      · rw [List.mem_singleton.mp hr]
        exact (hpages hmin).2 addr hsys) (show L.length < n by omega)
    exact ⟨s₁, q, B, he⟩

end Before

/-- **`srealloc(p, size)` is going to merge with the header across the boundary**: it grows the block in place for
a request that does not fit the arena, or it moves the block, and on the way up from it meets that header. -/
def Crosses (sys : Sys) (s : State) (p size : ℕ) : Prop :=
  GrowsInPlace s p size ∧ payloadSize 15 < size ∨
    Moves s p size ∧ CanServe sys s size ∧ ∃ n, MeetsPeer (peer s.head 15) n (freeAt sys s p size) (headerOf p)
      (hdr s.mem (headerOf p)).order.toNat

end OsHomework.Malloc3
