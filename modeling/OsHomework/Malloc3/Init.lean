import OsHomework.Malloc3.Calls

/-!
# `malloc_3`: the set-up of the arena

`initArena` writes 32 headers of order 10 and puts the 32 blocks into `freed[10]`.

* `boot m ck brk`: the allocator as its constructor leaves it;
* `arenaBase brk`: the program break rounded up to a multiple of 4 MiB;
* **`inv_initArena`**: afterwards the arena is `Buddy.fresh` and no block is mapped;
* `SetsUp`: what is expected of the first call, and **`sets_up_iff`**: the arena lies below the new break
  exactly if the old one was not aligned and `sbrk` succeeds.
-/

set_option autoImplicit false

namespace OsHomework.Malloc3

open Buddy

/-- The allocator before the first call. -/
def boot (m : Mem) (ck brk : ℕ) : State :=
  { mem := m, head := 0, mmapHead := 0, freed := fun _ => [], cookie := ck, brk, unmapped := [] }

/-- A 32-bit cookie, and a break that leaves room for the arena. -/
structure Boots (ck brk : ℕ) : Prop where
  cookie : ck < 2 ^ 32
  pos : 0 < brk
  room : brk + 2 * (32 * maxSize) < 2 ^ 64

/-- Where the arena starts. -/
def arenaBase (brk : ℕ) : ℕ :=
  brk + if brk % (32 * maxSize) = 0 then 0 else 32 * maxSize - brk % (32 * maxSize)

theorem Boots.arena {ck brk : ℕ} (h : Boots ck brk) : Arena (arenaBase brk) := by
  have hpos := h.pos
  have hroom := h.room
  unfold maxSize at hroom
  refine ⟨?_, ?_, ?_⟩ <;> unfold arenaBase maxSize
  · split_ifs <;> omega
  · omega
  · unfold startSize arenaUnits
    split_ifs <;> omega

/-! ## The headers written -/

section Write

variable {base : ℕ}

/-- The header of the `i`-th block, as it is read back. -/
def initHdr (base ck i : ℕ) : MallocMetadata :=
  { cookie := ck, size := payloadSize maxOrder, isFree := true, isMmap := false, order := maxOrder,
    next := base + startSize * (1024 * (i + 1)),
    prev := if i = 0 then 0 else base + startSize * (1024 * (i - 1)) }

theorem block_addr (base i : ℕ) : base + i * maxSize = base + startSize * (1024 * i) := by
  unfold maxSize startSize; omega

theorem slots_setHdr (m : Mem) (i : ℕ) (h : MallocMetadata) :
    slots base (setHdr m (base + startSize * i) h) = Function.update (slots base m) i
      { cookie := h.cookie % 2 ^ 32, size := h.size % 2 ^ 64, isFree := h.isFree,
        isMmap := h.isMmap, order := toInt32 (ofInt32 h.order % 2 ^ 32), next := h.next % 2 ^ 64,
        prev := h.prev % 2 ^ 64 } := by
  simp only [setHdr, slots_setPrev, slots_setNext, slots_setOrder, slots_setIsMmap, slots_setIsFree,
    slots_setSize, slots_setCookie, Function.update_self, Function.update_idem]

theorem setHdr_out (m : Mem) {a x : ℕ} (h : MallocMetadata) (hx : x < a ∨ a + 40 ≤ x) :
    setHdr m a h x = m x := by
  rw [setHdr, setPrev_out _ _ _ hx, setNext_out _ _ _ hx, setOrder_out _ _ _ hx, setIsMmap_out _ _ _ hx,
    setIsFree_out _ _ _ hx, setSize_out _ _ _ hx, setCookie_out _ _ _ hx]

theorem initBlock_eq {s : State} {i : ℕ} (hA : Arena base) (hck : s.cookie < 2 ^ 32) (hi : i < 32) :
    ∃ m, initBlock base s i = { s with
        mem := m
        freed := Function.update s.freed maxOrder
          (s.freed maxOrder ++ [base + startSize * (1024 * i)]) } ∧
      slots base m = Function.update (slots base s.mem) (1024 * i) (initHdr base s.cookie i) ∧
      ∀ x, x < base + startSize * (1024 * i) ∨ base + startSize * (1024 * i) + 40 ≤ x →
        m x = s.mem x := by
  have hlt : ∀ j, j ≤ 32 → base + startSize * (1024 * j) < 2 ^ 64 := fun j hj =>
    (Nat.add_le_add_left (Nat.mul_le_mul_left startSize (show 1024 * j ≤ arenaUnits by
      unfold arenaUnits; omega)) base).trans_lt hA.fits
  have hn := hlt (i + 1) (by omega)
  have hp : (if i = 0 then 0 else base + startSize * (1024 * (i - 1))) < 2 ^ 64 := by
    split_ifs
    exacts [Nat.two_pow_pos 64, hlt (i - 1) (by omega)]
  have hs : (maxSize - sizeofMetadata) % 2 ^ 64 = payloadSize maxOrder := by
    simp [maxSize, sizeofMetadata, payloadSize, startSize, maxOrder]
  unfold initBlock
  simp only [block_addr]
  refine ⟨_, rfl, ?_, fun x hx => setHdr_out _ _ hx⟩
  rw [slots_setHdr]
  simp only [initHdr, Nat.mod_eq_of_lt hn, Nat.mod_eq_of_lt hp, hs, Nat.mod_eq_of_lt hck,
    toInt32_ofInt32_nat (show maxOrder ≤ 15 by decide)]

/-- **The loop of the set-up**, by induction on the number of blocks written. -/
theorem initBlocks_eq {s : State} {n : ℕ} (hA : Arena base) (hck : s.cookie < 2 ^ 32) (hn : n ≤ 32) :
    ∃ m, (List.range n).foldl (initBlock base) s = { s with
        mem := m
        freed := Function.update s.freed maxOrder
          (s.freed maxOrder ++ (List.range n).map fun i => base + startSize * (1024 * i)) } ∧
      (∀ i, i < n → slots base m (1024 * i) = initHdr base s.cookie i) ∧
      ∀ x, (∀ i < n, x < base + startSize * (1024 * i) ∨ base + startSize * (1024 * i) + 40 ≤ x) →
        m x = s.mem x := by
  induction n with
  | zero => exact ⟨s.mem, by simp, by simp, fun _ _ => rfl⟩
  | succ n ih =>
    obtain ⟨m, he, hm, hout⟩ := ih (by omega)
    rw [List.range_succ, List.foldl_append, he]
    obtain ⟨m', he', hm', hout'⟩ := initBlock_eq (i := n) (s := { s with
        mem := m
        freed := Function.update s.freed maxOrder
          (s.freed maxOrder ++ (List.range n).map fun i => base + startSize * (1024 * i)) })
      hA hck (by omega)
    refine ⟨m', ?_, fun i hi => ?_, fun x hx => ?_⟩
    · simp only [List.foldl_cons, List.foldl_nil, he']
      simp
    · rw [hm']
      by_cases hin : i = n
      · rw [hin, Function.update_self]
      · rw [Function.update_of_ne (by omega), hm i (by omega)]
    · exact (hout' x (hx n (Nat.lt_succ_self n))).trans (hout x fun i hi => hx i (by omega))

end Write

/-! ## The layout -/

theorem fresh_eq {a : ℕ} {c : Cell} (h : fresh maxOrder arenaUnits a = some c) :
    ∃ i < 32, a = 1024 * i ∧ c = ⟨maxOrder, true⟩ := by
  unfold fresh at h
  split_ifs at h with hc
  obtain ⟨hlt, i, rfl⟩ := hc
  refine ⟨i, ?_, rfl, (Option.some.inj h).symm⟩
  unfold arenaUnits maxOrder at hlt
  omega

theorem fresh_block {i : ℕ} (hi : i < 32) :
    fresh maxOrder arenaUnits (1024 * i) = some ⟨maxOrder, true⟩ := by
  rw [fresh, if_pos ⟨by unfold arenaUnits; omega, ⟨i, rfl⟩⟩]

/-- The state after the set-up. -/
theorem initArena_eq (m : Mem) {ck brk : ℕ} (h : Boots ck brk) (ok : Bool) :
    ∃ m' b, initArena (boot m ck brk) ok =
        { mem := m', head := arenaBase brk, mmapHead := 0,
          freed := Function.update (fun _ => []) maxOrder
            ((List.range 32).map fun i => arenaBase brk + startSize * (1024 * i)),
          cookie := ck, brk := b, unmapped := [] } ∧
      (∀ i < 32, slots (arenaBase brk) m' (1024 * i) =
        { initHdr (arenaBase brk) ck i with next := nextAddr (arenaBase brk) (1024 * i) maxOrder }) ∧
      Outside (arenaBase brk) (fresh maxOrder arenaUnits) m m' := by
  have hA := h.arena
  set base := arenaBase brk
  obtain ⟨b, hb⟩ : ∃ b, initArena (boot m ck brk) ok =
      let s := (List.range 32).foldl (initBlock base) { boot m ck brk with head := base, brk := b }
      { s with mem := setNext s.mem (base + 31 * maxSize) 0 } := ⟨_, rfl⟩
  obtain ⟨m', he, hm, hout⟩ := initBlocks_eq (n := 32) (s := { boot m ck brk with head := base, brk := b })
    hA h.cookie le_rfl
  refine ⟨setNext m' (base + startSize * (1024 * 31)) 0, b, ?_, fun i hi => ?_, fun x hx => ?_⟩
  · rw [hb, he]
    simp only [boot, block_addr, List.nil_append]
  · rw [slots_setNext, Function.update_apply]
    have hend : 1024 * i + 2 ^ maxOrder = arenaUnits ↔ 1024 * i = 1024 * 31 := by
      unfold maxOrder arenaUnits; omega
    simp only [nextAddr, hend]
    split_ifs with h₁
    · obtain rfl : i = 31 := by omega
      rw [hm 31 (by norm_num)]
      rfl
    · rw [hm i hi]
      rfl
  · rw [setNext_out _ _ _ (hx _ _ (fresh_block (i := 31) (by norm_num)))]
    exact hout x fun i hi => hx _ _ (fresh_block hi)

theorem initArena_cookie (m : Mem) {ck brk : ℕ} (h : Boots ck brk) (ok : Bool) :
    (initArena (boot m ck brk) ok).cookie = ck := by
  obtain ⟨m', b, he, -⟩ := initArena_eq m h ok
  rw [he]

theorem initArena_outside (m : Mem) {ck brk : ℕ} (h : Boots ck brk) (ok : Bool) :
    Outside (arenaBase brk) (fresh maxOrder arenaUnits) m (initArena (boot m ck brk) ok).mem := by
  obtain ⟨m', b, he, -, hout⟩ := initArena_eq m h ok
  rw [he]
  exact hout

/-- **The first call sets up an arena of 32 free blocks.** -/
theorem inv_initArena (m : Mem) {ck brk : ℕ} (h : Boots ck brk) (ok : Bool) :
    Inv (arenaBase brk) (initArena (boot m ck brk) ok) (fresh maxOrder arenaUnits) [] := by
  have hA := h.arena
  obtain ⟨m', b, he, hH, -⟩ := initArena_eq m h ok
  set base := arenaBase brk
  rw [he]
  refine ⟨hA, rfl, ⟨⟨tiles_fresh (pow_dvd_pow 2 (by decide)) (Nat.two_pow_pos 15), ?_, ?_, ?_, ?_⟩, ⟨?_, ?_⟩, h.cookie⟩,
    ⟨rfl, by simp, by simp, .nil⟩⟩
  · intro a c hc
    obtain ⟨i, hi, rfl, rfl⟩ := fresh_eq hc
    simp only [hH i hi]
    exact ⟨rfl, rfl, rfl, rfl, by dsimp only⟩
  · exact congrArg MallocMetadata.prev (hH 0 (by norm_num))
  · intro a c hc hlt
    obtain ⟨i, hi, rfl, rfl⟩ := fresh_eq hc
    have hlt : 1024 * i + 2 ^ 10 < 2 ^ 15 := hlt
    exact congrArg MallocMetadata.prev (hH (i + 1) (by omega))
  · intro a c hc _
    obtain ⟨i, hi, rfl, rfl⟩ := fresh_eq hc
    simp only [hH i hi]
    rfl
  · intro k _
    simp only [Function.update_apply]
    split_ifs
    · rw [List.pairwise_map]
      exact List.pairwise_lt_range.imp fun hlt => by unfold startSize; omega
    · exact .nil
  · intro k _ p
    simp only [Function.update_apply]
    split_ifs with hk
    · rw [List.mem_map, hk]
      constructor
      · rintro ⟨i, hi, rfl⟩
        exact ⟨1024 * i, rfl, fresh_block (List.mem_range.mp hi)⟩
      · rintro ⟨a, rfl, ha⟩
        obtain ⟨i, hi, rfl, -⟩ := fresh_eq ha
        exact ⟨i, List.mem_range.mpr hi, rfl⟩
    · simp only [List.not_mem_nil, false_iff]
      rintro ⟨a, rfl, ha⟩
      obtain ⟨i, hi, rfl, hc⟩ := fresh_eq ha
      exact hk (congrArg Cell.order hc)

/-! ## The first call -/

/-- **What is expected of the first call**, from the break `b`: the arena is aligned and lies between `b` and
the new break, or `sbrk` has failed, and the call returns `NULL` and leaves `head` as it was. -/
def SetsUp (b : ℕ) (sys : Sys) (s : State) (p : ℕ) : Prop :=
  (32 * maxSize ∣ s.head ∧ b ≤ s.head ∧ s.head + 32 * maxSize ≤ s.brk) ∨
    (sys.sbrkOk = false ∧ p = 0 ∧ s.head = 0)

/-- The program break after the set-up. -/
def brkAfter (b : ℕ) (ok : Bool) : ℕ :=
  if b % (32 * maxSize) ≠ 0 ∧ ok then arenaBase b + 32 * maxSize else b

section First

variable {ck b size : ℕ} (m : Mem) (sys : Sys)

theorem initArena_brk (ok : Bool) : (initArena (boot m ck b) ok).brk = brkAfter b ok := by
  have hfold : ∀ (l : List ℕ) (head : ℕ) (s : State), (l.foldl (initBlock head) s).brk = s.brk := by
    intro l head s
    induction l generalizing s with
    | nil => rfl
    | cons i l ih =>
      rw [List.foldl_cons, ih]
      cases s
      rfl
  obtain ⟨A, hA⟩ : ∃ A, 32 * maxSize = A := ⟨_, rfl⟩
  have hmod : b % A < A := Nat.mod_lt b (by rw [← hA]; unfold maxSize; norm_num)
  have hbrk : (boot m ck b).brk = b := rfl
  rw [brkAfter, arenaBase]
  simp only [initArena, hfold, hA, hbrk]
  by_cases h : b % A = 0
  · simp [h]
  · have hpos : 0 < A - b % A := by omega
    simp [h, hpos]

/-- The set-up comes first. -/
theorem malloc_boot (h : Boots ck b) (n : ℕ) : malloc sys n (boot m ck b) size =
    malloc sys n (initArena (boot m ck b) sys.sbrkOk) size := by
  have hne := (inv_initArena m h sys.sbrkOk).head_ne
  conv_lhs => rw [malloc, if_pos (show (boot m ck b).head = 0 from rfl)]
  conv_rhs => rw [malloc, if_neg hne]

/-- **The first call returns**, whatever is asked for, and leaves the head and the break of the set-up. -/
theorem first_returns (h : Boots ck b) (size : ℕ) : ∃ s' p,
    Returns (fun n => smalloc sys n (boot m ck b) size) (s', p) ∧
      s'.head = arenaBase b ∧ s'.brk = brkAfter b sys.sbrkOk := by
  have hinv := inv_initArena m h sys.sbrkOk
  have hbrk : (initArena (boot m ck b) sys.sbrkOk).brk = _ := initArena_brk m sys.sbrkOk
  have hhead := hinv.head
  simp only [smalloc, malloc_boot m sys h]
  generalize initArena (boot m ck b) sys.sbrkOk = s at hinv hbrk hhead ⊢
  by_cases hbad : size = 0 ∨ maxSizeToAllocate < size
  · exact ⟨s, 0, ⟨0, fun n _ => malloc_invalid sys hinv hbad⟩, hhead, hbrk⟩
  by_cases hmap : maxSize ≤ size
  · -- there is no mapped block yet, so there is no list to walk through
    have hm₀ : s.mmapHead = 0 := hinv.maps.linked
    cases hsys : sys.mmapAddr with
    | none =>
      refine ⟨s, 0, ⟨0, fun n _ => ?_⟩, hhead, hbrk⟩
      show malloc sys n s size = _
      rw [malloc, if_neg hinv.head_ne]
      simp only [if_neg hbad, if_pos hmap, hsys]
    | some addr =>
      obtain ⟨t, ht, hframe⟩ : ∃ t, (∀ n, linkMmap n { s with
          mem := s.mem.fill addr (sizeofMetadata + size) 0 } addr size = .ret t) ∧
          t.head = s.head ∧ t.brk = s.brk := by
        simp only [linkMmap, if_pos hm₀]
        exact ⟨_, fun _ => rfl, rfl, rfl⟩
      refine ⟨t, addr + sizeofMetadata, ⟨0, fun n _ => ?_⟩, hframe.1.trans hhead, hframe.2.trans hbrk⟩
      show malloc sys n s size = _
      rw [malloc, if_neg hinv.head_ne]
      simp only [if_neg hbad, if_pos hmap, hsys, ht, Outcome.ret_bind]
  by_cases hfit : size ≤ payloadSize maxOrder
  · obtain ⟨k, hkle, hk⟩ := exists_leastOrder hfit
    obtain ⟨j, a, ht⟩ := exists_takes hkle (fresh_block (i := 0) (by norm_num))
    obtain ⟨m', f, he, -⟩ := malloc_heap sys hinv (by omega) (by omega) hk ht (Nat.lt_succ_self maxOrder)
    exact ⟨_, _, settles_malloc.returns he, hhead, hbrk⟩
  · refine ⟨s, 0, ⟨0, fun n _ => malloc_null sys hinv (by omega) (by omega) fun j a hj hB => ?_⟩, hhead, hbrk⟩
    obtain ⟨i, -, -, hc⟩ := fresh_eq hB
    cases hc
    exact hfit hj

/-- **The first call sets up the arena below the new break exactly if the old break was not aligned and
`sbrk` succeeds.** An aligned break is not moved at all, and the answer of `sbrk` is not looked at. -/
theorem sets_up_iff (h : Boots ck b) (size : ℕ) :
    (∃ s' p, Returns (fun n => smalloc sys n (boot m ck b) size) (s', p) ∧ SetsUp b sys s' p) ↔
      b % (32 * maxSize) ≠ 0 ∧ sys.sbrkOk = true := by
  obtain ⟨s', p, hret, hhead, hbrk⟩ := first_returns m sys h size
  have hA := h.arena
  have hpos := hA.pos
  have hle : b ≤ arenaBase b := Nat.le_add_right _ _
  have hmax : 0 < 32 * maxSize := by unfold maxSize; norm_num
  constructor
  · rintro ⟨t, q, hret', hup⟩
    obtain ⟨rfl, rfl⟩ := Prod.mk.inj (hret.unique hret')
    rcases hup with ⟨-, -, hend⟩ | ⟨-, -, hnull⟩
    · by_contra hno
      rw [hhead, hbrk, brkAfter, if_neg hno] at hend
      omega
    · omega
  · rintro ⟨hmod, hok⟩
    refine ⟨s', p, hret, .inl ⟨?_, hhead ▸ hle, ?_⟩⟩
    · rw [hhead]
      exact hA.aligned
    · rw [hhead, hbrk, brkAfter, if_pos ⟨hmod, hok⟩]

end First

/-- The break of the other examples is not aligned. -/
theorem sets_up_iff_unaligned : ∃ s' p,
    Returns (fun n => smalloc ⟨true, none⟩ n (boot (fun _ => 0) 0 4198400) 1) (s', p) ∧
      SetsUp 4198400 ⟨true, none⟩ s' p :=
  (sets_up_iff (fun _ => 0) ⟨true, none⟩
    ⟨by norm_num, by norm_num, by unfold maxSize; norm_num⟩ 1).mpr ⟨by unfold maxSize; norm_num, rfl⟩

/-- **An aligned break**: the call returns with `head` at the break, and nothing has been asked of
`sbrk`. -/
theorem aligned_break_not_set_up : ¬ ∃ s' p,
    Returns (fun n => smalloc ⟨true, none⟩ n (boot (fun _ => 0) 0 8388608) 1) (s', p) ∧
      SetsUp 8388608 ⟨true, none⟩ s' p := by
  rintro ⟨t, q, hret', hup⟩
  obtain ⟨s', p, hret, hhead, hbrk⟩ := first_returns (fun _ => 0) ⟨true, none⟩
    (show Boots 0 8388608 from ⟨by norm_num, by norm_num, by unfold maxSize; norm_num⟩) 1
  obtain ⟨rfl, rfl⟩ := Prod.mk.inj (hret.unique hret')
  have hmod : 8388608 % (32 * maxSize) = 0 := by unfold maxSize; norm_num
  rw [arenaBase, if_pos hmod] at hhead
  rw [brkAfter, if_neg fun h => h.1 hmod] at hbrk
  unfold SetsUp maxSize at hup
  omega

end OsHomework.Malloc3
