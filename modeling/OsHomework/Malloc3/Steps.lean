import OsHomework.Malloc3.Repr

/-!
# `malloc_3`: one split, one merge

The bodies of the loops, seen on the headers of the arena. Each is computed once as an update of
`slots` (`slots_writeBuddy`, `slots_linkBuddy`, `absorb_slots`), and the layout is followed from
that: **`splitStep_spec`**, **`mergeStep_spec`**. `mergeStep_slots` holds for any two orders.

`Outside base B m m'` is the frame: the memory changed in headers of blocks of `B` only.
-/

set_option autoImplicit false

namespace OsHomework.Malloc3

open Buddy

/-- Only headers of blocks of `B` differ between the two memories. -/
def Outside (base : ℕ) (B : Layout) (m m' : Mem) : Prop :=
  ∀ x, (∀ u c, B u = some c → x < base + startSize * u ∨ base + startSize * u + 40 ≤ x) → m' x = m x

theorem Outside.trans {base : ℕ} {B B₁ B₂ : Layout} {m m₁ m₂ : Mem} (h₁ : Outside base B₁ m m₁)
    (h₂ : Outside base B₂ m₁ m₂) (hB₁ : ∀ u c, B₁ u = some c → ∃ d, B u = some d)
    (hB₂ : ∀ u c, B₂ u = some c → ∃ d, B u = some d) : Outside base B m m₂ := by
  intro x hx
  rw [h₂ x fun u c hu => let ⟨d, hd⟩ := hB₂ u c hu; hx u d hd,
    h₁ x fun u c hu => let ⟨d, hd⟩ := hB₁ u c hu; hx u d hd]

section Slots

variable {base : ℕ} {m : Mem}

theorem slot_mod (hA : Arena base) {a : ℕ} (ha : a < arenaUnits) :
    (base + startSize * a) % 2 ^ 64 = base + startSize * a :=
  Nat.mod_eq_of_lt (by have := hA.fits; unfold startSize at *; omega)

theorem slot_next_mod (a : ℕ) : (slots base m a).next % 2 ^ 64 = (slots base m a).next :=
  Nat.mod_eq_of_lt (hdr_next_lt m _)

theorem subSize_payload {k : ℕ} (hk : k ≤ 23) :
    subSize (startSize * 2 ^ k) sizeofMetadata = payloadSize k := by
  have h := two_pow_lt (show k < 24 by omega)
  have hpos := Nat.two_pow_pos k
  unfold payloadSize subSize startSize sizeofMetadata
  omega

theorem payloadSize_mod {k : ℕ} (hk : k ≤ 15) :
    subSize (startSize * 2 ^ k) sizeofMetadata % 2 ^ 64 = payloadSize k := by
  rw [subSize_payload (by omega)]
  have h := two_pow_lt (show k < 16 by omega)
  unfold payloadSize startSize sizeofMetadata
  omega

/-- Set the `prev` of the block at `u`; nothing at the end of the arena. -/
def prevAt (H : ℕ → MallocMetadata) (u v : ℕ) : ℕ → MallocMetadata :=
  if u = arenaUnits then H else Function.update H u { H u with prev := v }

theorem slots_setPrevIf (hA : Arena base) {a k v : ℕ} :
    slots base (setPrevIf m (nextAddr base a k) v) = prevAt (slots base m) (a + 2 ^ k) (v % 2 ^ 64) := by
  unfold setPrevIf nextAddr prevAt
  split_ifs with h₁ h₂ h₂
  · exact absurd rfl h₂
  · rfl
  · rw [slots_setPrev]
  · exact absurd (by have := hA.pos; omega) h₂

theorem prevAt_of_ne {H : ℕ → MallocMetadata} {u v w : ℕ} (h : w ≠ u) : prevAt H u v w = H w := by
  unfold prevAt
  split_ifs
  · rfl
  · rw [Function.update_of_ne h]

/-- The header of a right half of order `k` at `b`, cut from the block at `a`. -/
def buddyHdr (base ck a k next : ℕ) : MallocMetadata :=
  { cookie := ck, size := payloadSize k, isFree := true, isMmap := false, order := k, next,
    prev := base + startSize * a }

theorem slots_writeBuddy {s : State} (hA : Arena base) (hck : s.cookie < 2 ^ 32) {a b k : ℕ}
    (ha : a < arenaUnits) (hab : a ≠ b) (hk : k ≤ 15) (ho : (slots base s.mem a).order = (k + 1 : ℕ)) :
    ∃ m', writeBuddy s (base + startSize * a) (base + startSize * b) = .ret m' ∧
      slots base m' = Function.update (slots base s.mem) b
        (buddyHdr base s.cookie a k (slots base s.mem a).next) ∧
      ∀ x, x < base + startSize * b ∨ base + startSize * b + 40 ≤ x → m' x = s.mem x := by
  have h1 : (((k + 1 : ℕ) : ℤ) - 1) = (k : ℤ) := by omega
  unfold writeBuddy
  simp only [hdr_slot, slots_setCookie, slots_setPrev, slots_setNext, slots_setIsFree,
    slots_setIsMmap, slots_setOrder, Function.update_self, Function.update_of_ne hab, ho, h1,
    toInt32_ofInt32_nat hk, blockBytes_ofNat (show k ≤ 23 by omega), Outcome.ret_bind]
  refine ⟨_, rfl, ?_, fun x hx => ?_⟩
  · simp only [slots_setCookie, slots_setPrev, slots_setNext, slots_setIsFree, slots_setIsMmap,
      slots_setOrder, slots_setSize, Function.update_self, Function.update_idem,
      toInt32_ofInt32_nat hk, payloadSize_mod hk, slot_mod hA ha, slot_next_mod,
      Nat.mod_eq_of_lt hck, buddyHdr]
  · rw [setSize_out _ _ _ hx, setOrder_out _ _ _ hx, setIsMmap_out _ _ _ hx, setIsFree_out _ _ _ hx,
      setNext_out _ _ _ hx, setPrev_out _ _ _ hx, setCookie_out _ _ _ hx]

theorem slots_linkBuddy (hA : Arena base) {a b k : ℕ} (hb : b < arenaUnits) (hab : a ≠ b)
    (hk : k ≤ 15) (hbn : b ≠ a + 2 ^ (k + 1)) (ho : (slots base m a).order = (k + 1 : ℕ))
    (hn : (slots base m a).next = nextAddr base a (k + 1)) :
    slots base (linkBuddy m (base + startSize * a) (base + startSize * b)) =
      Function.update (prevAt (slots base m) (a + 2 ^ (k + 1)) (base + startSize * b)) a
        { slots base m a with
          order := k, next := base + startSize * b, size := (slots base m b).size % 2 ^ 64 } := by
  have hpos := Nat.two_pow_pos (k + 1)
  have h1 : (((k + 1 : ℕ) : ℤ) - 1) = (k : ℤ) := by omega
  unfold linkBuddy
  simp only [hdr_slot, hn, slots_setSize, slots_setNext, slots_setOrder, slots_setPrevIf hA,
    slot_mod hA hb, Function.update_self, Function.update_idem, Function.update_of_ne hab.symm,
    prevAt_of_ne hbn, prevAt_of_ne (show a ≠ a + 2 ^ (k + 1) by omega), ho, h1,
    toInt32_ofInt32_nat hk]

theorem setPrevIf_out {next v x : ℕ} (h : next ≠ 0 → x < next ∨ next + 40 ≤ x) :
    setPrevIf m next v x = m x := by
  unfold setPrevIf
  split_ifs with h₀
  · exact setPrev_out _ _ _ (h h₀)
  · rfl

theorem linkBuddy_out {a b x : ℕ} (ha : x < a ∨ a + 40 ≤ x)
    (hn : (hdr m a).next ≠ 0 → x < (hdr m a).next ∨ (hdr m a).next + 40 ≤ x) :
    linkBuddy m a b x = m x := by
  unfold linkBuddy
  rw [setSize_out _ _ _ ha, setNext_out _ _ _ ha, setOrder_out _ _ _ ha, setPrevIf_out hn]

end Slots

/-! ## Splitting -/

section Split

variable {base ck : ℕ} {H : ℕ → MallocMetadata} {B : Layout} {a k : ℕ}

theorem HdrOk.congr {h h' : MallocMetadata} {a k : ℕ} (ho : HdrOk base ck a k h)
    (he : { h' with prev := h.prev } = h) : HdrOk base ck a k h' := by
  rw [← he] at ho
  exact ⟨ho.cookie, ho.size, ho.isMmap, ho.order, ho.next⟩

theorem prevAt_prev (H : ℕ → MallocMetadata) (u v w : ℕ) :
    { prevAt H u v w with prev := (H w).prev } = H w := by
  unfold prevAt
  split_ifs
  · rfl
  · by_cases hw : w = u
    · rw [hw, Function.update_self]
    · rw [Function.update_of_ne hw]

/-- **The headers after a split** are those of the split layout. -/
theorem Heap.split (h : Heap base ck H B (some a)) (ha : B a = some ⟨k + 1, false⟩) :
    Heap base ck (Function.update (prevAt (Function.update H (a + 2 ^ k)
      (buddyHdr base ck a k (H a).next)) (a + 2 ^ (k + 1)) (base + startSize * (a + 2 ^ k))) a
        { H a with order := k, next := base + startSize * (a + 2 ^ k), size := payloadSize k })
      (split B a k) (some a) := by
  have hT := h.tiles
  have hpos := Nat.two_pow_pos k
  have hpow : 2 ^ (k + 1) = 2 * 2 ^ k := by ring
  have hfit : a + 2 ^ (k + 1) ≤ arenaUnits := hT.fits ha
  have hin : B (a + 2 ^ k) = none := hT.inner ha (by omega) (by simp only; omega)
  have hHa := h.hdrs ha
  -- the blocks of the new layout, and their headers
  have hself : HdrOk base ck a k { H a with
      order := k, next := base + startSize * (a + 2 ^ k), size := payloadSize k } :=
    ⟨hHa.cookie, rfl, hHa.isMmap, rfl, by unfold nextAddr; rw [if_neg (by omega)]⟩
  have hbuddy : HdrOk base ck (a + 2 ^ k) k (buddyHdr base ck a k (H a).next) := by
    refine ⟨rfl, rfl, rfl, rfl, ?_⟩
    show (H a).next = _
    rw [hHa.next, nextAddr, nextAddr, show a + 2 ^ k + 2 ^ k = a + 2 ^ (k + 1) by omega]
  have key : ∀ {u c}, Buddy.split B a k u = some c → (u = a ∧ c = ⟨k, false⟩) ∨
      (u = a + 2 ^ k ∧ c = ⟨k, true⟩) ∨ (u ≠ a ∧ u ≠ a + 2 ^ k ∧ B u = some c) := by
    intro u c hu
    rw [split_apply] at hu
    split_ifs at hu with h₁ h₂
    · cases hu; exact .inl ⟨h₁, rfl⟩
    · cases hu; exact .inr (.inl ⟨h₂, rfl⟩)
    · exact .inr (.inr ⟨h₁, h₂, hu⟩)
  refine ⟨hT.split ha, ?_, ?_, ?_, ?_⟩
  · intro u c hu
    rcases key hu with ⟨rfl, rfl⟩ | ⟨rfl, rfl⟩ | ⟨h₁, h₂, hu⟩
    · rw [Function.update_self]; exact hself
    · rw [Function.update_of_ne (by omega), prevAt_of_ne (by omega), Function.update_self]
      exact hbuddy
    · rw [Function.update_of_ne h₁]
      refine (h.hdrs hu).congr ?_
      have := prevAt_prev (Function.update H (a + 2 ^ k) (buddyHdr base ck a k (H a).next))
        (a + 2 ^ (k + 1)) (base + startSize * (a + 2 ^ k)) u
      rwa [Function.update_of_ne h₂] at this
  · by_cases h0 : a = 0
    · subst h0; rw [Function.update_self]; exact h.headPrev
    · rw [Function.update_of_ne (Ne.symm h0), prevAt_of_ne (by omega),
        Function.update_of_ne (by omega)]
      exact h.headPrev
  · intro u c hu hlt
    rcases key hu with ⟨rfl, rfl⟩ | ⟨rfl, rfl⟩ | ⟨h₁, h₂, hu⟩
    · simp only at hlt ⊢
      rw [Function.update_of_ne (by omega), prevAt_of_ne (by omega), Function.update_self]
      rfl
    · simp only at hlt ⊢
      rw [show a + 2 ^ k + 2 ^ k = a + 2 ^ (k + 1) by omega] at hlt ⊢
      rw [Function.update_of_ne (by omega), prevAt, if_neg hlt.ne, Function.update_self]
    · obtain ⟨d, hd⟩ := hT.next hu hlt
      have hnb : u + 2 ^ c.order ≠ a + 2 ^ k := fun e => by rw [e, hin] at hd; simp at hd
      -- the block before the successor of `a` is `a` itself
      have hnn : u + 2 ^ c.order ≠ a + 2 ^ (k + 1) := fun e => h₁ <| by
        have := Nat.two_pow_pos c.order
        exact hT.cover_unique hu ha (u := a + 2 ^ (k + 1) - 1) (by omega) (by omega) (by omega)
          (by simp only; omega)
      by_cases hea : u + 2 ^ c.order = a
      · rw [hea, Function.update_self]
        have := h.prevs hu hlt
        rwa [hea] at this
      · rw [Function.update_of_ne hea, prevAt_of_ne hnn, Function.update_of_ne hnb]
        exact h.prevs hu hlt
  · intro u c hu hx
    rcases key hu with ⟨rfl, rfl⟩ | ⟨rfl, rfl⟩ | ⟨h₁, h₂, hu⟩
    · exact absurd rfl hx
    · rw [Function.update_of_ne (by omega), prevAt_of_ne (by omega), Function.update_self]; rfl
    · rw [Function.update_of_ne h₁, ← h.marks hu hx]
      have := congrArg MallocMetadata.isFree (prevAt_prev (Function.update H (a + 2 ^ k)
        (buddyHdr base ck a k (H a).next)) (a + 2 ^ (k + 1)) (base + startSize * (a + 2 ^ k)) u)
      rwa [Function.update_of_ne h₂] at this

/-- What the code has of the arena: its headers, its free lists, and the cookie. -/
structure Repr (base : ℕ) (s : State) (B : Layout) (x : Option ℕ) : Prop where
  heap : Heap base s.cookie (slots base s.mem) B x
  lists : Lists base s.freed B
  cookie : s.cookie < 2 ^ 32

theorem Repr.buddyAddr_hdr {s : State} {x : Option ℕ} {f : Bool} (hA : Arena base) (h : Repr base s B x)
    (ha : B a = some ⟨k, f⟩) : buddyAddr (base + startSize * a) (hdr s.mem (base + startSize * a)).order =
      .ret (base + startSize * buddy a k) := by
  have hk : k ≤ 10 := h.heap.tiles.le_max ha
  rw [hdr_slot, (h.heap.hdrs ha).order]
  exact buddyAddr_slot hA (h.heap.tiles.lt ha) (by simp only; omega)

theorem addToFreeOrder_eq {s : State} {p k : ℕ} (hk : k ≤ maxOrder) :
    addToFreeOrder s p (k : ℤ) = .ret { s with
      freed := Function.update s.freed k ((s.freed k).orderedInsert (· ≤ ·) p) } := by
  rw [addToFreeOrder, freedIdx, if_pos (by omega), Outcome.ret_bind, Int.toNat_natCast]

/-- **One split** cuts the block being worked on in two. -/
theorem splitStep_spec {s : State} (hA : Arena base) (h : Repr base s B (some a))
    (ha : B a = some ⟨k + 1, false⟩) :
    ∃ m f, splitStep s (base + startSize * a) = .ret { s with mem := m, freed := f } ∧
      Repr base { s with mem := m, freed := f } (split B a k) (some a) ∧
      Outside base (split B a k) s.mem m := by
  have hT := h.heap.tiles
  have hpos := Nat.two_pow_pos k
  have hpow : 2 ^ (k + 1) = 2 * 2 ^ k := by ring
  have hM : k + 1 ≤ maxOrder := hT.le_max ha
  unfold maxOrder at hM
  have hfit : a + 2 ^ (k + 1) ≤ arenaUnits := hT.fits ha
  have hHa := h.heap.hdrs ha
  have h1 : (((k + 1 : ℕ) : ℤ) - 1) = (k : ℤ) := by omega
  have hin : B (a + 2 ^ k) = none := hT.inner ha (by omega) (by simp only; omega)
  obtain ⟨m₁, hw, hs₁, hout₁⟩ := slots_writeBuddy hA h.cookie (a := a) (b := a + 2 ^ k) (k := k)
    (by omega) (by omega) (by omega) hHa.order
  have hs₁a : slots base m₁ a = slots base s.mem a := by
    rw [hs₁, Function.update_of_ne (by omega)]
  have hs₁b : slots base m₁ (a + 2 ^ k) =
      buddyHdr base s.cookie a k (slots base s.mem a).next := by rw [hs₁, Function.update_self]
  have hlink := slots_linkBuddy (m := m₁) hA (a := a) (b := a + 2 ^ k) (k := k) (by omega) (by omega)
    (by omega) (by omega) (by rw [hs₁a]; exact hHa.order) (by rw [hs₁a]; exact hHa.next)
  refine ⟨linkBuddy m₁ (base + startSize * a) (base + startSize * (a + 2 ^ k)),
    Function.update s.freed k ((s.freed k).orderedInsert (· ≤ ·) (base + startSize * (a + 2 ^ k))),
    ?_, ⟨?_, ?_, h.cookie⟩, ?_⟩
  · rw [splitStep, hdr_slot, hHa.order, h1, buddyAddr_slot hA (by omega) (by omega),
      buddy_left (hT.aligned ha), Outcome.ret_bind, hw, Outcome.ret_bind, hdr_slot, hs₁b]
    simp only [buddyHdr, addToFreeOrder_eq (show k ≤ maxOrder by unfold maxOrder; omega),
      Outcome.ret_bind]
  · show Heap base s.cookie (slots base (linkBuddy m₁ _ _)) _ _
    have hsize : (slots base m₁ (a + 2 ^ k)).size % 2 ^ 64 = payloadSize k := by
      rw [hs₁b]
      have := two_pow_lt (show k < 11 by omega)
      show payloadSize k % 2 ^ 64 = payloadSize k
      unfold payloadSize startSize sizeofMetadata
      omega
    rw [hlink, hsize, hs₁a, hs₁]
    exact h.heap.split ha
  · refine h.lists.add (by unfold maxOrder; omega) (by simp [hin]) ?_ (fun b hb j => ?_)
    · rw [split_apply, if_neg (by omega), if_pos rfl]
    · rw [split_apply, if_neg hb]
      split_ifs with hba
      · rw [hba, ha]; simp
      · exact Iff.rfl
  · intro x hx
    have hxa := hx a ⟨k, false⟩ (by rw [split_apply, if_pos rfl])
    have hxb := hx (a + 2 ^ k) ⟨k, true⟩ (by rw [split_apply, if_neg (by omega), if_pos rfl])
    rw [linkBuddy_out hxa, hout₁ x hxb]
    rw [hdr_slot, hs₁a, hHa.next, nextAddr]
    intro h₀
    split_ifs at h₀ ⊢ with he
    · exact absurd rfl h₀
    · obtain ⟨d, hd⟩ : ∃ d, B (a + 2 ^ (k + 1)) = some d := hT.next ha (lt_of_le_of_ne hfit he)
      exact hx (a + 2 ^ (k + 1)) d (by rw [split_apply, if_neg (by omega), if_neg (by omega), hd])

end Split

/-! ## Merging -/

section Merge

variable {base : ℕ} {B : Layout}

theorem nextAddr_outside {b x : ℕ} {c : Cell} (hT : Tiles maxOrder arenaUnits B) (hb : B b = some c)
    (hx : ∀ u c, B u = some c → x < base + startSize * u ∨ base + startSize * u + 40 ≤ x)
    (h₀ : nextAddr base b c.order ≠ 0) :
    x < nextAddr base b c.order ∨ nextAddr base b c.order + 40 ≤ x := by
  unfold nextAddr at h₀ ⊢
  split_ifs at h₀ ⊢ with he
  · exact absurd rfl h₀
  · obtain ⟨d, hd⟩ := hT.next hb (lt_of_le_of_ne (hT.fits hb) he)
    exact hx _ d hd

/-- The header of the block at `a` after it has swallowed the block before `next`. -/
def mergedHdr (h : MallocMetadata) (k next : ℕ) : MallocMetadata :=
  { h with next, order := (k + 1 : ℕ), size := payloadSize (k + 1), isFree := true }

/-- **What `absorb` does to the headers**, whatever the order of the swallowed block is; the block after it is
the one after the order-`j` block at `c`. -/
theorem absorb_slots {s : State} (hA : Arena base) {a b c k j : ℕ} (ha : a < arenaUnits) (hab : a ≠ b)
    (hk : k < 15) (ho : (slots base s.mem a).order = k)
    (hn : (slots base s.mem b).next = nextAddr base c j) :
    ∃ m, absorb s (base + startSize * a) (base + startSize * b) = .ret { s with mem := m } ∧
      slots base m = prevAt (Function.update (slots base s.mem) a
        (mergedHdr (slots base s.mem a) k (nextAddr base c j))) (c + 2 ^ j) (base + startSize * a) ∧
      ∀ x, (x < base + startSize * a ∨ base + startSize * a + 40 ≤ x) →
        (nextAddr base c j ≠ 0 → x < nextAddr base c j ∨ nextAddr base c j + 40 ≤ x) →
          m x = s.mem x := by
  have h1 : ((k : ℤ) + 1) = ((k + 1 : ℕ) : ℤ) := by omega
  have hnm : nextAddr base c j % 2 ^ 64 = nextAddr base c j := by rw [← hn, slot_next_mod]
  unfold absorb
  simp only [hdr_slot, slots_setNext, slots_setOrder, slots_setSize, slots_setIsFree,
    Function.update_self, Function.update_of_ne hab.symm, ho, hn, h1, Outcome.ret_bind,
    toInt32_ofInt32_nat (show k + 1 ≤ 15 by omega), blockBytes_ofNat (show k + 1 ≤ 23 by omega)]
  refine ⟨_, rfl, ?_, fun x hx hxn => ?_⟩
  · simp only [slots_setPrevIf hA, slots_setNext, slots_setOrder, slots_setSize, slots_setIsFree,
      Function.update_self, Function.update_idem, slot_mod hA ha, hnm, mergedHdr,
      toInt32_ofInt32_nat (show k + 1 ≤ 15 by omega), payloadSize_mod (show k + 1 ≤ 15 by omega)]
  · rw [setPrevIf_out hxn, setIsFree_out _ _ _ hx, setSize_out _ _ _ hx, setOrder_out _ _ _ hx,
      setNext_out _ _ _ hx]

/-- **The headers after a merge** of two blocks of one order are those of the merged layout. -/
theorem Heap.merge {ck : ℕ} {H : ℕ → MallocMetadata} {a k y : ℕ} {f g : Bool}
    (h : Heap base ck H B (some y)) (hy : y = a ∨ y = a + 2 ^ k) (hk : k < maxOrder)
    (hdvd : 2 ^ (k + 1) ∣ a) (ha : B a = some ⟨k, f⟩) (hb : B (a + 2 ^ k) = some ⟨k, g⟩) :
    Heap base ck (prevAt (Function.update H a (mergedHdr (H a) k (nextAddr base (a + 2 ^ k) k)))
      (a + 2 ^ k + 2 ^ k) (base + startSize * a)) (merge B a k) (some a) := by
  have hT := h.tiles
  have hpos := Nat.two_pow_pos k
  have hpow : 2 ^ (k + 1) = 2 * 2 ^ k := by ring
  have hfit : a + 2 ^ k + 2 ^ k ≤ arenaUnits := hT.fits hb
  have hHa := h.hdrs ha
  have key : ∀ {u c}, Buddy.merge B a k u = some c → (u = a ∧ c = ⟨k + 1, false⟩) ∨
      (u ≠ a ∧ u ≠ a + 2 ^ k ∧ B u = some c) := by
    intro u c hu
    rw [merge_apply] at hu
    split_ifs at hu with h₁ h₂
    · cases hu; exact .inl ⟨h₁, rfl⟩
    · exact .inr ⟨h₁, h₂, hu⟩
  refine ⟨hT.merge hk hdvd ha hb, ?_, ?_, ?_, ?_⟩
  · intro u c hu
    rcases key hu with ⟨rfl, rfl⟩ | ⟨h₁, h₂, hu⟩
    · rw [prevAt_of_ne (by omega), Function.update_self]
      refine ⟨hHa.cookie, rfl, hHa.isMmap, rfl, ?_⟩
      show nextAddr base (u + 2 ^ k) k = nextAddr base u (k + 1)
      rw [nextAddr, nextAddr, show u + 2 ^ k + 2 ^ k = u + 2 ^ (k + 1) by omega]
    · refine (h.hdrs hu).congr ?_
      have := prevAt_prev (Function.update H a (mergedHdr (H a) k (nextAddr base (a + 2 ^ k) k)))
        (a + 2 ^ k + 2 ^ k) (base + startSize * a) u
      rwa [Function.update_of_ne h₁] at this
  · rw [prevAt_of_ne (by omega)]
    by_cases h0 : a = 0
    · subst h0; rw [Function.update_self]; exact h.headPrev
    · rw [Function.update_of_ne (Ne.symm h0)]; exact h.headPrev
  · intro u c hu hlt
    rcases key hu with ⟨rfl, rfl⟩ | ⟨h₁, h₂, hu⟩
    · simp only at hlt ⊢
      rw [show u + 2 ^ (k + 1) = u + 2 ^ k + 2 ^ k by omega] at hlt ⊢
      rw [prevAt, if_neg hlt.ne, Function.update_self]
    · -- the block before the successor of `a + 2 ^ k` is `a + 2 ^ k` itself
      have hnn : u + 2 ^ c.order ≠ a + 2 ^ k + 2 ^ k := fun e => h₂ <| by
        have := Nat.two_pow_pos c.order
        exact hT.cover_unique hu hb (u := a + 2 ^ k + 2 ^ k - 1) (by omega) (by omega) (by omega)
          (by simp only; omega)
      rw [prevAt_of_ne hnn]
      by_cases hea : u + 2 ^ c.order = a
      · rw [hea, Function.update_self]
        have := h.prevs hu hlt
        rwa [hea] at this
      · rw [Function.update_of_ne hea]; exact h.prevs hu hlt
  · intro u c hu hx
    rcases key hu with ⟨rfl, rfl⟩ | ⟨h₁, h₂, hu⟩
    · exact absurd rfl hx
    · have hxy : some y ≠ some u := fun e => by
        have := Option.some.inj e
        omega
      rw [← h.marks hu hxy]
      have := congrArg MallocMetadata.isFree (prevAt_prev (Function.update H a
        (mergedHdr (H a) k (nextAddr base (a + 2 ^ k) k))) (a + 2 ^ k + 2 ^ k)
          (base + startSize * a) u)
      rwa [Function.update_of_ne h₁] at this

theorem removeFreed_eq {s : State} {p k : ℕ} (hk : k ≤ maxOrder) :
    removeFreed s (k : ℤ) p = .ret { s with
      freed := Function.update s.freed k ((s.freed k).filter (· ≠ p)) } := by
  rw [removeFreed, freedIdx, if_pos (by omega), Outcome.ret_bind, Int.toNat_natCast]

/-- **What a merge does**, whatever the orders of the two blocks are: the lower one swallows the
upper one, and the buddy leaves the list of its own order. -/
theorem mergeStep_slots {s : State} (hA : Arena base) {y z i j c t b : ℕ} (hlt : min y z < arenaUnits)
    (hyz : y ≠ z) (hcy : (slots base s.mem y).cookie = s.cookie)
    (hcz : (slots base s.mem z).cookie = s.cookie) (hoz : (slots base s.mem z).order = j)
    (hj : j ≤ maxOrder) (ho : (slots base s.mem (min y z)).order = i) (hi : i < 15)
    (hbud : buddyAddr (base + startSize * min y z) ((i + 1 : ℕ) : ℤ) = .ret b)
    (hn : (slots base s.mem (max y z)).next = nextAddr base c t) :
    ∃ m, mergeStep s (base + startSize * y) (base + startSize * z) =
        .ret ({ s with
            mem := m
            freed := Function.update s.freed j (((s.freed j).filter (· ≠ base + startSize * z)).filter
              (· ≠ base + startSize * y)) },
          base + startSize * min y z, b) ∧
      slots base m = prevAt (Function.update (slots base s.mem) (min y z)
        (mergedHdr (slots base s.mem (min y z)) i (nextAddr base c t))) (c + 2 ^ t)
          (base + startSize * min y z) ∧
      ∀ x, (x < base + startSize * min y z ∨ base + startSize * min y z + 40 ≤ x) →
        (nextAddr base c t ≠ 0 →
          x < nextAddr base c t ∨ nextAddr base c t + 40 ≤ x) → m x = s.mem x := by
  have hkeep : (if base + startSize * y < base + startSize * z then base + startSize * y
      else base + startSize * z) = base + startSize * min y z := by
    unfold startSize; split_ifs <;> omega
  have hgone : (if base + startSize * y < base + startSize * z then base + startSize * z
      else base + startSize * y) = base + startSize * max y z := by
    unfold startSize; split_ifs <;> omega
  obtain ⟨m, habs, hslots, hout⟩ := absorb_slots (s := { s with
      freed := Function.update s.freed j (((s.freed j).filter (· ≠ base + startSize * z)).filter
        (· ≠ base + startSize * y)) }) hA (a := min y z) (b := max y z) (j := t) hlt (by omega)
    hi ho hn
  refine ⟨m, ?_, hslots, hout⟩
  have hord : (slots base m (min y z)).order = ((i + 1 : ℕ) : ℤ) := by
    have hp := prevAt_prev (Function.update (slots base s.mem) (min y z)
      (mergedHdr (slots base s.mem (min y z)) i (nextAddr base c t))) (c + 2 ^ t) (base + startSize * min y z)
        (min y z)
    rw [← hslots, Function.update_self] at hp
    exact congrArg MallocMetadata.order hp
  rw [mergeStep, hdr_slot, hdr_slot, hcz, hcy, if_neg (by simp), hoz]
  simp only [removeFreed_eq hj, Outcome.ret_bind, hdr_slot, hoz, hkeep, hgone, Function.update_self,
    Function.update_idem]
  rw [habs]
  simp only [Outcome.ret_bind, hord, hbud]

/-- **One merge** joins the block being worked on with a free buddy of its order. -/
theorem mergeStep_spec {s : State} {y k : ℕ} (hA : Arena base) (h : Repr base s B (some y))
    (hk : k < maxOrder) (hy : B y = some ⟨k, false⟩) (hz : B (buddy y k) = some ⟨k, true⟩) :
    ∃ m f, mergeStep s (base + startSize * y) (base + startSize * buddy y k) =
        .ret ({ s with mem := m, freed := f }, base + startSize * min y (buddy y k),
          base + startSize * buddy (min y (buddy y k)) (k + 1)) ∧
      Repr base { s with mem := m, freed := f } (merge B (min y (buddy y k)) k)
        (some (min y (buddy y k))) ∧
      Outside base B s.mem m := by
  have hT := h.heap.tiles
  have hdvd : 2 ^ k ∣ y := hT.aligned hy
  obtain ⟨hmin, hmax⟩ := min_buddy hdvd
  have hne := buddy_ne y k
  have hpos := Nat.two_pow_pos k
  have hle10 : k + 1 ≤ 10 := hk
  -- the left and the right half
  obtain ⟨f₁, f₂, ha, hb⟩ := halves hdvd hy hz
  rw [← hmax] at hb
  obtain ⟨m, he, hslots, hout⟩ := mergeStep_slots (i := k) (j := k) (t := k) hA
    (min_lt_of_left_lt (hT.lt hy)) hne.symm (h.heap.hdrs hy).cookie (h.heap.hdrs hz).cookie (h.heap.hdrs hz).order hk.le
    (h.heap.hdrs ha).order (by omega) (buddyAddr_slot hA (by have := hT.lt hy; omega) (by omega))
    (h.heap.hdrs hb).next
  rw [hmax] at hb hslots hout
  set a := min y (buddy y k) with hadef
  -- the second removal finds nothing
  have hno : ((s.freed k).filter (· ≠ base + startSize * buddy y k)).filter
      (· ≠ base + startSize * y) = (s.freed k).filter (· ≠ base + startSize * buddy y k) := by
    rw [List.filter_filter]
    apply List.filter_congr
    intro p hp
    have : p ≠ base + startSize * y := by
      rintro rfl
      rw [h.lists.mem_slot hk.le, hy] at hp
      simp at hp
    simp [this]
  simp only [hno] at he
  refine ⟨m, _, he, ⟨?_, ?_, h.cookie⟩, ?_⟩
  · show Heap base s.cookie (slots base m) _ _
    rw [hslots]
    exact h.heap.merge (by omega) hk hmin ha hb
  · refine h.lists.remove hk.le hz (fun j hj => ?_) (fun b hb' j => ?_)
    · rw [merge_apply] at hj
      split_ifs at hj with h₁ h₂
      · simp at hj
      · omega
    · rw [merge_apply]
      split_ifs with h₁ h₂
      · have : b = y := by omega
        rw [this, hy]; simp
      · have : b = y := by omega
        rw [this, hy]; simp
      · exact Iff.rfl
  · intro x hx
    exact hout x (hx a _ ha) (nextAddr_outside hT hb hx)

end Merge

end OsHomework.Malloc3
