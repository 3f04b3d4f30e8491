import OsHomework.Lib.Buddy
import OsHomework.Malloc3.Model

/-!
# `malloc_3`: the arena as a layout

The arena is 32 blocks of order 10, that is `2 ^ 15` units of 128 bytes from a base address that is
a multiple of its length. `Heap` says that the headers found in memory are those of a dyadic layout,
linked in address order; `Lists` says that `freed[]` holds its free blocks.

* `buddyAddr_slot`: the XOR of the code is the buddy of the layout;
* `Heap base ck H B x`: the headers `H` are those of the layout `B`. The block `x`, if any, is being
  worked on: its header may call it free or not;
* `Lists base freed B`: `freed[k]` holds the free order-`k` blocks in address order, each once;
* `Lists.add`, `Lists.remove`, `Lists.pop`: the three changes the code makes to a list.
-/

set_option autoImplicit false

namespace OsHomework.Malloc3

open Buddy

/-- Units of 128 bytes in the arena. -/
def arenaUnits : ℕ := 2 ^ 15

/-- The arena starts at `base`: a positive multiple of its length, with the end addressable. -/
structure Arena (base : ℕ) : Prop where
  aligned : 2 ^ 22 ∣ base
  pos : 0 < base
  fits : base + startSize * arenaUnits < 2 ^ 64

/-- Blocks of order up to 15 tile the arena. -/
theorem two_pow_dvd_arenaUnits {k : ℕ} (hk : k ≤ 15) : 2 ^ k ∣ arenaUnits := pow_dvd_pow 2 hk

theorem hdr_slot (base i : ℕ) (m : Mem) : hdr m (base + startSize * i) = slots base m i := rfl

/-! ## Arithmetic on orders -/

theorem two_pow_lt {k n : ℕ} (h : k < n) : (2 : ℕ) ^ k < 2 ^ n :=
  Nat.pow_lt_pow_right (by norm_num) h

/-- From order 24 on the product overflows. -/
theorem blockBytes_ofNat {k : ℕ} (hk : k ≤ 23) : blockBytes (k : ℤ) = .ret (startSize * 2 ^ k) := by
  have h := two_pow_lt (show k < 24 by omega)
  rw [blockBytes, pow2, if_pos (by omega), Outcome.ret_bind, Int.toNat_natCast,
    if_pos (by unfold startSize; omega), mul_comm]

theorem slot_xor {base a k : ℕ} (hb : Arena base) (ha : a < arenaUnits) (hk : k < 15) :
    (base + startSize * a) ^^^ (startSize * 2 ^ k) = base + startSize * buddy a k := by
  have hlt := two_pow_lt hk
  obtain ⟨q, rfl⟩ := hb.aligned
  unfold arenaUnits at ha
  rw [startSize, two_pow_mul_add_xor (by omega) (by omega), show (128 : ℕ) = 2 ^ 7 by norm_num,
    two_pow_mul_xor_mul, buddy]

theorem buddyAddr_slot {base a k : ℕ} (hb : Arena base) (ha : a < arenaUnits) (hk : k < 15) :
    buddyAddr (base + startSize * a) (k : ℤ) = .ret (base + startSize * buddy a k) := by
  rw [buddyAddr, blockBytes_ofNat (by omega), Outcome.ret_bind, slot_xor hb ha hk]

theorem toInt32_ofInt32_nat {k : ℕ} (hk : k ≤ 15) : toInt32 (ofInt32 (k : ℤ) % 2 ^ 32) = k :=
  toInt32_ofInt32 (by omega) (by omega)

/-! ## Headers of a layout -/

/-- The address of the block after the order-`k` block at `a`, `0` after the last one. -/
def nextAddr (base a k : ℕ) : ℕ :=
  if a + 2 ^ k = arenaUnits then 0 else base + startSize * (a + 2 ^ k)

/-- The length of the payload of an order-`k` block. -/
def payloadSize (k : ℕ) : ℕ := startSize * 2 ^ k - sizeofMetadata

/-- The header of the order-`k` block at `a`, up to its mark and its `prev`. -/
structure HdrOk (base ck a k : ℕ) (h : MallocMetadata) : Prop where
  cookie : h.cookie = ck
  size : h.size = payloadSize k
  isMmap : h.isMmap = false
  order : h.order = k
  next : h.next = nextAddr base a k

/-- **The headers `H` are those of the layout `B`**, and the block `x` is being worked on. -/
structure Heap (base ck : ℕ) (H : ℕ → MallocMetadata) (B : Layout) (x : Option ℕ) : Prop where
  tiles : Tiles maxOrder arenaUnits B
  hdrs : ∀ {a c}, B a = some c → HdrOk base ck a c.order (H a)
  headPrev : (H 0).prev = 0
  prevs : ∀ {a c}, B a = some c → a + 2 ^ c.order < arenaUnits →
    (H (a + 2 ^ c.order)).prev = base + startSize * a
  marks : ∀ {a c}, B a = some c → x ≠ some a → (H a).isFree = c.free

/-- **`freed[k]` holds the free blocks of order `k`** in address order, each once. -/
structure Lists (base : ℕ) (freed : ℕ → List ℕ) (B : Layout) : Prop where
  sorted : ∀ {k}, k ≤ maxOrder → (freed k).Pairwise (· < ·)
  mem : ∀ {k}, k ≤ maxOrder → ∀ p, p ∈ freed k ↔ ∃ a, p = base + startSize * a ∧ B a = some ⟨k, true⟩

theorem slot_inj {base a b : ℕ} (h : base + startSize * a = base + startSize * b) : a = b := by
  unfold startSize at h; omega

namespace Lists

variable {base : ℕ} {freed : ℕ → List ℕ} {B B' : Layout}

theorem mem_slot (h : Lists base freed B) {k a : ℕ} (hk : k ≤ maxOrder) :
    base + startSize * a ∈ freed k ↔ B a = some ⟨k, true⟩ := by
  rw [h.mem hk]
  constructor
  · rintro ⟨b, hb, hB⟩
    rwa [slot_inj hb]
  · exact fun hB => ⟨a, rfl, hB⟩

theorem update (h : Lists base freed B) {k : ℕ} {l : List ℕ}
    (hs : l.Pairwise (· < ·))
    (hl : ∀ p, p ∈ l ↔ ∃ a, p = base + startSize * a ∧ B' a = some ⟨k, true⟩)
    (hB : ∀ a j, j ≠ k → (B' a = some ⟨j, true⟩ ↔ B a = some ⟨j, true⟩)) :
    Lists base (Function.update freed k l) B' := by
  constructor
  · intro j hj
    rw [Function.update_apply]
    split_ifs
    exacts [hs, h.sorted hj]
  · intro j hj p
    rw [Function.update_apply]
    split_ifs with hjk
    · rw [hjk]; exact hl p
    · simp only [h.mem hj, hB _ _ hjk]

/-- `addToFreeOrder` of a block that was not free. -/
theorem add (h : Lists base freed B) {a k : ℕ} (hk : k ≤ maxOrder)
    (ha : ∀ j, B a ≠ some ⟨j, true⟩) (ha' : B' a = some ⟨k, true⟩) (hB : ∀ b, b ≠ a → ∀ j,
      (B' b = some ⟨j, true⟩ ↔ B b = some ⟨j, true⟩)) :
    Lists base (Function.update freed k ((freed k).orderedInsert (· ≤ ·) (base + startSize * a))) B' := by
  refine h.update ?_ (fun p => ?_) (fun b j hj => ?_)
  · have hle : ((freed k).orderedInsert (· ≤ ·) (base + startSize * a)).Pairwise (· ≤ ·) :=
      List.Pairwise.orderedInsert _ _ ((h.sorted hk).imp le_of_lt)
    have hnd : ((freed k).orderedInsert (· ≤ ·) (base + startSize * a)).Nodup := by
      rw [(List.perm_orderedInsert _ _ _).nodup_iff, List.nodup_cons]
      exact ⟨fun hmem => ha k ((h.mem_slot hk).mp hmem), (h.sorted hk).imp ne_of_lt⟩
    exact (hle.and hnd).imp fun hx => lt_of_le_of_ne hx.1 hx.2
  · rw [List.mem_orderedInsert, h.mem hk]
    constructor
    · rintro (rfl | ⟨b, rfl, hb⟩)
      · exact ⟨a, rfl, ha'⟩
      · exact ⟨b, rfl, (hB b (fun e => ha k (e ▸ hb)) k).mpr hb⟩
    · rintro ⟨b, rfl, hb⟩
      by_cases hba : b = a
      · exact .inl (by rw [hba])
      · exact .inr ⟨b, rfl, (hB b hba k).mp hb⟩
  · by_cases hba : b = a
    · rw [hba, ha']
      simp only [Option.some.injEq, Cell.mk.injEq, and_true]
      exact ⟨fun e => absurd e.symm hj, fun hb => absurd hb (ha j)⟩
    · exact hB b hba j

theorem remove (h : Lists base freed B) {a k : ℕ} (hk : k ≤ maxOrder)
    (ha : B a = some ⟨k, true⟩) (ha' : ∀ j, B' a ≠ some ⟨j, true⟩) (hB : ∀ b, b ≠ a → ∀ j,
      (B' b = some ⟨j, true⟩ ↔ B b = some ⟨j, true⟩)) :
    Lists base (Function.update freed k ((freed k).filter (· ≠ base + startSize * a))) B' := by
  refine h.update ((h.sorted hk).filter _) (fun p => ?_) (fun b j hj => ?_)
  · rw [List.mem_filter, h.mem hk]
    simp only [decide_eq_true_eq]
    constructor
    · rintro ⟨⟨b, rfl, hb⟩, hne⟩
      exact ⟨b, rfl, (hB b (fun e => hne (by rw [e])) k).mpr hb⟩
    · rintro ⟨b, rfl, hb⟩
      have hba : b ≠ a := fun e => ha' k (e ▸ hb)
      exact ⟨⟨b, rfl, (hB b hba k).mp hb⟩, fun e => hba (slot_inj e)⟩
  · by_cases hba : b = a
    · rw [hba, ha]
      simp only [Option.some.injEq, Cell.mk.injEq, and_true]
      exact ⟨fun hb => absurd hb (ha' j), fun e => absurd e.symm hj⟩
    · exact hB b hba j

/-- `pop_front`: the first entry is the lowest free block of its order. -/
theorem pop (h : Lists base freed B) {k p : ℕ} {rest : List ℕ} (hk : k ≤ maxOrder)
    (hf : freed k = p :: rest) : ∃ a, p = base + startSize * a ∧ B a = some ⟨k, true⟩ ∧
      (∀ b, B b = some ⟨k, true⟩ → a ≤ b) ∧
      Lists base (Function.update freed k rest) (mark B a k false) := by
  have hs := h.sorted hk
  rw [hf] at hs
  obtain ⟨a, rfl, ha⟩ := (h.mem hk p).mp (by rw [hf]; exact List.mem_cons_self)
  have hlt := (List.pairwise_cons.mp hs).1
  refine ⟨a, rfl, ha, fun b hb => ?_, h.update hs.of_cons (fun q => ?_) (fun b j hj => ?_)⟩
  · have hmem := (h.mem_slot hk).mpr hb
    rw [hf, List.mem_cons] at hmem
    rcases hmem with he | hr
    · rw [slot_inj he]
    · have := hlt _ hr
      unfold startSize at this
      omega
  · have hq := h.mem hk q
    rw [hf, List.mem_cons] at hq
    constructor
    · intro hr
      obtain ⟨b, rfl, hb⟩ := hq.mp (.inr hr)
      refine ⟨b, rfl, ?_⟩
      rw [mark_apply, if_neg, hb]
      rintro rfl
      exact absurd (hlt _ hr) (lt_irrefl _)
    · rintro ⟨b, rfl, hb⟩
      rw [mark_apply] at hb
      split_ifs at hb with hba
      · simp at hb
      · rcases hq.mpr ⟨b, rfl, hb⟩ with he | hr
        · exact absurd (slot_inj he) hba
        · exact hr
  · rw [mark_apply]
    split_ifs with hba
    · rw [hba, ha]
      simp only [Option.some.injEq, Cell.mk.injEq, Bool.false_eq_true, and_false, and_true, false_iff]
      exact fun e => hj e.symm
    · exact Iff.rfl

end Lists

end OsHomework.Malloc3
