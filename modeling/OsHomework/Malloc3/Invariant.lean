import OsHomework.Malloc3.Init

/-!
# `malloc_3`: the representation invariant

The invariant as one reads it off the data structure: the list from `head`, the headers of its
blocks, and `freed[]`.

* `RIList s l`, `RI s`: the blocks `l` linked from `head` tile the arena, and `freed[k]` holds
  exactly those of order `k` that are marked free;
* **`ri_iff`**: this is the same as saying that the headers are those of some layout.
-/

set_option autoImplicit false

namespace OsHomework.Malloc3

open Buddy

/-- The length in bytes of the block at `a`, header included. -/
def blockLen (m : Mem) (a : ℕ) : ℕ := startSize * 2 ^ (hdr m a).order.toNat

theorem blockLen_pos {m : Mem} {a : ℕ} : 0 < blockLen m a :=
  Nat.mul_pos (by decide) (Nat.two_pow_pos _)

/-- The header of a block of the arena. -/
structure BlockOk (s : State) (a : ℕ) : Prop where
  cookie : (hdr s.mem a).cookie = s.cookie
  isMmap : (hdr s.mem a).isMmap = false
  order_nonneg : 0 ≤ (hdr s.mem a).order
  order_le : (hdr s.mem a).order ≤ maxOrder
  size : (hdr s.mem a).size = blockLen s.mem a - sizeofMetadata
  aligned : blockLen s.mem a ∣ a - s.head

/-- **The representation invariant**, with `l` the blocks from `head` on. -/
structure RIList (s : State) (l : List ℕ) : Prop where
  arena : Arena s.head
  list : Contig (fun a => (hdr s.mem a).next) (fun a => (hdr s.mem a).prev) (blockLen s.mem) s.head
    (s.head + 32 * maxSize) l
  headPrev : (hdr s.mem s.head).prev = 0
  blocks : ∀ a ∈ l, BlockOk s a
  sorted : ∀ k ≤ maxOrder, (s.freed k).Pairwise (· < ·)
  freed : ∀ k ≤ maxOrder, ∀ a, a ∈ s.freed k ↔
    a ∈ l ∧ (hdr s.mem a).isFree = true ∧ (hdr s.mem a).order = k

/-- The representation invariant. -/
def RI (s : State) : Prop := ∃ l, RIList s l

theorem arena_end (base : ℕ) : base + 32 * maxSize = base + startSize * arenaUnits := by
  unfold maxSize startSize arenaUnits; omega

/-! ## From a layout to the list -/

section ToList

variable {base : ℕ} {s : State} {B : Layout}

theorem Repr.blockLen (h : Repr base s B none) {a : ℕ} {c : Cell} (ha : B a = some c) :
    blockLen s.mem (base + startSize * a) = startSize * 2 ^ c.order := by
  rw [Malloc3.blockLen, hdr_slot, (h.heap.hdrs ha).order, Int.toNat_natCast]

/-- The list from the block at `u` on; the induction is on the distance to the end. -/
theorem Repr.exists_contig (hA : Arena base) (h : Repr base s B none) :
    ∀ (n : ℕ) {u : ℕ} {c : Cell}, arenaUnits - u = n → B u = some c →
      ∃ l, Contig (fun a => (hdr s.mem a).next) (fun a => (hdr s.mem a).prev) (Malloc3.blockLen s.mem)
          (base + startSize * u) (base + 32 * maxSize) ((base + startSize * u) :: l) ∧
        ∀ a, a ∈ (base + startSize * u) :: l ↔ ∃ v c, u ≤ v ∧ B v = some c ∧ a = base + startSize * v
  | n, u, c, hn, hu => by
    have hT := h.heap.tiles
    have hfit := hT.fits hu
    have hpos := Nat.two_pow_pos c.order
    have hHu := h.heap.hdrs hu
    have h0 : base + startSize * u ≠ 0 := by have := hA.pos; omega
    have hlen := h.blockLen hu
    -- the blocks from `u` on are `u` and those from its end on
    have key : ∀ v d, u ≤ v → B v = some d → v = u ∨ u + 2 ^ c.order ≤ v := by
      intro v d huv hv
      by_contra hc
      rw [hT.inner hu (by omega) (by omega)] at hv
      simp at hv
    by_cases hend : u + 2 ^ c.order = arenaUnits
    · refine ⟨[], ⟨⟨rfl, h0, ?_⟩, List.pairwise_singleton _ _, .singleton _, .singleton _, ?_⟩, ?_⟩
      · show (slots base s.mem u).next = 0
        rw [hHu.next, nextAddr, if_pos hend]
      · simp only [List.getLast?_singleton, Option.mem_def, Option.some.injEq]
        rintro a rfl
        rw [hlen, arena_end, ← hend]
        ring
      · intro a
        rw [List.mem_singleton]
        constructor
        · exact fun he => ⟨u, c, le_rfl, hu, he⟩
        · rintro ⟨v, d, huv, hv, rfl⟩
          rcases key v d huv hv with rfl | hle
          · rfl
          · have := hT.lt hv
            omega
    · have hlt : u + 2 ^ c.order < arenaUnits := lt_of_le_of_ne hfit hend
      obtain ⟨d, hd⟩ := hT.next hu hlt
      obtain ⟨l, hl, hmem⟩ := Repr.exists_contig hA h (arenaUnits - (u + 2 ^ c.order)) rfl hd
      refine ⟨_, hl.cons h0 ?_ (h.heap.prevs hu hlt) ?_ ?_, ?_⟩
      · unfold startSize; omega
      · rw [hlen]; ring
      · show (slots base s.mem u).next = _
        rw [hHu.next, nextAddr, if_neg hend]
      · intro a
        rw [List.mem_cons, hmem]
        constructor
        · rintro (rfl | ⟨v, e, hv, hB, rfl⟩)
          · exact ⟨u, c, le_rfl, hu, rfl⟩
          · exact ⟨v, e, by omega, hB, rfl⟩
        · rintro ⟨v, e, huv, hv, rfl⟩
          rcases key v e huv hv with rfl | hle
          · exact .inl rfl
          · exact .inr ⟨v, e, hle, hv, rfl⟩
  termination_by n => n

/-- The headers of a layout satisfy the invariant, with its blocks as the list. -/
theorem Repr.riList (hA : Arena base) (hh : s.head = base) (h : Repr base s B none) :
    ∃ l, RIList s l ∧ ∀ a, a ∈ l ↔ ∃ v c, B v = some c ∧ a = base + startSize * v := by
  have hT := h.heap.tiles
  obtain ⟨c, hc⟩ := hT.first
  obtain ⟨l, hl, hmem⟩ := h.exists_contig hA _ rfl hc
  simp only [Nat.zero_le, true_and, Nat.mul_zero, Nat.add_zero] at hl hmem
  refine ⟨_, ⟨hh ▸ hA, hh ▸ hl, ?_, ?_, fun k hk => h.lists.sorted hk, ?_⟩, hmem⟩
  · rw [hh]
    exact h.heap.headPrev
  · intro a ha
    obtain ⟨v, d, hv, rfl⟩ := (hmem a).mp ha
    have hH := h.heap.hdrs hv
    have hle := hT.le_max hv
    refine ⟨hH.cookie, hH.isMmap, ?_, ?_, ?_, ?_⟩
    · rw [hdr_slot, hH.order]; omega
    · rw [hdr_slot, hH.order]; omega
    · rw [h.blockLen hv]; exact hH.size
    · rw [h.blockLen hv, hh, Nat.add_sub_cancel_left]
      exact Nat.mul_dvd_mul_left _ (hT.aligned hv)
  · intro k hk a
    rw [h.lists.mem hk, hmem]
    constructor
    · rintro ⟨v, rfl, hv⟩
      exact ⟨⟨v, _, hv, rfl⟩, h.heap.marks hv (by simp), (h.heap.hdrs hv).order⟩
    · rintro ⟨⟨v, ⟨j, f⟩, hv, rfl⟩, hfree, hord⟩
      refine ⟨v, rfl, ?_⟩
      rw [hdr_slot, h.heap.marks hv (by simp)] at hfree
      rw [hdr_slot, (h.heap.hdrs hv).order] at hord
      simp only at hfree hord
      rw [hv, hfree, Int.ofNat.inj hord]

end ToList

/-! ## From the list to a layout -/

section ToLayout

variable {s : State} {l : List ℕ}

/-- The layout that a list of blocks describes. -/
def layoutOf (s : State) (l : List ℕ) : Layout := fun u =>
  if s.head + startSize * u ∈ l then
    some ⟨(slots s.head s.mem u).order.toNat, (slots s.head s.mem u).isFree⟩
  else none

theorem layoutOf_eq_some {u : ℕ} {c : Cell} : layoutOf s l u = some c ↔
    s.head + startSize * u ∈ l ∧ c = ⟨(slots s.head s.mem u).order.toNat, (slots s.head s.mem u).isFree⟩ := by
  unfold layoutOf
  split_ifs with h
  · simp [h, eq_comm]
  · simp [h]

namespace RIList

variable (h : RIList s l)
include h

/-- Every block starts at a multiple of 128 from `head`. -/
theorem exists_slot {a : ℕ} (ha : a ∈ l) : ∃ u, a = s.head + startSize * u := by
  obtain ⟨q, hq⟩ := (h.blocks a ha).aligned
  have := h.list.head_le a ha
  refine ⟨2 ^ (hdr s.mem a).order.toNat * q, ?_⟩
  rw [← Nat.mul_assoc, ← blockLen, ← hq]
  omega

theorem head_mem : s.head ∈ l := by
  cases hl : l with
  | nil =>
    have := h.list.linked
    rw [hl] at this
    exact absurd this h.arena.pos.ne'
  | cons a l' =>
    have := h.list.linked
    rw [hl] at this
    rw [this.1]
    exact List.mem_cons_self

theorem cell {u : ℕ} {c : Cell} (hu : layoutOf s l u = some c) :
    s.head + startSize * u ∈ l ∧ (slots s.head s.mem u).order = c.order ∧
      (slots s.head s.mem u).isFree = c.free ∧
      blockLen s.mem (s.head + startSize * u) = startSize * 2 ^ c.order := by
  obtain ⟨hmem, rfl⟩ := layoutOf_eq_some.mp hu
  have := (h.blocks _ hmem).order_nonneg
  exact ⟨hmem, (Int.toNat_of_nonneg this).symm, rfl, rfl⟩

theorem tiles : Tiles maxOrder arenaUnits (layoutOf s l) := by
  refine ⟨?_, ?_, ?_, ?_, ?_, ?_⟩
  · exact ⟨_, layoutOf_eq_some.mpr ⟨by simpa using h.head_mem, rfl⟩⟩
  · intro u c hu
    obtain ⟨hmem, ho, -, -⟩ := h.cell hu
    have := (h.blocks _ hmem).order_le
    rw [hdr_slot, ho] at this
    omega
  · intro u c hu
    obtain ⟨hmem, -, -, hlen⟩ := h.cell hu
    have := (h.blocks _ hmem).aligned
    rw [hlen, Nat.add_sub_cancel_left] at this
    exact Nat.dvd_of_mul_dvd_mul_left (by decide) this
  · intro u c hu
    obtain ⟨hmem, -, -, hlen⟩ := h.cell hu
    have := (h.list.next_eq (fun _ _ => blockLen_pos) _ hmem).1
    rw [hlen, arena_end] at this
    unfold startSize at this
    omega
  · intro u c hu hlt
    obtain ⟨hmem, -, -, hlen⟩ := h.cell hu
    have := (h.list.next_mem _ hmem (by rw [hlen, arena_end]; unfold startSize; omega)).1
    rw [hlen] at this
    exact ⟨_, layoutOf_eq_some.mpr ⟨by rwa [Nat.mul_add, ← Nat.add_assoc], rfl⟩⟩
  · intro u c v hu h₁ h₂
    obtain ⟨hmem, -, -, hlen⟩ := h.cell hu
    rw [layoutOf, if_neg]
    intro hv
    have := h.list.not_inside _ hmem _ hv
    rw [hlen] at this
    unfold startSize at this
    omega

theorem repr : Repr s.head s (layoutOf s l) none := by
  refine ⟨⟨h.tiles, ?_, h.headPrev, ?_, ?_⟩, ⟨fun hk => h.sorted _ hk, ?_⟩, ?_⟩
  · intro u c hu
    obtain ⟨hmem, ho, -, hlen⟩ := h.cell hu
    have hok := h.blocks _ hmem
    have hnext := (h.list.next_eq (fun _ _ => blockLen_pos) _ hmem).2
    refine ⟨hok.cookie, ?_, hok.isMmap, ho, ?_⟩
    · exact hok.size.trans (by rw [hlen, payloadSize])
    · rw [hlen, arena_end, hdr_slot] at hnext
      have hiff : s.head + startSize * u + startSize * 2 ^ c.order = s.head + startSize * arenaUnits ↔
          u + 2 ^ c.order = arenaUnits := by unfold startSize; omega
      rw [nextAddr, Nat.mul_add, ← Nat.add_assoc]
      simpa only [hiff] using hnext
  · intro u c hu hlt
    obtain ⟨hmem, -, -, hlen⟩ := h.cell hu
    have := (h.list.next_mem _ hmem (by rw [hlen, arena_end]; unfold startSize; omega)).2
    rwa [hlen, Nat.add_assoc, ← Nat.mul_add] at this
  · intro u c hu _
    exact (h.cell hu).2.2.1
  · intro k hk a
    rw [h.freed k hk]
    constructor
    · rintro ⟨hmem, hfree, hord⟩
      obtain ⟨u, rfl⟩ := h.exists_slot hmem
      refine ⟨u, rfl, layoutOf_eq_some.mpr ⟨hmem, ?_⟩⟩
      rw [← hdr_slot, hfree, hord, Int.toNat_natCast]
    · rintro ⟨u, rfl, hu⟩
      obtain ⟨hmem, ho, hf, -⟩ := h.cell hu
      exact ⟨hmem, hf, ho⟩
  · rw [← (h.blocks _ h.head_mem).cookie]
    exact Mem.load_lt s.mem s.head 4

end RIList

/-- **The invariant says that the headers and `freed[]` are those of a layout.** -/
theorem ri_iff : RI s ↔ Arena s.head ∧ ∃ B, Repr s.head s B none := by
  constructor
  · rintro ⟨l, h⟩
    exact ⟨h.arena, _, h.repr⟩
  · rintro ⟨hA, B, h⟩
    obtain ⟨l, hl, -⟩ := h.riList hA rfl
    exact ⟨l, hl⟩

end ToLayout

end OsHomework.Malloc3
