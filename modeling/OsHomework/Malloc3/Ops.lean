import OsHomework.Malloc3.Steps

/-!
# `malloc_3`: splitting and merging to the end

The loops of the allocator on an arena that represents a layout. The induction is on the number of
orders still to go, and the invariant is `Repr` with the block at hand set apart.

* `splitIfPossible_spec`: the loop cuts down to the least order that holds the request;
* **`unionIfPossible_spec`**: if the layout is `Quiet` around the block, the loop computes
  `Buddy.release`;
* **`getFreeBlock_spec`**: which block an allocation takes (`Buddy.Takes`).
-/

set_option autoImplicit false

namespace OsHomework.Malloc3

open Buddy

variable {base : ℕ} {B : Layout}

/-! ## The block at hand -/

/-- The mark of the block at hand is nobody's business. -/
theorem Heap.remark {ck a k : ℕ} {f : Bool} {x : Option ℕ} {H : ℕ → MallocMetadata}
    (h : Heap base ck H B x) (ha : B a = some ⟨k, f⟩) (hx : ∀ u, x = some u → u = a) (g : Bool) :
    Heap base ck H (mark B a k g) (some a) := by
  have key : ∀ {u c}, mark B a k g u = some c → ∃ b, B u = some ⟨c.order, b⟩ ∧
      (u ≠ a → b = c.free) := by
    intro u c hu
    rw [mark_apply] at hu
    split_ifs at hu with hua
    · cases hu
      exact ⟨f, hua ▸ ha, fun hne => absurd hua hne⟩
    · exact ⟨c.free, hu, fun _ => rfl⟩
  refine ⟨h.tiles.mark ha g, ?_, h.headPrev, ?_, ?_⟩
  · intro u c hu
    obtain ⟨b, hb, -⟩ := key hu
    exact (h.hdrs hb :)
  · intro u c hu hlt
    obtain ⟨b, hb, -⟩ := key hu
    exact (h.prevs hb hlt :)
  · intro u c hu hua
    obtain ⟨b, hb, hfree⟩ := key hu
    have hne : u ≠ a := fun e => hua (by rw [e])
    rw [← hfree hne]
    exact h.marks hb fun e => hne (hx u e)

/-- Settling the mark of the block at hand. -/
theorem Repr.settle {s : State} {a k : ℕ} {f : Bool} (h : Repr base s B (some a))
    (ha : B a = some ⟨k, f⟩) :
    Repr base { s with mem := setIsFree s.mem (base + startSize * a) f } B none := by
  refine ⟨⟨h.heap.tiles, ?_, ?_, ?_, ?_⟩, h.lists, h.cookie⟩ <;>
    simp only [slots_setIsFree, Function.update_apply]
  · intro u c hu
    split_ifs with hua
    · subst hua
      have ho := h.heap.hdrs hu
      exact ⟨ho.cookie, ho.size, ho.isMmap, ho.order, ho.next⟩
    · exact h.heap.hdrs hu
  · split_ifs with h0
    · rw [← h0]; exact h.heap.headPrev
    · exact h.heap.headPrev
  · intro u c hu hlt
    split_ifs with he
    · rw [← he]; exact h.heap.prevs hu hlt
    · exact h.heap.prevs hu hlt
  · intro u c hu _
    split_ifs with hua
    · rw [hua, ha] at hu
      cases hu
      rfl
    · exact h.heap.marks hu fun e => hua (Option.some.inj e).symm

/-! ## The split loop -/

theorem payloadSize_mono {i j : ℕ} (h : i ≤ j) : payloadSize i ≤ payloadSize j := by
  have := Nat.pow_le_pow_right (n := 2) (by norm_num) h
  unfold payloadSize startSize sizeofMetadata
  omega

/-- The split test of the code, written on halved sizes, compares with the next smaller order. -/
theorem half_payloadSize {k : ℕ} (hk : k ≤ 15) :
    subSize (payloadSize (k + 1)) sizeofMetadata / 2 = payloadSize k := by
  have h := two_pow_lt (show k < 16 by omega)
  have hpow : 2 ^ (k + 1) = 2 * 2 ^ k := by ring
  have hpos := Nat.two_pow_pos k
  unfold subSize payloadSize startSize sizeofMetadata
  omega

/-- `k` is the least order that holds `size` bytes. -/
structure LeastOrder (size k : ℕ) : Prop where
  fits : size ≤ payloadSize k
  least : ∀ j, j < k → payloadSize j < size

theorem exists_leastOrder {size K : ℕ} (h : size ≤ payloadSize K) : ∃ k ≤ K, LeastOrder size k :=
  have hex : ∃ k, size ≤ payloadSize k := ⟨K, h⟩
  ⟨Nat.find hex, Nat.find_min' hex h, Nat.find_spec hex, fun _ hj => not_le.mp (Nat.find_min hex hj)⟩

theorem LeastOrder.le_iff {size k j : ℕ} (h : LeastOrder size k) : size ≤ payloadSize j ↔ k ≤ j := by
  constructor
  · intro hj
    by_contra hlt
    exact absurd (h.least j (by omega)) (by omega)
  · exact fun hj => h.fits.trans (payloadSize_mono hj)

theorem leastOrder_succ {size k : ℕ} (h₁ : payloadSize k < size) (h₂ : size ≤ payloadSize (k + 1)) :
    LeastOrder size (k + 1) :=
  ⟨h₂, fun _ hj => (payloadSize_mono (Nat.le_of_lt_succ hj)).trans_lt h₁⟩

theorem splitLoop_spec {size k : ℕ} (hA : Arena base) (hk : LeastOrder size k) :
    ∀ {n fuel a : ℕ} {s : State} {B : Layout}, n < fuel → Repr base s B (some a) →
      B a = some ⟨k + n, false⟩ →
      ∃ m f, splitLoop fuel s (base + startSize * a) size = .ret { s with mem := m, freed := f } ∧
        Repr base { s with mem := m, freed := f } (splitTo B a k n) (some a) ∧
        Outside base (splitTo B a k n) s.mem m
  | n, 0, _, _, _, hn, _, _ => by omega
  | 0, fuel + 1, a, s, B, _, h, ha => by
    have hHa := h.heap.hdrs ha
    have hB : splitTo B a k 0 = B := by
      rw [splitTo, mark]; exact Function.update_eq_self_iff.mpr ha.symm
    have hM : k ≤ 10 := h.heap.tiles.le_max ha
    refine ⟨s.mem, s.freed, ?_, by rw [hB]; exact h, fun _ _ => rfl⟩
    rw [splitLoop, hdr_slot, hHa.order, hHa.size]
    split_ifs with h₁ h₂
    · -- one more cut would be too small
      obtain ⟨j, rfl⟩ : ∃ j, k = j + 1 := ⟨k - 1, by simp only [Nat.add_zero] at h₁; omega⟩
      rw [show j + 1 + 0 = j + 1 from rfl, half_payloadSize (by omega)] at h₂
      exact absurd (hk.least j (by omega)) (by omega)
    · rfl
    · rfl
  | n + 1, fuel + 1, a, s, B, hn, h, ha => by
    have hHa := h.heap.hdrs ha
    have hM : k + (n + 1) ≤ 10 := h.heap.tiles.le_max ha
    obtain ⟨m₁, f₁, he₁, hr₁, ho₁⟩ := splitStep_spec (k := k + n) hA h ha
    obtain ⟨m₂, f₂, he₂, hr₂, ho₂⟩ := splitLoop_spec hA hk (n := n) (Nat.lt_of_succ_lt_succ hn)
      hr₁ (by rw [split_apply, if_pos rfl])
    refine ⟨m₂, f₂, ?_, hr₂, ho₁.trans ho₂ 
      (fun u c hu => (splitTo_start (n := n) hu :)) fun u c hu => ⟨c, hu⟩⟩
    rw [splitLoop, hdr_slot, hHa.order, hHa.size, if_pos (by simp only; omega),
      if_pos (by
        rw [show k + (n + 1) = k + n + 1 from rfl, half_payloadSize (by omega)]
        exact hk.le_iff.mpr (by omega)),
      he₁, Outcome.ret_bind, he₂]

/-- **`splitIfPossible`** cuts a block that was taken from its list down to the least order that
holds the request, and marks it used. -/
theorem splitIfPossible_spec {size k n fuel a : ℕ} {s : State} (hA : Arena base)
    (hk : LeastOrder size k) (hn : n < fuel) (h : Repr base s B (some a)) (ha : B a = some ⟨k + n, false⟩) :
    ∃ m f, splitIfPossible fuel s (base + startSize * a) size = .ret { s with mem := m, freed := f } ∧
      Repr base { s with mem := m, freed := f } (splitTo B a k n) none ∧
      Outside base (splitTo B a k n) s.mem m := by
  obtain ⟨m, f, he, hr, ho⟩ := splitLoop_spec hA hk hn h ha
  refine ⟨_, f, ?_, hr.settle splitTo_self, fun x hx => ?_⟩
  · rw [splitIfPossible, hdr_slot, (h.heap.hdrs ha).cookie, if_neg (by simp), he, Outcome.ret_bind]
  · exact (setIsFree_out _ _ _ (hx a _ splitTo_self)).trans (ho x hx)

/-! ## Choosing a block -/

theorem getFreeBlockFrom_cases (s : State) (size : ℕ) : ∀ l : List ℕ,
    (getFreeBlockFrom s size l = none ∧ ∀ i ∈ l, size ≤ payloadSize i → s.freed i = []) ∨
    ∃ l₁ j l₂ p rest, l = l₁ ++ j :: l₂ ∧ (∀ i ∈ l₁, size ≤ payloadSize i → s.freed i = []) ∧
      s.freed j = p :: rest ∧ size ≤ payloadSize j ∧
      getFreeBlockFrom s size l = some ({ s with freed := Function.update s.freed j rest }, p)
  | [] => .inl ⟨rfl, by simp⟩
  | i :: is => by
    have hsize : 2 ^ i * startSize - sizeofMetadata = payloadSize i := by
      rw [payloadSize, mul_comm]
    by_cases hgo : size ≤ payloadSize i ∧ s.freed i ≠ []
    · obtain ⟨p, rest, hf⟩ := List.exists_cons_of_ne_nil hgo.2
      exact .inr ⟨[], i, is, p, rest, rfl, by simp, hf, hgo.1,
        by simp only [getFreeBlockFrom, hf, hsize, if_pos hgo.1]⟩
    · -- the order `i` is passed over
      have hi : size ≤ payloadSize i → s.freed i = [] := fun hle => by
        by_contra hne
        exact hgo ⟨hle, hne⟩
      have he : getFreeBlockFrom s size (i :: is) = getFreeBlockFrom s size is := by
        rcases hf : s.freed i with _ | ⟨p, rest⟩
        · simp only [getFreeBlockFrom, hf]
        · simp only [getFreeBlockFrom, hf, hsize]
          exact if_neg fun hle => by simp [hf] at hi; omega
      rcases getFreeBlockFrom_cases s size is with ⟨h₁, h₂⟩ | ⟨l₁, j, l₂, p, rest, h₁, h₂, h₃, h₄, h₅⟩
      · exact .inl ⟨he.trans h₁, by simpa using ⟨hi, h₂⟩⟩
      · exact .inr ⟨i :: l₁, j, l₂, p, rest, by rw [h₁]; rfl, by simpa using ⟨hi, h₂⟩, h₃, h₄,
          he.trans h₅⟩

/-- **`getFreeBlock`** takes the lowest block of the least sufficient order that has a free one. -/
theorem getFreeBlock_spec {size k : ℕ} {s : State} (hk : LeastOrder size k)
    (h : Repr base s B none) :
    (getFreeBlock s size = none ∧ ∀ j a, k ≤ j → B a ≠ some ⟨j, true⟩) ∨
    ∃ j a f, Takes B k j a ∧
      getFreeBlock s size = some ({ s with freed := f }, base + startSize * a) ∧
      Repr base { s with freed := f } (mark B a j false) (some a) := by
  rcases getFreeBlockFrom_cases s size (List.range (maxOrder + 1)) with
    ⟨he, hnone⟩ | ⟨l₁, j, l₂, p, rest, hl, hbefore, hf, hfit, he⟩
  · refine .inl ⟨he, fun j a hj ha => ?_⟩
    have hM : j ≤ maxOrder := h.heap.tiles.le_max ha
    have hmem := (h.lists.mem_slot hM).mpr ha
    rw [hnone j (by simpa using Nat.lt_succ_of_le hM) (hk.le_iff.mpr hj)] at hmem
    simp at hmem
  · have hM : j ≤ maxOrder := by
      have : j ∈ List.range (maxOrder + 1) := by rw [hl]; simp
      simpa using Nat.le_of_lt_succ (List.mem_range.mp this)
    obtain ⟨a, rfl, ha, hlow, hlists⟩ := h.lists.pop hM hf
    refine .inr ⟨j, a, _, ⟨ha, hk.le_iff.mp hfit, hlow, fun i b hi hij hb => ?_⟩, he,
      h.heap.remark ha (by simp) false, hlists, h.cookie⟩
    have hiM : i ≤ maxOrder := by omega
    -- the orders are tried in increasing order, so `i` was tried before `j`
    have hmem₁ : i ∈ l₁ := by
      have hmem : i ∈ l₁ ++ j :: l₂ := by rw [← hl]; simpa using Nat.lt_succ_of_le hiM
      have hsorted : (l₁ ++ j :: l₂).Pairwise (· < ·) := by rw [← hl]; exact List.pairwise_lt_range
      rcases List.mem_append.mp hmem with h₁ | h₂
      · exact h₁
      · rcases List.mem_cons.mp h₂ with rfl | h₂
        · omega
        · have := (List.pairwise_cons.mp (List.pairwise_append.mp hsorted).2.1).1 i h₂
          omega
    have hmem := (h.lists.mem_slot hiM).mpr hb
    rw [hbefore i hmem₁ (hk.le_iff.mpr hi)] at hmem
    simp at hmem

/-! ## The merge loop -/

theorem unionLoop_spec (hA : Arena base) :
    ∀ {n fuel y k : ℕ} {s : State} {B : Layout}, n < fuel → k + n = maxOrder →
      Repr base s B (some y) → B y = some ⟨k, false⟩ → Quiet B n y k →
      ∃ m f y' k' B', unionLoop fuel s (base + startSize * y) (base + startSize * buddy y k) =
          .ret ({ s with mem := m, freed := f }, base + startSize * y') ∧
        Repr base { s with mem := m, freed := f } B' (some y') ∧ B' y' = some ⟨k', false⟩ ∧
        mark B' y' k' true = release B n y k ∧ Outside base B s.mem m ∧ ∃ c, B y' = some c
  | n, 0, _, _, _, _, hn, _, _, _, _ => by omega
  | n, fuel + 1, y, k, s, B, hn, hk, h, hy, hq => by
    have hT := h.heap.tiles
    obtain ⟨⟨j, g⟩, hz, hle⟩ := hT.exists_buddy (M := maxOrder) (by decide) hy
    have hne := buddy_ne y k
    have hHz := h.heap.hdrs hz
    have hmark : (slots base s.mem (buddy y k)).isFree = g :=
      h.heap.marks hz fun e => hne (Option.some.inj e).symm
    rw [unionLoop]
    simp only [hdr_slot, hmark, hHz.order]
    by_cases hgo : g = true ∧ (j : ℤ) < 10
    · -- the buddy is free, and by `Quiet` of the same order
      obtain ⟨rfl, hj⟩ := hgo
      cases n with
      | zero =>
        have := hq j hz
        unfold maxOrder at hk
        omega
      | succ n =>
        obtain rfl : j = k := hq.1 j hz
        obtain ⟨m₁, f₁, he₁, hr₁, ho₁⟩ := mergeStep_spec hA h (by unfold maxOrder; omega) hy hz
        obtain ⟨hmin, hmax⟩ := min_buddy (hT.aligned hy)
        obtain ⟨m₂, f₂, y', k', B', he₂, hr₂, hy', hrel, ho₂, c, hc⟩ := unionLoop_spec hA
          (Nat.lt_of_succ_lt_succ hn) (by omega) hr₁ (by rw [merge_apply, if_pos rfl])
          ((hq.2 hz).merge hmin)
        refine ⟨m₂, f₂, y', k', B', ?_, hr₂, hy', ?_, ?_, ?_⟩
        · rw [if_pos ⟨rfl, hj⟩, he₁, Outcome.ret_bind]
          exact he₂
        · rw [release, if_pos hz, hrel]
        · refine ho₁.trans ho₂ (fun u c hu => ⟨c, hu⟩) fun u c hu => ?_
          rw [merge_apply] at hu
          split_ifs at hu with h₁ h₂
          · obtain ⟨f₁, f₂, hl, -⟩ := halves (hT.aligned hy) hy hz
            exact ⟨_, h₁ ▸ hl⟩
          · exact ⟨c, hu⟩
        · rw [merge_apply] at hc
          split_ifs at hc with h₁ h₂
          · obtain ⟨f₁, f₂, hl, -⟩ := halves (hT.aligned hy) hy hz
            exact ⟨_, h₁ ▸ hl⟩
          · exact ⟨c, hc⟩
    · refine ⟨s.mem, s.freed, y, k, B, ?_, h, hy, ?_, fun _ _ => rfl, _, hy⟩
      · rw [if_neg hgo]
      · cases n with
        | zero => rfl
        | succ n =>
          rw [release, if_neg]
          intro he
          rw [hz] at he
          simp only [Option.some.injEq, Cell.mk.injEq] at he
          exact hgo ⟨he.2, by unfold maxOrder at hk; omega⟩

theorem Repr.busy {a k : ℕ} {s : State} (h : Repr base s B none) (ha : B a = some ⟨k, false⟩) :
    Repr base s B (some a) := by
  have hB : mark B a k false = B := by rw [mark]; exact Function.update_eq_self_iff.mpr ha.symm
  have hheap := h.heap.remark ha (by simp) false
  rw [hB] at hheap
  exact ⟨hheap, h.lists, h.cookie⟩

/-- **`unionIfPossible` gives a used block back**: it computes `release`, provided that on its way
up it meets no free buddy of a smaller order. -/
theorem unionIfPossible_spec {fuel a k : ℕ} {s : State} (hA : Arena base) (hfuel : maxOrder < fuel)
    (h : Repr base s B none) (ha : B a = some ⟨k, false⟩) (hq : Quiet B (maxOrder - k) a k) :
    ∃ m f, unionIfPossible fuel s (base + startSize * a) = .ret { s with mem := m, freed := f } ∧
      Repr base { s with mem := m, freed := f } (release B (maxOrder - k) a k) none ∧
      Outside base B s.mem m := by
  have hT := h.heap.tiles
  have hM : k ≤ maxOrder := hT.le_max ha
  have hHa := h.heap.hdrs ha
  have hbusy := h.busy ha
  obtain ⟨m, f, y, j, B', he, hr, hy, hrel, ho, c, hc⟩ := unionLoop_spec hA
    (n := maxOrder - k) (show maxOrder - k < fuel by omega) (by omega) hbusy ha hq
  have hj : j ≤ maxOrder := hr.heap.tiles.le_max hy
  have hord : (slots base (setIsFree m (base + startSize * y) true) y).order = j :=
    (order_setIsFree ..).trans (hr.heap.hdrs hy).order
  refine ⟨setIsFree m (base + startSize * y) true,
    Function.update f j ((f j).orderedInsert (· ≤ ·) (base + startSize * y)), ?_, ?_, ?_⟩
  · rw [unionIfPossible, h.buddyAddr_hdr hA ha, hdr_slot, hHa.isMmap, if_neg (by simp), Outcome.ret_bind, he,
      Outcome.ret_bind]
    simp only [hdr_slot, hord, addToFreeOrder_eq hj]
  · rw [← hrel]
    have hlists : Lists base (Function.update f j ((f j).orderedInsert (· ≤ ·)
        (base + startSize * y))) (mark B' y j true) := by
      apply hr.lists.add hj (by simp [hy]) (by rw [mark_apply, if_pos rfl])
      intro b hb i
      rw [mark_apply, if_neg hb]
    have hmark : Repr base { s with
        mem := m, freed := Function.update f j ((f j).orderedInsert (· ≤ ·) (base + startSize * y)) }
        (mark B' y j true) (some y) :=
      ⟨hr.heap.remark hy (fun u e => (Option.some.inj e).symm) true, hlists, h.cookie⟩
    exact hmark.settle (by rw [mark_apply, if_pos rfl])
  · intro x hx
    rw [setIsFree_out _ _ _ (hx y c hc), ho x hx]

end OsHomework.Malloc3
