import OsHomework.Malloc3.Realloc
import OsHomework.Malloc3.Uses

/-!
# `malloc_3`: the exponents and the indices stay in range

* `splitLoop_within`, `unionLoop_within`, `checkLoop_within`: on an arena that represents a layout, the
  loops pass only exponents and indices in `0..MAX_ORDER`. The merge loops need that the block meets no
  free buddy of a smaller order: the code bounds the order of the buddy, not of the block that grows;
* `Act`, `act`, `Clean`: runs with `srealloc`, and the calls that keep in range;
* **`uses_in_range`**: along every run of clean calls, every call keeps in range, and no block of the arena
  has an order above `MAX_ORDER`;
* `srealloc_mapped_out_of_range`: enlarging a mapped block passes -1 to `pow2`.
-/

set_option autoImplicit false

namespace OsHomework.Malloc3

open Buddy Logged

namespace Uses

/-- All exponents and indices are in `0..MAX_ORDER`. -/
def InRange {α : Type} (x : Logged Use α) : Prop := Within Use.InRange x

/-! ## Orders that are in range -/

section Basic

variable {i : ℤ} {addr : ℕ} {s : State}

theorem blockBytes_within (h₀ : 0 ≤ i) (h₁ : i ≤ maxOrder) : InRange (blockBytes i) := by
  refine Within.bind (fun e he => ?_) fun p _ => Within.ite (fun _ => .pure _) fun _ => .lift _
  rw [List.mem_singleton.mp he]
  exact ⟨h₀, h₁⟩

theorem buddyAddr_within (h₀ : 0 ≤ i) (h₁ : i ≤ maxOrder) : InRange (buddyAddr addr i) :=
  (blockBytes_within h₀ h₁).bind fun _ _ => .pure _

/-- Go on with the buddy of an order in range. -/
theorem buddyAddr_bind {α : Type} {o x : ℕ} {g : ℕ → Logged Use α} (hi : i = o) (ho : o ≤ maxOrder)
    (hx : Malloc3.buddyAddr addr (o : ℤ) = .ret x) (hg : InRange (g x)) : InRange (buddyAddr addr i >>= g) := by
  subst hi
  apply (buddyAddr_within (by omega) (by omega)).bind
  intro y hy
  rw [buddyAddr_out, hx] at hy
  cases hy
  exact hg

theorem freedIdx_within (h₀ : 0 ≤ i) (h₁ : i ≤ maxOrder) : InRange (freedIdx i) := by
  intro e he
  rw [List.mem_singleton.mp he]
  exact ⟨h₀, h₁⟩

theorem removeFreed_within (h₀ : 0 ≤ i) (h₁ : i ≤ maxOrder) : InRange (removeFreed s i addr) :=
  (freedIdx_within h₀ h₁).bind fun _ _ => .pure _

theorem addToFreeOrder_within (h₀ : 0 ≤ i) (h₁ : i ≤ maxOrder) : InRange (addToFreeOrder s addr i) :=
  (freedIdx_within h₀ h₁).bind fun _ _ => .pure _

theorem getFreeBlockFrom_within {size : ℕ} : ∀ {l : List ℕ}, (∀ i ∈ l, i ≤ maxOrder) →
    InRange (getFreeBlockFrom s size l) := by
  intro l
  induction l with
  | nil => exact fun _ => .pure _
  | cons i is ih =>
    intro hl
    have hi : i ≤ maxOrder := hl i List.mem_cons_self
    have ih := ih fun j hj => hl j (List.mem_cons_of_mem _ hj)
    refine Within.bind (fun e he => ?_) fun p _ => Within.ite (fun _ => ?_) fun _ => ih
    · rw [List.mem_singleton.mp he]
      exact ⟨by omega, by omega⟩
    · apply (freedIdx_within (by omega) (by omega)).bind
      intro j _
      rcases s.freed j with _ | ⟨p, rest⟩
      · exact ih
      · exact .pure _

theorem getFreeBlock_within {size : ℕ} : InRange (getFreeBlock s size) :=
  getFreeBlockFrom_within fun _ hi => Nat.le_of_lt_succ (List.mem_range.mp hi)

end Basic

/-! ## Splitting -/

section Split

variable {base : ℕ} {s : State} {B : Layout} {a b k size : ℕ}

theorem writeBuddy_within (hab : a ≠ b) (hk : k ≤ maxOrder)
    (ho : (slots base s.mem a).order = (k + 1 : ℕ)) :
    InRange (writeBuddy s (base + startSize * a) (base + startSize * b)) := by
  have h1 : (((k + 1 : ℕ) : ℤ) - 1) = (k : ℤ) := by omega
  have hk15 : k ≤ 15 := by unfold maxOrder at hk; omega
  unfold writeBuddy
  simp only [hdr_slot, slots_setCookie, slots_setPrev, slots_setNext, slots_setIsFree,
    slots_setIsMmap, slots_setOrder, Function.update_self, Function.update_of_ne hab, ho, h1,
    toInt32_ofInt32_nat hk15]
  exact (blockBytes_within (by omega) (by omega)).bind fun _ _ => .pure _

theorem splitStep_within (hA : Arena base) (h : Repr base s B (some a)) (ha : B a = some ⟨k + 1, false⟩) :
    InRange (splitStep s (base + startSize * a)) := by
  have hT := h.heap.tiles
  have hpos := Nat.two_pow_pos k
  have hk : k + 1 ≤ 10 := hT.le_max ha
  have ho : (slots base s.mem a).order = (k + 1 : ℕ) := (h.heap.hdrs ha).order
  have h1 : (((k + 1 : ℕ) : ℤ) - 1) = (k : ℤ) := by omega
  have hab : a ≠ buddy a k := (buddy_ne a k).symm
  rw [splitStep, hdr_slot, ho, h1]
  refine buddyAddr_bind rfl (by unfold maxOrder; omega) (buddyAddr_slot hA (hT.lt ha) (by omega)) ?_
  apply (writeBuddy_within hab (by unfold maxOrder; omega) ho).bind
  intro m hm
  obtain ⟨m', he, hslots, -⟩ := slots_writeBuddy hA h.cookie (hT.lt ha) hab (show k ≤ 15 by omega) ho
  rw [writeBuddy_out, he] at hm
  cases hm
  have hord : (slots base m (buddy a k)).order = k := by
    rw [hslots, Function.update_self]
    rfl
  rw [hdr_slot, hord]
  exact (addToFreeOrder_within (by omega) (by unfold maxOrder; omega)).bind fun _ _ => .pure _

/-- **The split loop stays in range**; the induction is on the fuel. -/
theorem splitLoop_within (hA : Arena base) (n : ℕ) : ∀ {s : State} {B : Layout} {k : ℕ},
    Repr base s B (some a) → B a = some ⟨k, false⟩ → InRange (splitLoop n s (base + startSize * a) size) := by
  induction n with
  | zero => exact fun _ _ => .lift _
  | succ n ih =>
    intro s B k h ha
    refine Within.ite (fun hpos => Within.ite (fun _ => ?_) fun _ => .pure _) fun _ => .pure _
    rw [hdr_slot, (h.heap.hdrs ha).order] at hpos
    obtain ⟨j, rfl⟩ : ∃ j, k = j + 1 := ⟨k - 1, by simp only at hpos; omega⟩
    obtain ⟨m, f, he, hr, -⟩ := splitStep_spec hA h ha
    apply (splitStep_within hA h ha).bind
    intro t ht
    rw [splitStep_out, he] at ht
    cases ht
    exact ih hr (by rw [split_apply, if_pos rfl])

theorem splitIfPossible_within (hA : Arena base) (n : ℕ) (h : Repr base s B (some a))
    (ha : B a = some ⟨k, false⟩) : InRange (splitIfPossible n s (base + startSize * a) size) :=
  Within.ite (fun _ => .lift _) fun _ => (splitLoop_within hA n h ha).bind fun _ _ => .pure _

end Split

/-! ## Merging -/

section Merge

variable {base : ℕ} {s : State} {B : Layout} {a b k y : ℕ}

theorem absorb_within {gone : ℕ} (hk : k < maxOrder) (ho : (slots base s.mem a).order = k) :
    InRange (absorb s (base + startSize * a) gone) := by
  have hk10 : k < 10 := hk
  have h1 : ((k : ℤ) + 1) = ((k + 1 : ℕ) : ℤ) := by omega
  unfold absorb
  simp only [hdr_slot, slots_setNext, slots_setOrder, Function.update_self, ho, h1,
    toInt32_ofInt32_nat (show k + 1 ≤ 15 by omega)]
  exact (blockBytes_within (by omega) (by unfold maxOrder; omega)).bind fun _ _ => .pure _

theorem removeFreed_mem {t : State} {i : ℤ} {p : ℕ} (h : (removeFreed s i p).out = .ret t) :
    t.mem = s.mem := by
  rw [removeFreed_out, Malloc3.removeFreed, Outcome.bind_eq_ret] at h
  obtain ⟨j, -, h⟩ := h
  cases h
  rfl

/-- **A merge of two blocks of equal order below the greatest one stays in range.** -/
theorem mergeStep_within (hA : Arena base) (h : Repr base s B (some y)) (hk : k < maxOrder)
    (hy : B y = some ⟨k, false⟩) (hz : B (buddy y k) = some ⟨k, true⟩) :
    InRange (mergeStep s (base + startSize * y) (base + startSize * buddy y k)) := by
  have hT := h.heap.tiles
  have hk10 : k < 10 := hk
  have hHz := h.heap.hdrs hz
  have hdvd : 2 ^ k ∣ y := hT.aligned hy
  obtain ⟨hmin, hmax⟩ := min_buddy hdvd
  obtain ⟨f₁, f₂, hlow, hhigh⟩ := halves hdvd hy hz
  have hpos := Nat.two_pow_pos k
  have hord : (slots base s.mem (min y (buddy y k))).order = k := (h.heap.hdrs hlow).order
  have hnext : (slots base s.mem (max y (buddy y k))).next = nextAddr base (max y (buddy y k)) k := by
    rw [hmax]
    exact (h.heap.hdrs hhigh).next
  have hkeep : (if base + startSize * y < base + startSize * buddy y k then base + startSize * y
      else base + startSize * buddy y k) = base + startSize * min y (buddy y k) := by
    unfold startSize; split_ifs <;> omega
  have hgone : (if base + startSize * y < base + startSize * buddy y k then base + startSize * buddy y k
      else base + startSize * y) = base + startSize * max y (buddy y k) := by
    unfold startSize; split_ifs <;> omega
  have hrem : ∀ {t : State} {p : ℕ}, InRange (removeFreed t (k : ℤ) p) := fun {t p} =>
    removeFreed_within (by omega) (by omega)
  refine Within.ite (fun _ => .lift _) fun _ => ?_
  rw [hdr_slot, hHz.order, hkeep, hgone]
  apply hrem.bind
  intro t₁ ht₁
  have hm₁ := removeFreed_mem ht₁
  rw [hm₁, hdr_slot, hHz.order]
  apply hrem.bind
  intro t₂ ht₂
  have hm₂ := (removeFreed_mem ht₂).trans hm₁
  rw [← hm₂] at hord hnext
  apply (absorb_within hk hord).bind
  intro t₃ ht₃
  obtain ⟨m, he, hslots, -⟩ := absorb_slots (s := t₂) (b := max y (buddy y k)) (j := k) hA (hT.lt hlow)
    (by omega) (by omega) hord hnext
  rw [absorb_out, he] at ht₃
  cases ht₃
  have hord' : (slots base m (min y (buddy y k))).order = (k + 1 : ℕ) := by
    rw [hslots, prevAt_of_ne (by omega), Function.update_self]
    rfl
  rw [hdr_slot, hord']
  exact (buddyAddr_within (by omega) (by unfold maxOrder; omega)).bind fun _ _ => .pure _

/-- **The merge loop stays in range**, if it meets no free buddy of a smaller order; the induction is on
the fuel. -/
theorem unionLoop_within (hA : Arena base) (n : ℕ) : ∀ {j y k : ℕ} {s : State} {B : Layout},
    k + j = maxOrder → Repr base s B (some y) → B y = some ⟨k, false⟩ → Quiet B j y k →
      InRange (unionLoop n s (base + startSize * y) (base + startSize * buddy y k)) := by
  induction n with
  | zero => exact fun _ _ _ _ => .lift _
  | succ n ih =>
    intro j y k s B hj h hy hq
    have hT := h.heap.tiles
    obtain ⟨⟨i, g⟩, hz, -⟩ := hT.exists_buddy (M := maxOrder) (by decide) hy
    have hmark : (slots base s.mem (buddy y k)).isFree = g :=
      h.heap.marks hz fun e => buddy_ne y k (Option.some.inj e).symm
    refine Within.ite (fun hgo => ?_) fun _ => .pure _
    rw [hdr_slot, hmark, (h.heap.hdrs hz).order] at hgo
    obtain ⟨rfl, hi⟩ := hgo
    cases j with
    | zero =>
      have := hq i hz
      unfold maxOrder at hj
      simp only at hi
      omega
    | succ j =>
      obtain rfl : i = k := hq.1 i hz
      obtain ⟨m, f, he, hr, -⟩ := mergeStep_spec hA h (show i < maxOrder by omega) hy hz
      apply (mergeStep_within hA h (by omega) hy hz).bind
      intro r hr'
      rw [mergeStep_out, he] at hr'
      cases hr'
      exact ih (j := j) (by omega) hr (by rw [merge_apply, if_pos rfl])
        ((hq.2 hz).merge (min_buddy (hT.aligned hy)).1)

theorem unionIfPossible_within (hA : Arena base) (n : ℕ) (h : Repr base s B none)
    (ha : B a = some ⟨k, false⟩) (hq : Quiet B (maxOrder - k) a k) :
    InRange (unionIfPossible n s (base + startSize * a)) := by
  have hT := h.heap.tiles
  have hM : k ≤ maxOrder := hT.le_max ha
  have hbusy : Repr base s B (some a) := h.busy ha
  refine Within.ite (fun _ => .pure _) fun _ => ?_
  refine buddyAddr_bind (h.heap.hdrs ha).order hM
    (buddyAddr_slot hA (hT.lt ha) (by unfold maxOrder at hM; simp only; omega)) ?_
  apply (unionLoop_within hA n (Nat.add_sub_cancel' hM) hbusy ha hq).bind
  intro r hr
  -- the block at which the loop stops has an order of the layout, whatever the fuel
  obtain ⟨m, f, y, j, B', he, hrep, hy, -⟩ := unionLoop_spec hA
    (show maxOrder - k < max n (maxOrder + 1) by omega) (by omega) hbusy ha hq
  rw [unionLoop_out] at hr
  rw [settles_unionLoop.of_le (le_max_left n _) (by rw [hr]; simp), hr] at he
  cases he
  have hord : (slots base (setIsFree m (base + startSize * y) true) y).order = j :=
    (order_setIsFree ..).trans (hrep.heap.hdrs hy).order
  have hj : j ≤ maxOrder := hrep.heap.tiles.le_max hy
  simp only [hdr_slot, hord]
  exact addToFreeOrder_within (by omega) (by omega)

end Merge

/-! ## The rehearsal -/

section Check

variable {base : ℕ} {s : State} {B : Layout} {a k size : ℕ}

theorem checkLoop_left_within {A F f : ℕ} (hf : (hdr s.mem F).order = f) (hlt : f < maxOrder)
    (hF : Malloc3.buddyAddr A (f : ℤ) = .ret F) (n : ℕ) : ∀ {mm : MallocMetadata},
      InRange (checkLoop s A size n F F mm (hdr s.mem F)) := by
  induction n with
  | zero => exact fun {_} => .lift _
  | succ n ih =>
    intro mm
    refine Within.ite (fun _ => Within.ite (fun _ => .lift _) fun _ => ?_) fun _ => .pure _
    rw [if_neg (lt_irrefl F)]
    apply (blockBytes_within (by omega) (by omega)).bind
    intro _ _
    exact buddyAddr_bind hf hlt.le hF ih

/-- **The rehearsal stays in range**, if the block meets no free buddy of a smaller order; the induction is
on the fuel. -/
theorem checkLoop_within (hA : Arena base) (h : Repr base s B none) (ha : B a = some ⟨k, false⟩) (n : ℕ) :
    ∀ {i : ℕ} {mm : MallocMetadata}, k ≤ i → i ≤ maxOrder → 2 ^ i ∣ a → mm.order = i →
      Quiet B (maxOrder - i) a i →
      InRange (checkLoop s (base + startSize * a) size n (base + startSize * a)
        (base + startSize * buddy a i) mm (hdr s.mem (base + startSize * buddy a i))) := by
  induction n with
  | zero => exact fun _ _ _ _ _ => .lift _
  | succ n ih =>
    intro i mm hki hi hdvd ho hq
    have hT := h.heap.tiles
    have hi10 : i ≤ 10 := hi
    obtain ⟨⟨j, f⟩, hz, -⟩ := hT.exists_buddy_of_le (two_pow_dvd_arenaUnits (by omega)) ha hki hdvd
    have hmark : (slots base s.mem (buddy a i)).isFree = f := h.heap.marks hz (by simp)
    have hord : (slots base s.mem (buddy a i)).order = j := (h.heap.hdrs hz).order
    refine Within.ite (fun hgo => Within.ite (fun _ => .lift _) fun _ => ?_) fun _ => .pure _
    rw [hdr_slot, hmark, hord] at hgo
    obtain ⟨rfl, hj, -⟩ := hgo
    -- a free buddy that passes has the order at hand, and that is below the greatest one
    obtain ⟨r, hr⟩ : ∃ r, maxOrder - i = r + 1 := by
      apply Nat.exists_eq_succ_of_ne_zero
      intro h0
      rw [h0] at hq
      have := hq j hz
      unfold maxOrder at h0
      omega
    rw [hr] at hq
    obtain rfl : j = i := hq.1 j hz
    refine Within.ite (fun hlt => ?_) fun _ => ?_
    · have hd := (lt_buddy_iff hdvd).mp (slot_lt_iff.mp hlt)
      have hq' := hq.2 hz
      rw [buddy_left hd, min_eq_left (by omega), show r = maxOrder - (j + 1) by omega] at hq'
      rw [ho, show ((j : ℤ) + 1) = ((j + 1 : ℕ) : ℤ) by omega]
      apply (blockBytes_within (by omega) (by omega)).bind
      intro _ _
      exact buddyAddr_bind rfl (by omega) (buddyAddr_slot hA (hT.lt ha) (by omega))
        (ih (by omega) (by omega) hd rfl hq')
    · have hF := buddyAddr_slot hA (hT.lt ha) (show j < 15 by omega)
      refine (blockBytes_within ?_ ?_).bind fun _ _ => ?_
      · rw [hdr_slot, hord]
        omega
      · rw [hdr_slot, hord]
        omega
      · exact buddyAddr_bind hord hi hF (checkLoop_left_within hord (by omega) hF n)

theorem checkIfUnionIsPossible_within (hA : Arena base) (h : Repr base s B none)
    (ha : B a = some ⟨k, false⟩) (hq : Quiet B (maxOrder - k) a k) (n : ℕ) :
    InRange (checkIfUnionIsPossible n s (base + startSize * a) size) := by
  have hT := h.heap.tiles
  have hH := h.heap.hdrs ha
  have hk : k ≤ maxOrder := hT.le_max ha
  refine buddyAddr_bind hH.order hk (buddyAddr_slot hA (hT.lt ha)
    (by unfold maxOrder at hk; simp only; omega)) ?_
  exact checkLoop_within hA h ha n le_rfl hk (hT.aligned ha) hH.order hq

end Check

/-! ## The calls -/

section Calls

variable {base : ℕ} {s : State} {B : Layout} {L : List (ℕ × ℕ)} {a k size : ℕ}

/-- An allocation stays in range. -/
theorem malloc_within (sys : Sys) (n : ℕ) (h : Inv base s B L) : InRange (malloc sys n s size) := by
  have hset : setUp sys s = pure s := if_neg h.head_ne
  rw [malloc, hset]
  refine Within.bind (.pure _) fun t ht => ?_
  cases ht
  refine Within.ite (fun _ => .pure _) fun hv => Within.ite (fun _ => ?_) fun hsmall => ?_
  · cases sys.mmapAddr with
    | none => exact .pure _
    | some addr => exact (Within.lift _).bind fun _ _ => .pure _
  · apply getFreeBlock_within.bind
    intro r hr
    cases r with
    | none => exact .pure _
    | some r =>
      rw [getFreeBlock_out] at hr
      -- the block found is one that can be worked on
      have hsize : size ≤ payloadSize 11 := by
        unfold maxSize at hsmall
        unfold payloadSize startSize sizeofMetadata
        omega
      obtain ⟨K, -, hK⟩ := exists_leastOrder hsize
      rcases getFreeBlock_spec hK h.repr with ⟨he, -⟩ | ⟨j, b, f, ht, he, hrep⟩
      · rw [he] at hr
        cases hr
      · rw [he] at hr
        cases hr
        exact (splitIfPossible_within h.arena n hrep (by rw [mark_apply, if_pos rfl])).bind fun _ _ => .pure _

theorem free_within (n : ℕ) (h : Inv base s B L) (ha : B a = some ⟨k, false⟩)
    (hq : Quiet B (maxOrder - k) a k) : InRange (free n s (base + startSize * a + sizeofMetadata)) := by
  refine Within.ite (fun _ => .pure _) fun _ => Within.ite (fun _ => .lift _) fun _ => ?_
  rw [headerOf_add (h.slot_lt ha)]
  exact unionIfPossible_within h.arena n h.repr ha hq

theorem free_map_within (n : ℕ) (h : Inv base s B L) {r : ℕ × ℕ} (hr : r ∈ L) :
    InRange (free n s (r.1 + sizeofMetadata)) := by
  refine Within.ite (fun _ => .pure _) fun _ => Within.ite (fun _ => .lift _) fun hm => ?_
  rw [headerOf_add (h.map_lt hr), (h.maps.hdrs hr).isMmap] at hm
  exact absurd rfl hm

theorem scalloc_within (sys : Sys) (n num : ℕ) (h : Inv base s B L) : InRange (scalloc sys n s num size) :=
  Within.ite (fun _ => .pure _) fun _ => (malloc_within sys n h).bind fun _ _ =>
    Within.ite (fun _ => .pure _) fun _ => .pure _

/-- **A larger request on a block of the arena stays in range**, if the block does not grow in place and is
released quietly. -/
theorem sreallocList_within {w : World} {sys : Sys} (n : ℕ) (h : Inv base w.st B L) (hl : Live base B L w.live)
    (ha : B a = some ⟨k, false⟩) (hq : Quiet B (maxOrder - k) a k)
    (hf : maxSize ≤ size → MmapFresh w sys size)
    (hno : ∀ n, Malloc3.checkIfUnionIsPossible n w.st (base + startSize * a) size ≠ .ret true) :
    InRange (sreallocList sys n w.st (base + startSize * a + sizeofMetadata) size) := by
  refine Within.ite (fun _ => .pure _) fun hsize => ?_
  rw [headerOf_add (h.slot_lt ha)] at hsize ⊢
  apply (checkIfUnionIsPossible_within h.arena h.repr ha hq n).bind
  intro b hb
  rw [checkIfUnionIsPossible_out] at hb
  cases b with
  | true => exact absurd hb (hno n)
  | false =>
    rw [if_neg (by simp)]
    refine (malloc_within sys n h).bind fun r hr => Within.ite (fun _ => .pure _) fun hne => ?_
    -- the block moves: what was allocated is not in the way of the release
    obtain ⟨s₁, B₁, L₁, p, he, hi₁, -, hto, -⟩ := malloc_spec sys h
      (fun hm => (hf hm).fresh h hl)
      (show maxOrder + L.length < max n (maxOrder + L.length + 1) by omega)
    rw [malloc_out] at hr
    rw [settles_malloc.of_le (le_max_left n _) (by rw [hr]; simp), hr] at he
    cases he
    obtain ⟨ha₁, hq₁⟩ := hto.quiet h ha hq
    have hi₂ := hto.inv_copy hi₁ hne (by omega : (hdr w.st.mem (base + startSize * a)).size ≤ size)
      (base + startSize * a + sizeofMetadata)
    exact (free_within n hi₂ ha₁ hq₁).bind fun _ _ => .pure _

end Calls

end Uses

/-! ## Runs -/

/-- What the client does, `srealloc` included. -/
inductive Act where
  | op (o : Op)
  | srealloc (sys : Sys) (p size : ℕ)

/-- One action of the client. -/
def act (fuel : ℕ) (w : World) : Act → Outcome World
  | .op o => call fuel w o
  | .srealloc sys p size => do
    let (s, q) ← srealloc sys fuel w.st p size
    .ret ⟨s, relive w.live p q⟩

/-- The exponents and indices of one action, with the given fuel. -/
def uses (fuel : ℕ) (w : World) : Act → List Use
  | .op (.smalloc sys size) => (Uses.malloc sys fuel w.st size).log
  | .op (.scalloc sys num size) => (Uses.scalloc sys fuel w.st num size).log
  | .op (.sfree p) => (Uses.free fuel w.st p).log
  | .op (.write _ _) => []
  | .srealloc sys p size => (Uses.srealloc sys fuel w.st p size).log

/-- The client reallocates only what it holds. -/
def Act.Admissible (w : World) : Act → Prop
  | .op o => Malloc3.Admissible w o
  | .srealloc sys p size => p ∈ w.live ∧ (maxSize ≤ size → MmapFresh w sys size)

/-- **The calls that keep in range**: releases are quiet; a larger request for a block is for one of the
arena that does not grow in place and that would be released quietly. -/
def Clean (w : World) : Act → Prop
  | .op o => QuietOp w o
  | .srealloc _ p size => Larger w.st p size →
    (hdr w.st.mem (headerOf p)).isMmap = false ∧ ¬ GrowsInPlace w.st p size ∧ QuietFree w.st p

/-- An admissible action that returns. -/
def ActStep (w : World) (a : Act) (w' : World) : Prop :=
  a.Admissible w ∧ Returns (fun n => act n w a) w'

def CleanStep (w : World) (a : Act) (w' : World) : Prop := ActStep w a w' ∧ Clean w a

section Runs

variable {base : ℕ} {w w' : World}

/-- A call that does not ask for more changes nothing. -/
theorem srealloc_not_larger (sys : Sys) {p size n : ℕ} (hp : p ≠ 0) (hno : ¬ Larger w.st p size) :
    ∃ q, srealloc sys n w.st p size = .ret (w.st, q) ∧ (q = 0 ∨ q = p) := by
  by_cases hv : size = 0 ∨ maxSizeToAllocate < size
  · exact ⟨0, if_pos hv, .inl rfl⟩
  · refine ⟨p, srealloc_fits sys hp (by omega) (by omega) ?_, .inr rfl⟩
    by_contra hlt
    exact hno ⟨by omega, by omega, not_le.mp hlt⟩

theorem WInv.ne_zero (h : WInv base w) {p : ℕ} (hp : p ∈ w.live) : p ≠ 0 := by
  obtain ⟨B, L, hi, hl⟩ := h
  rintro rfl
  have := hi.arena.pos
  rcases (hl.mem 0).mp hp with ⟨a, k, -, he⟩ | ⟨r, -, he⟩ <;> unfold sizeofMetadata at he <;> omega

/-- **A clean action keeps the invariant.** -/
theorem WInv.cleanStep (h : WInv base w) {a : Act} (hs : CleanStep w a w') : WInv base w' := by
  obtain ⟨⟨hadm, hr⟩, hc⟩ := hs
  cases a with
  | op o => exact h.step ⟨hadm, hr⟩ hc
  | srealloc sys p size =>
    obtain ⟨hp, hf⟩ := hadm
    obtain ⟨N, hN⟩ := hr
    obtain ⟨⟨s, q⟩, he, hw⟩ := Outcome.bind_eq_ret.mp (hN N le_rfl)
    cases hw
    by_cases hlarger : Larger w.st p size
    · obtain ⟨hheap, hno, hq⟩ := hc hlarger
      exact h.srealloc hp hheap hf hno (fun _ _ => hq) (settles_srealloc.returns he)
    · obtain ⟨q', he', hq'⟩ := srealloc_not_larger sys (n := N) (h.ne_zero hp) hlarger
      rw [he'] at he
      cases he
      obtain ⟨B, L, hi, hl⟩ := h
      rcases hq' with rfl | rfl
      · exact ⟨B, L, hi, hl⟩
      · refine ⟨B, L, hi, hl.perm ?_⟩
        rw [relive, if_neg (WInv.ne_zero ⟨B, L, hi, hl⟩ hp)]
        exact (List.perm_cons_erase hp).symm

/-- **A clean action stays in range**, whether it returns or not. -/
theorem WInv.uses_within (h : WInv base w) {a : Act} (hadm : a.Admissible w) (hc : Clean w a) (n : ℕ) :
    ∀ u ∈ uses n w a, u.InRange := by
  have h0 := fun p => h.ne_zero (p := p)
  obtain ⟨B, L, hi, hl⟩ := h
  cases a with
  | op o =>
    cases o with
    | smalloc sys size => exact Uses.malloc_within sys n hi
    | scalloc sys num size => exact Uses.scalloc_within sys n num hi
    | sfree p =>
      rcases hadm with rfl | hmem
      · exact fun u hu => by cases hu
      · rcases (hl.mem p).mp hmem with ⟨b, k, hb, rfl⟩ | ⟨r, hr, rfl⟩
        · exact Uses.free_within n hi hb ((hi.quietFree_iff hb).mp (hc (h0 _ hmem)))
        · exact Uses.free_map_within n hi hr
    | write x v => exact fun u hu => by cases hu
  | srealloc sys p size =>
    obtain ⟨hp, hf⟩ := hadm
    refine Logged.Within.ite (fun _ => .pure _) fun hv =>
      Logged.Within.ite (fun _ => Uses.malloc_within sys n hi) fun _ => ?_
    by_cases hlarger : Larger w.st p size
    · obtain ⟨hheap, hno, hq⟩ := hc hlarger
      obtain ⟨b, k, hb, rfl⟩ := hl.heap_of_hdr hi hp hheap
      apply Uses.sreallocList_within n hi hl hb ((hi.quietFree_iff hb).mp hq) hf
      intro N hN
      refine hno ⟨hlarger, ?_⟩
      rw [headerOf_add (hi.slot_lt hb)]
      exact settles_checkIfUnionIsPossible.returns hN
    · refine Logged.Within.ite (fun _ => .pure _) fun hsize => absurd ?_ hlarger
      exact ⟨by omega, by omega, not_le.mp hsize⟩

end Runs

/-- **Along every run of clean calls, every exponent and every index is in `0..MAX_ORDER`**, also in a call
that does not return, and every block of the arena has an order in that range. -/
theorem uses_in_range (m : Mem) {ck brk : ℕ} (hb : Boots ck brk) {acts : List Act} {w : World}
    (hrun : Run CleanStep (start m ck brk) acts w) :
    RI w.st ∧ ∀ a : Act, a.Admissible w → Clean w a → ∀ n, ∀ u ∈ uses n w a, u.InRange := by
  have hw : WInv (arenaBase brk) w :=
    hrun.invariant (wInv_start m hb) fun _ _ _ hi hs => hi.cleanStep hs
  exact ⟨hw.ri, fun a hadm hc n => hw.uses_within hadm hc n⟩

/-- Calls that are quiet in any state. -/
theorem cleanRun_of_run {w w' : World} {ops : List Op} (h : Run Step w ops w') (hq : ∀ op ∈ ops, ∀ v, QuietOp v op) :
    Run CleanStep w (ops.map .op) w' := by
  induction h with
  | nil => exact .nil _
  | snoc _ hs ih =>
    rw [List.map_append]
    exact (ih fun op hop => hq op (List.mem_append_left _ hop)).snoc
      ⟨⟨hs.1, hs.2⟩, hq _ (List.mem_append_right _ List.mem_cons_self) _⟩

/-- The middle one of three blocks is to grow to order 9, and cannot do so in place: its buddy is in use. -/
theorem not_growsInPlace_middle {s : State} {B : Layout} (h : Inv 8388608 s B []) (h512 : B 512 = some ⟨8, false⟩)
    (h768 : B 768 = some ⟨8, false⟩) : ¬ GrowsInPlace s 8454184 65000 := by
  have hp : 8388608 + startSize * 512 + sizeofMetadata = 8454184 := rfl
  rintro ⟨-, hr⟩
  rw [← hp, headerOf_add (by unfold startSize; norm_num)] at hr
  obtain ⟨K, hK⟩ := h.repr.climbs_of_check h.arena h512 (.inl (by decide)) hr
  have hlt : 8 < K := by
    by_contra hle
    exact absurd (hK.fits.trans (payloadSize_mono (not_lt.mp hle))) (by decide)
  obtain ⟨-, j, -, hz⟩ := hK.steps 8 le_rfl hlt
  rw [show 512 + 2 ^ 8 = 768 from rfl, h768] at hz
  simp at hz

/-- Of three blocks the first is released, and then the second is to be moved. -/
theorem uses_in_range_three_blocks : ∃ w, Run CleanStep (start (fun _ => 0) 0 4198400)
      [.op (.smalloc ⟨true, none⟩ 65000), .op (.smalloc ⟨true, none⟩ 32000), .op (.smalloc ⟨true, none⟩ 32000),
        .op (.sfree 8388648)] w ∧ RI w.st ∧
    ∀ n, ∀ u ∈ uses n w (.srealloc ⟨true, none⟩ 8454184 65000), u.InRange := by
  obtain ⟨w₃, hrun, hi₃, hl₃, -⟩ := exists_threeBlocks (fun _ => 0) boots_example ⟨true, none⟩
  rw [arenaBase_example] at hi₃ hl₃
  have hp₁ : 8388608 + startSize * 512 + sizeofMetadata = 8454184 := rfl
  have h0 : threeBlocks 0 = some ⟨9, false⟩ := rfl
  have hbuddy : threeBlocks (buddy 0 9) = some ⟨8, false⟩ := rfl
  obtain ⟨w, hs, hi, -, hl⟩ := step_sfree hi₃ h0 (quiet_of_used hbuddy) (by simp [hl₃])
  rw [release_of_used hbuddy] at hi
  have h512 : mark threeBlocks 0 9 true 512 = some ⟨8, false⟩ := rfl
  have hused : mark threeBlocks 0 9 true (buddy 512 8) = some ⟨8, false⟩ := rfl
  have hquiet₀ : QuietFree w₃.st 8388648 := (hi₃.quietFree_iff h0).mpr (quiet_of_used hbuddy)
  have hquiet₁ : QuietFree w.st 8454184 := (hi.quietFree_iff h512).mpr (quiet_of_used hused)
  have hclean : CleanStep w₃ (.op (.sfree 8388648)) w := ⟨⟨hs.1, hs.2⟩, fun _ => hquiet₀⟩
  have hrun' := (cleanRun_of_run hrun (by simp [QuietOp])).snoc hclean
  obtain ⟨hri, huses⟩ := uses_in_range (fun _ => 0) boots_example hrun'
  have hmem : 8454184 ∈ w.live := by
    rw [hl, hl₃]
    decide
  have hheap : (hdr w.st.mem (headerOf 8454184)).isMmap = false := by
    rw [← hp₁, headerOf_add (by unfold startSize; norm_num)]
    exact (hi.repr.heap.hdrs h512).isMmap
  exact ⟨w, hrun', hri, huses _ ⟨hmem, fun hm => absurd hm (by decide)⟩ fun _ =>
    ⟨hheap, not_growsInPlace_middle hi h512 rfl, hquiet₁⟩⟩

/-! ## Mapped blocks -/

/-- **A mapped block has order -1.** -/
theorem linkMmap_order {fuel addr size : ℕ} {s t : State} (h : linkMmap fuel s addr size = .ret t) :
    (hdr t.mem addr).order = -1 := by
  have hneg : toInt32 (ofInt32 (-1) % 2 ^ 32) = -1 := toInt32_ofInt32 (by norm_num) (by norm_num)
  unfold linkMmap at h
  split_ifs at h
  · cases h
    simp only [hdr_setIsMmap, hdr_setCookie, hdr_setPrev, hdr_setSize, hdr_setNext, hdr_setOrder, hneg]
  · obtain ⟨last, -, h⟩ := Outcome.bind_eq_ret.mp h
    cases h
    simp only [hdr_setIsMmap, hdr_setCookie, hdr_setPrev, hdr_setSize, hdr_setNext, hdr_setOrder, hneg]

theorem malloc_map_order {sys : Sys} {n size addr p : ℕ} {s t : State} (hh : s.head ≠ 0)
    (hmin : maxSize ≤ size) (hmax : size ≤ maxSizeToAllocate) (hsys : sys.mmapAddr = some addr)
    (h : malloc sys n s size = .ret (t, p)) : (hdr t.mem addr).order = -1 := by
  rw [malloc, if_neg hh] at h
  simp only at h
  rw [if_neg (by unfold maxSize at hmin; omega), if_pos hmin, hsys] at h
  obtain ⟨u, hu, he⟩ := Outcome.bind_eq_ret.mp h
  cases he
  exact linkMmap_order hu

/-- **Enlarging a mapped block passes -1 to `pow2`.** -/
theorem uses_of_mapped {w : World} {sys : Sys} {p size n : ℕ} (hp : p ≠ 0) (hlarger : Larger w.st p size)
    (hord : (hdr w.st.mem (headerOf p)).order = -1) : .pow2 (-1) ∈ uses n w (.srealloc sys p size) := by
  obtain ⟨h0, hmax, hsize⟩ := hlarger
  rw [payloadLen] at hsize
  rw [uses, Uses.srealloc, if_neg (by omega), if_neg hp, Uses.sreallocList]
  simp only
  rw [if_neg (by omega), Uses.checkIfUnionIsPossible, hord]
  refine Logged.mem_log_bind.mpr (.inl (Logged.mem_log_bind.mpr (.inl ?_)))
  exact Logged.mem_log_bind.mpr (.inl (Logged.mem_log_bind.mpr (.inl (List.mem_singleton_self _))))

/-- **A run after which `pow2` is called with -1**: a mapped block of 200000 bytes is to get 300000. -/
theorem srealloc_mapped_out_of_range : ∃ w,
    Run ActStep (start (fun _ => 0) 0 4198400) [.op (.smalloc ⟨true, some 16777216⟩ 200000)] w ∧
    (Act.srealloc ⟨true, none⟩ 16777256 300000).Admissible w ∧
    .pow2 (-1) ∈ uses 1 w (.srealloc ⟨true, none⟩ 16777256 300000) ∧ ¬ (Use.pow2 (-1)).InRange := by
  have hi := inv_initArena (fun _ => 0) boots_example true
  have hbase := arenaBase_example
  have hf : MmapFresh (start (fun _ => 0) 0 4198400) ⟨true, some 16777216⟩ 200000 := by
    intro addr ha
    cases ha
    refine ⟨by norm_num, by unfold sizeofMetadata; norm_num, .inr ?_, fun p hp => by cases hp⟩
    have hhead : (start (fun _ => 0) 0 4198400).st.head = 8388608 := hi.head.trans hbase
    rw [hhead]
    unfold maxSize
    norm_num
  have hmin : maxSize ≤ 200000 := by unfold maxSize; norm_num
  have hmax : 200000 ≤ maxSizeToAllocate := by unfold maxSizeToAllocate; norm_num
  obtain ⟨w, hs, hi', -, hl⟩ := step_smalloc_map (w := start (fun _ => 0) 0 4198400) hi (live_fresh _)
    hmin hmax rfl hf
  have hp : 16777216 + sizeofMetadata = 16777256 := by unfold sizeofMetadata; norm_num
  have hhdr : headerOf 16777256 = 16777216 := hp ▸ headerOf_add (by norm_num)
  have hord : (hdr w.st.mem 16777216).order = -1 := by
    obtain ⟨-, N, hN⟩ := hs
    obtain ⟨⟨t, q⟩, he, hw⟩ := Outcome.bind_eq_ret.mp (hN N le_rfl)
    cases hw
    exact malloc_map_order hi.head_ne hmin hmax rfl he
  have hlen : payloadLen w.st 16777256 = 200000 := hi'.payloadLen_map (r := (16777216, 200000)) (by simp)
  refine ⟨w, .cons hs (.nil _), ⟨by rw [hl]; exact List.mem_singleton_self _, fun _ addr ha => by cases ha⟩,
    uses_of_mapped (by norm_num) ⟨by norm_num, by unfold maxSizeToAllocate; norm_num, ?_⟩ ?_, ?_⟩
  · rw [hlen]
    norm_num
  · rw [hhdr]
    exact hord
  · exact fun h => absurd h.1 (by norm_num)

end OsHomework.Malloc3
