import OsHomework.Malloc3.Merges
import OsHomework.Malloc3.Rises

/-!
# `malloc_3`: a release that merges blocks of different orders

`UnionIfPossible` merges with a free buddy whatever its order is. The headers it leaves behind are then those
of no layout, but what it writes is still confined: to headers, and of the blocks in use to `prev` only.

* `Uneven base s B a t y o`: the release of the block at `a` has come to `y` and to order `o`;
* **`Uneven.step`**: one merge, with a buddy of any order;
* `SparesPeer P`: no merge takes the header at `P`; **`unionIfPossible_uneven`**: a release that spares the
  header across the boundary of the arena.
-/

set_option autoImplicit false

namespace OsHomework.Malloc3

open Buddy

/-- No merge has the block at `P` for a part. -/
def SparesPeer (P : ℕ) (e : Merge) : Prop := e.keep ≠ P ∧ e.gone ≠ P

/-- The same header, up to `prev`. -/
def SameButPrev (h h' : MallocMetadata) : Prop := { h' with prev := h.prev } = h

theorem SameButPrev.refl (h : MallocMetadata) : SameButPrev h h := rfl

theorem SameButPrev.trans {h₁ h₂ h₃ : MallocMetadata} (h : SameButPrev h₁ h₂) (h' : SameButPrev h₂ h₃) :
    SameButPrev h₁ h₃ := by
  unfold SameButPrev at *
  rw [← h, ← h']

namespace SameButPrev

variable {h h' : MallocMetadata}

theorem cookie (hs : SameButPrev h h') : h'.cookie = h.cookie := by
  rw [← hs]

theorem order (hs : SameButPrev h h') : h'.order = h.order := by
  rw [← hs]

theorem next (hs : SameButPrev h h') : h'.next = h.next := by
  rw [← hs]

theorem isFree (hs : SameButPrev h h') : h'.isFree = h.isFree := by
  rw [← hs]

theorem size (hs : SameButPrev h h') : h'.size = h.size := by
  rw [← hs]

end SameButPrev

theorem sameButPrev_prevAt (H : ℕ → MallocMetadata) (u v w : ℕ) : SameButPrev (H w) (prevAt H u v w) :=
  prevAt_prev H u v w

section Step

variable {base : ℕ} {s t : State} {B : Layout} {a k y o : ℕ}

/-- **The release of the block at `a` has come to the block at `y`**, whose header says order `o`. Below `y` and
at the blocks in use the headers are the old ones, up to `prev`. -/
structure Uneven (base : ℕ) (s : State) (B : Layout) (a : ℕ) (t : State) (y o : ℕ) : Prop where
  state : t = { s with mem := t.mem, freed := t.freed }
  block : ∃ c, B y = some c ∧ c.order ≤ o ∧ (y ≠ a → c.free = true)
  aligned : 2 ^ o ∣ y
  order : (slots base t.mem y).order = o
  le : o ≤ 15
  cookies : ∀ {x c}, B x = some c → (slots base t.mem x).cookie = s.cookie
  orders : ∀ {x c}, B x = some c → ∃ j : ℕ, (slots base t.mem x).order = j
  nexts : ∀ {x c}, B x = some c → ∃ b d, B b = some d ∧ (slots base t.mem x).next = nextAddr base b d.order
  below : ∀ {x c}, B x = some c → x < y → SameButPrev (slots base s.mem x) (slots base t.mem x)
  used : ∀ {x c}, B x = some c → c.free = false → x ≠ a →
    SameButPrev (slots base s.mem x) (slots base t.mem x)
  out : Outside base B s.mem t.mem

theorem Repr.uneven (h : Repr base s B none) (ha : B a = some ⟨k, false⟩) : Uneven base s B a s a k where
  state := rfl
  block := ⟨_, ha, le_rfl, fun hne => absurd rfl hne⟩
  aligned := h.heap.tiles.aligned ha
  order := (h.heap.hdrs ha).order
  le := (h.heap.tiles.le_max ha).trans (by decide)
  cookies := fun hx => (h.heap.hdrs hx).cookie
  orders := fun hx => ⟨_, (h.heap.hdrs hx).order⟩
  nexts := fun hx => ⟨_, _, hx, (h.heap.hdrs hx).next⟩
  below := fun _ _ => .refl _
  used := fun _ _ _ => .refl _
  out := fun _ _ => rfl

/-- The order of a block that is free. -/
def freeOrder (h : MallocMetadata) : Option ℤ := if h.isFree then some h.order else none

theorem SameButPrev.freeOrder {h h' : MallocMetadata} (hs : SameButPrev h h') :
    freeOrder h' = Malloc3.freeOrder h := by
  rw [Malloc3.freeOrder, Malloc3.freeOrder, hs.isFree, hs.order]

/-- What one merge does to the headers: the one at `w` is free and of order `o`, the others keep all but
`prev`. -/
structure Merged (base : ℕ) (m m' : Mem) (w o : ℕ) : Prop where
  grown : freeOrder (slots base m' w) = some (o : ℤ)
  others : ∀ x ≠ w, SameButPrev (slots base m x) (slots base m' x)

theorem merged_of_slots {m : Mem} {w i n b v : ℕ} (hslots : slots base m = prevAt (Function.update
    (slots base t.mem) w (mergedHdr (slots base t.mem w) i n)) b v) : Merged base t.mem m w (i + 1) := by
  have hprev := fun x => sameButPrev_prevAt (Function.update (slots base t.mem) w
    (mergedHdr (slots base t.mem w) i n)) b v x
  simp only [← hslots] at hprev
  refine ⟨?_, fun x hx => ?_⟩
  · have := hprev w
    rw [Function.update_self] at this
    rw [this.freeOrder]
    rfl
  · have := hprev x
    rwa [Function.update_of_ne hx] at this

/-- **The block at `w` swallows another one** that is followed by the block after `b`: it has order `i` before. -/
theorem Uneven.of_merge {w i b : ℕ} {c d : Cell} {m : Mem} {f : ℕ → List ℕ} (hu : Uneven base s B a t y o)
    (hT : Tiles maxOrder arenaUnits B) (hw : B w = some c) (hc : c.order ≤ i + 1)
    (hfree : w ≠ a → c.free = true) (hle : w ≤ y) (hal : 2 ^ (i + 1) ∣ w) (hi : i < 15) (hb : B b = some d)
    (hslots : slots base m = prevAt (Function.update (slots base t.mem) w
      (mergedHdr (slots base t.mem w) i (nextAddr base b d.order))) (b + 2 ^ d.order) (base + startSize * w))
    (hout : ∀ x, (x < base + startSize * w ∨ base + startSize * w + 40 ≤ x) →
      (nextAddr base b d.order ≠ 0 → x < nextAddr base b d.order ∨ nextAddr base b d.order + 40 ≤ x) →
        m x = t.mem x) :
    Uneven base s B a { t with mem := m, freed := f } w (i + 1) := by
  -- the header kept, and the others up to `prev`
  have hkeep : SameButPrev (mergedHdr (slots base t.mem w) i (nextAddr base b d.order)) (slots base m w) := by
    have := sameButPrev_prevAt (Function.update (slots base t.mem) w
      (mergedHdr (slots base t.mem w) i (nextAddr base b d.order))) (b + 2 ^ d.order) (base + startSize * w) w
    rwa [← hslots, Function.update_self] at this
  have hrest := (merged_of_slots hslots).others
  refine ⟨?_, ⟨c, hw, hc, hfree⟩, hal, hkeep.order, hi, ?_, ?_, ?_, ?_, ?_, ?_⟩
  · rw [hu.state]
  · intro x e hx
    by_cases hxw : x = w
    · rw [hxw, hkeep.cookie]
      dsimp only [mergedHdr]
      exact hu.cookies hw
    · exact (hrest x hxw).cookie.trans (hu.cookies hx)
  · intro x e hx
    by_cases hxw : x = w
    · rw [hxw]
      exact ⟨i + 1, hkeep.order⟩
    · obtain ⟨j, hj⟩ := hu.orders hx
      exact ⟨j, (hrest x hxw).order.trans hj⟩
  · intro x e hx
    by_cases hxw : x = w
    · rw [hxw]
      exact ⟨b, d, hb, hkeep.next⟩
    · obtain ⟨b', d', hb', hn⟩ := hu.nexts hx
      exact ⟨b', d', hb', (hrest x hxw).next.trans hn⟩
  · intro x e hx hlt
    exact (hu.below hx (by omega)).trans (hrest x hlt.ne)
  · intro x e hx hused hne
    -- a block in use is not the one that grows
    have hxw : x ≠ w := by
      rintro rfl
      rw [hw] at hx
      cases hx
      rw [hfree hne] at hused
      cases hused
    exact (hu.used hx hused hne).trans (hrest x hxw)
  · intro x hx
    rw [← hu.out x hx]
    exact hout x (hx w c hw) (nextAddr_outside hT hb hx)

/-- Where a release comes from `y` and order `o`: it goes on with the same block, one order larger, or with
the left buddy, one order larger than that. -/
inductive NextBlock (B : Layout) (y o : ℕ) : ℕ → ℕ → Prop
  | right : y < buddy y o → NextBlock B y o y (o + 1)
  | left {j : ℕ} : buddy y o < y → B (buddy y o) = some ⟨j, true⟩ → NextBlock B y o (buddy y o) (j + 1)

/-- **One merge of a release**, with a buddy of whatever order. -/
theorem Uneven.step (hA : Arena base) (h : Repr base s B none) (hu : Uneven base s B a t y o) (ho : o ≤ 14)
    (hgo : (hdr t.mem (base + startSize * buddy y o)).isFree = true ∧
      (hdr t.mem (base + startSize * buddy y o)).order < 10) :
    ∃ m f y' o', mergeStep t (base + startSize * y) (base + startSize * buddy y o) =
        .ret ({ t with mem := m, freed := f }, base + startSize * y', peer (base + startSize * y') o') ∧
      Uneven base s B a { t with mem := m, freed := f } y' o' ∧ NextBlock B y o y' o' ∧
      Merged base t.mem m y' o' := by
  have hT := h.heap.tiles
  obtain ⟨c, hy, hc, hfree⟩ := hu.block
  obtain ⟨d, hz, hd⟩ := hT.exists_buddy_of_le (two_pow_dvd_arenaUnits (by omega)) hy hc hu.aligned
  have hne := buddy_ne y o
  obtain ⟨j, hj⟩ := hu.orders hz
  have hck : t.cookie = s.cookie := by rw [hu.state]
  rw [hdr_slot, hj] at hgo
  have hj10 : j ≤ maxOrder := by
    unfold maxOrder
    omega
  rcases lt_or_gt_of_ne hne.symm with hlt | hlt
  · -- a right buddy: the block at `y` grows by one order
    have hal : 2 ^ (o + 1) ∣ y := (lt_buddy_iff hu.aligned).mp hlt
    obtain ⟨b, e, hb, hn⟩ := hu.nexts hz
    obtain ⟨m, he, hslots, hout⟩ := mergeStep_slots (s := t) (i := o) (j := j) hA (min_lt_of_left_lt (hT.lt hy))
      hne.symm ((hu.cookies hy).trans hck.symm) ((hu.cookies hz).trans hck.symm) hj hj10
      (by rw [min_eq_left hlt.le]; exact hu.order) (by omega)
      (buddyAddr_peer (by omega)) (by rw [max_eq_right hlt.le]; exact hn)
    rw [min_eq_left hlt.le] at he hslots hout
    exact ⟨m, _, y, o + 1, he, hu.of_merge hT hy (by omega) hfree le_rfl hal (by omega) hb hslots hout,
      .right hlt, merged_of_slots hslots⟩
  · -- a left buddy: it grows by one order, the order of its own
    have hal : ¬ 2 ^ (o + 1) ∣ y := fun hdvd => by
      have := (lt_buddy_iff hu.aligned).mpr hdvd
      omega
    have hsame := hu.below hz hlt
    have hdj : j = d.order := by
      have h₁ := hsame.order.trans (h.heap.hdrs hz).order
      simp only [hj] at h₁
      exact Int.ofNat.inj h₁
    have hdfree : d.free = true := by
      rw [← h.heap.marks hz (by simp), ← hsame.isFree]
      exact hgo.1
    obtain ⟨b, e, hb, hn⟩ := hu.nexts hy
    obtain ⟨m, he, hslots, hout⟩ := mergeStep_slots (s := t) (i := j) (j := j) hA (min_lt_of_left_lt (hT.lt hy))
      hne.symm ((hu.cookies hy).trans hck.symm) ((hu.cookies hz).trans hck.symm) hj hj10
      (by rw [min_eq_right hlt.le]; exact hj) (by omega)
      (buddyAddr_peer (by omega)) (by rw [max_eq_left hlt.le]; exact hn)
    rw [min_eq_right hlt.le] at he hslots hout
    refine ⟨m, _, _, j + 1, he, hu.of_merge hT hz (by omega) (fun _ => hdfree) hlt.le
      ((pow_dvd_pow 2 (by omega)).trans (buddy_right hu.aligned hal).2) (by omega) hb hslots hout,
      .left hlt ?_, merged_of_slots hslots⟩
    rw [hz, hdj, ← hdfree]

/-- A merge that is made is made of these two. -/
theorem not_sparesPeer_of_mergeStep {addr P : ℕ} {r : State × ℕ × ℕ} (h : mergeStep t addr P = .ret r) :
    ∃ e ∈ (Merges.mergeStep t addr P).log, ¬ SparesPeer P e := by
  obtain ⟨t', keep, next⟩ := r
  obtain ⟨-, hkeep, -⟩ := mergeStep_ret h
  rw [Merges.mergeStep_eq h]
  refine ⟨_, List.mem_singleton.mpr rfl, ?_⟩
  rintro ⟨h₁, h₂⟩
  simp only at h₁ h₂
  split_ifs at h₂ with hlt
  · exact h₂ rfl
  · rw [hkeep] at h₁
    omega

theorem sparesPeer_of_mergeStep {addr buddy P : ℕ} {r : State × ℕ × ℕ} (h : mergeStep t addr buddy = .ret r)
    (haddr : addr ≠ P) (hbuddy : buddy ≠ P) : ∀ e ∈ (Merges.mergeStep t addr buddy).log, SparesPeer P e := by
  obtain ⟨t', keep, next⟩ := r
  obtain ⟨-, rfl, -⟩ := mergeStep_ret h
  rw [Merges.mergeStep_eq h]
  intro e he
  obtain rfl := List.mem_singleton.mp he
  constructor
  · rcases min_choice addr buddy with hmin | hmin <;> simpa only [hmin]
  · simp only
    split_ifs <;> assumption

/-- **The merges of a release that spares the header across the boundary**; the induction is on the fuel. -/
theorem Uneven.loop (hA : Arena base) (h : Repr base s B none) (n : ℕ) : ∀ {t : State} {y o : ℕ}
    {r : State × ℕ}, Uneven base s B a t y o →
      Logged.Within (SparesPeer (peer base 15))
        (Merges.unionLoop n t (base + startSize * y) (peer (base + startSize * y) o)) →
      unionLoop n t (base + startSize * y) (peer (base + startSize * y) o) = .ret r →
      ∃ t' y' o', r = (t', base + startSize * y') ∧ Uneven base s B a t' y' o' := by
  induction n with
  | zero => intro _ _ _ _ _ _ hr; cases hr
  | succ n ih =>
    intro t y o r hu hw hr
    have hT := h.heap.tiles
    obtain ⟨c, hy, -⟩ := hu.block
    rw [unionLoop] at hr
    rw [Merges.unionLoop] at hw
    split_ifs at hr hw with hgo
    · obtain ⟨r₁, h₁, h₂⟩ := Outcome.bind_eq_ret.mp hr
      have hw₁ : Logged.Within (SparesPeer (peer base 15)) (Merges.mergeStep t (base + startSize * y)
          (peer (base + startSize * y) o)) := fun e he => hw e (Logged.mem_log_bind.mpr (.inl he))
      have hw₂ : Logged.Within (SparesPeer (peer base 15)) (Merges.unionLoop n r₁.1 r₁.2.1 r₁.2.2) :=
        fun e he => hw e (Logged.mem_log_bind.mpr (.inr ⟨r₁, by rw [Merges.mergeStep_out, h₁], he⟩))
      rcases Nat.lt_or_ge o 15 with ho | ho
      · rw [peer_slot hA (hT.lt hy) ho] at hgo h₁
        obtain ⟨m, f, y', o', he, hu', -⟩ := hu.step hA h (by omega) hgo
        rw [he] at h₁
        obtain rfl := Outcome.ret.inj h₁
        exact ih hu' hw₂ h₂
      · -- the whole arena: its buddy is the header that is spared
        obtain rfl : o = 15 := le_antisymm hu.le ho
        obtain rfl : y = 0 := Nat.eq_zero_of_dvd_of_lt hu.aligned (hT.lt hy)
        rw [mul_zero, add_zero] at hw₁ h₁
        obtain ⟨e, he, hns⟩ := not_sparesPeer_of_mergeStep h₁
        exact absurd (hw₁ e he) hns
    · obtain rfl := Outcome.ret.inj hr
      exact ⟨t, y, o, rfl, hu⟩

/-- **A release that spares the header across the boundary writes only to headers**, and to those of the other
blocks in use only `prev`. -/
theorem unionIfPossible_uneven {n : ℕ} {s' : State} (hA : Arena base) (h : Repr base s B none)
    (ha : B a = some ⟨k, false⟩)
    (hw : Logged.Within (SparesPeer (peer base 15)) (Merges.unionIfPossible n s (base + startSize * a)))
    (hr : unionIfPossible n s (base + startSize * a) = .ret s') :
    s' = { s with mem := s'.mem, freed := s'.freed } ∧ Outside base B s.mem s'.mem ∧
      ∀ {x c}, B x = some c → c.free = false → x ≠ a →
        SameButPrev (slots base s.mem x) (slots base s'.mem x) := by
  have hT := h.heap.tiles
  have hH := h.heap.hdrs ha
  have hbud := h.buddyAddr_hdr_peer ha
  rw [Merges.unionIfPossible, hdr_slot, hH.isMmap, if_neg (by simp), ← hdr_slot, hbud,
    Logged.lift_ret_bind] at hw
  rw [unionIfPossible, hdr_slot, hH.isMmap, if_neg (by simp), ← hdr_slot, hbud, Outcome.ret_bind] at hr
  obtain ⟨r, hloop, hadd⟩ := Outcome.bind_eq_ret.mp hr
  obtain ⟨t, y, o, rfl, hu⟩ := Uneven.loop hA h n (h.uneven ha)
    (fun e he => hw e (Logged.mem_log_bind.mpr (.inl he))) hloop
  obtain ⟨c, hy, -, hfree⟩ := hu.block
  obtain ⟨i, -, hs'⟩ := Outcome.bind_eq_ret.mp hadd
  obtain rfl := Outcome.ret.inj hs'
  refine ⟨?_, fun x hx => ?_, fun {x d} hx hused hne => ?_⟩
  · rw [hu.state]
  · exact (setIsFree_out _ _ _ (hx y c hy)).trans (hu.out x hx)
  · have hxy : x ≠ y := by
      rintro rfl
      rw [hy] at hx
      cases hx
      rw [hfree hne] at hused
      cases hused
    show SameButPrev _ (slots base (setIsFree t.mem (base + startSize * y) true) x)
    rw [slots_setIsFree, Function.update_of_ne hxy]
    exact hu.used hx hused hne

end Step

end OsHomework.Malloc3
