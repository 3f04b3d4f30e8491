import OsHomework.Malloc3.Calls
import OsHomework.Malloc3.Rises

/-!
# `malloc_3`: nothing outside the arena is written

A release that takes too much leaves blocks that overlap, and headers inside other blocks. Splitting and
merging go on with such headers, but they stay in the arena.

* `Sane base h`: a header that leads nowhere but into the arena; `Tame base m`: the headers that are marked
  free are sane, and none of those across the boundary is marked;
* `Confined base m m'`: only headers of the arena change, and they become sane;
* `HeapStep base s s'`: such a change, with the free lists; **`splitIfPossible_heapStep`**,
  **`unionIfPossible_heapStep`**;
* `Guarded base s`: what the two need; **`Guarded.malloc`**, **`Guarded.free`**.
-/

set_option autoImplicit false

namespace OsHomework.Malloc3

open Buddy

/-! ## Headers -/

/-- **A header that leads nowhere but into the arena.** -/
structure Sane (base : ℕ) (h : MallocMetadata) : Prop where
  isMmap : h.isMmap = false
  order_nonneg : 0 ≤ h.order
  order_le : h.order ≤ 15
  next : h.next = 0 ∨ ∃ b < arenaUnits, h.next = base + startSize * b

/-- The address that a block at `base + 128 * a` of the order of the whole arena takes for its buddy. -/
def across (base a : ℕ) : ℕ := (base + startSize * a) ^^^ (startSize * 2 ^ 15)

/-- Headers that are marked free are sane, and none across the boundary is marked free. -/
structure Tame (base : ℕ) (m : Mem) : Prop where
  marked : ∀ a < arenaUnits, (slots base m a).isFree = true → Sane base (slots base m a)
  across : ∀ a < arenaUnits, (hdr m (across base a)).isFree = false

/-- **Only headers of the arena change**, and they become sane; of the others only `prev` does. -/
structure Confined (base : ℕ) (m m' : Mem) : Prop where
  hdrs : ∀ a < arenaUnits,
    Sane base (slots base m' a) ∨ ∃ w, slots base m' a = { slots base m a with prev := w }
  out : ∀ x, x < base ∨ base + startSize * arenaUnits ≤ x → m' x = m x

section Confined

variable {base a b x : ℕ} {h : MallocMetadata} {m m' m'' : Mem}

theorem Sane.prev (hs : Sane base h) (w : ℕ) : Sane base { h with prev := w } :=
  ⟨hs.isMmap, hs.order_nonneg, hs.order_le, hs.next⟩

theorem dvd_slot (hA : Arena base) (a : ℕ) : startSize ∣ base + startSize * a :=
  Nat.dvd_add ((show startSize ∣ 2 ^ 22 by decide).trans hA.aligned) (Nat.dvd_mul_right _ _)

theorem Sane.dvd_next (hA : Arena base) (hs : Sane base h) : startSize ∣ h.next := by
  rcases hs.next with h₀ | ⟨b, -, hb⟩
  · rw [h₀]
    exact dvd_zero _
  · rw [hb]
    exact dvd_slot hA b

/-- The header across the boundary lies outside the arena. -/
theorem across_out (hA : Arena base) (ha : a < arenaUnits) : startSize ∣ across base a ∧
    (across base a + 40 ≤ base ∨ base + startSize * arenaUnits ≤ across base a) := by
  obtain ⟨q, rfl⟩ := hA.aligned
  have hlt : startSize * a < 2 ^ 22 := by
    unfold startSize arenaUnits at *
    omega
  have hsplit : ∀ p, 2 ^ 22 * p ^^^ startSize * a = 2 ^ 22 * p + startSize * a := fun p => by
    simpa using two_pow_mul_add_xor (n := 22) (q := p) (r := 0) (t := startSize * a) (by norm_num) hlt
  have he : across (2 ^ 22 * q) a = 2 ^ 22 * (q ^^^ 1) + startSize * a := by
    rw [across, ← hsplit q, Nat.xor_assoc, Nat.xor_comm (startSize * a), ← Nat.xor_assoc,
      show startSize * 2 ^ 15 = 2 ^ 22 * 1 by unfold startSize; norm_num, two_pow_mul_xor_mul, hsplit]
  rw [he, xor_one]
  refine ⟨?_, ?_⟩
  · exact Nat.dvd_add ((show startSize ∣ 2 ^ 22 by decide).trans (Nat.dvd_mul_right _ _)) (Nat.dvd_mul_right _ _)
  · unfold startSize arenaUnits at *
    split_ifs <;> omega

theorem Confined.refl : Confined base m m := ⟨fun _ _ => .inr ⟨_, self_with_prev _⟩, fun _ _ => rfl⟩

theorem Confined.sane (hc : Confined base m m') (ha : a < arenaUnits) (hs : Sane base (slots base m a)) :
    Sane base (slots base m' a) := by
  rcases hc.hdrs a ha with h | ⟨w, hw⟩
  · exact h
  · rw [hw]
    exact hs.prev w

theorem Confined.trans (h₁ : Confined base m m') (h₂ : Confined base m' m'') : Confined base m m'' := by
  refine ⟨fun a ha => ?_, fun x hx => (h₂.out x hx).trans (h₁.out x hx)⟩
  rcases h₁.hdrs a ha with hs | ⟨w, hw⟩
  · exact .inl (h₂.sane ha hs)
  · rcases h₂.hdrs a ha with hs | ⟨v, hv⟩
    · exact .inl hs
    · exact .inr ⟨v, by rw [hv, hw]⟩

theorem Confined.tame (hc : Confined base m m') (hA : Arena base) (ht : Tame base m) : Tame base m' := by
  refine ⟨fun a ha hf => ?_, fun a ha => ?_⟩
  · rcases hc.hdrs a ha with hs | ⟨w, hw⟩
    · exact hs
    · rw [hw] at hf ⊢
      exact (ht.marked a ha hf).prev w
  · have hout := (across_out hA ha).2
    rw [@hdr_congr _ m _ fun x h₁ h₂ => hc.out x (by omega)]
    exact ht.across a ha

theorem confined_of_update (ha : a < arenaUnits)
    (hm : ∀ x, x < base + startSize * a ∨ base + startSize * a + 40 ≤ x → m' x = m x)
    (hs : Sane base (slots base m' a)) : Confined base m m' := by
  refine ⟨fun b hb => ?_, fun x hx => hm x ?_⟩
  · by_cases he : b = a
    · exact .inl (he ▸ hs)
    · refine .inr ⟨_, (slots_congr fun x h₁ h₂ => hm x ?_).trans (self_with_prev _)⟩
      unfold startSize at *
      omega
  · unfold startSize arenaUnits at *
    omega

theorem confined_setPrevIf {next v : ℕ} (hA : Arena base)
    (hn : next = 0 ∨ ∃ b < arenaUnits, next = base + startSize * b) : Confined base m (setPrevIf m next v) := by
  have hdvd : startSize ∣ next := by
    rcases hn with rfl | ⟨b, -, rfl⟩
    · exact dvd_zero _
    · exact dvd_slot hA b
  refine ⟨fun a _ => .inr (hdr_setPrevIf hdvd (dvd_slot hA a)), fun x hx => setPrevIf_out fun h₀ => ?_⟩
  obtain ⟨b, hb, rfl⟩ := hn.resolve_left h₀
  unfold startSize arenaUnits at *
  omega

end Confined

/-! ## Changes of the heap -/

/-- The block at `p` is in the arena and its header is sane. -/
def SaneAt (base : ℕ) (m : Mem) (p : ℕ) : Prop :=
  ∃ a < arenaUnits, p = base + startSize * a ∧ Sane base (slots base m a)

/-- **A change of the heap**: headers of the arena and free lists, and what is added to the lists is sane. -/
structure HeapStep (base : ℕ) (s s' : State) : Prop where
  frame : s' = { s with mem := s'.mem, freed := s'.freed }
  confined : Confined base s.mem s'.mem
  freed : ∀ k, ∀ p ∈ s'.freed k, p ∈ s.freed k ∨ SaneAt base s'.mem p

section HeapStep

variable {base p : ℕ} {s s' s'' : State} {m m' : Mem}

theorem SaneAt.confined (h : SaneAt base m p) (hc : Confined base m m') : SaneAt base m' p := by
  obtain ⟨a, ha, rfl, hs⟩ := h
  exact ⟨a, ha, rfl, hc.sane ha hs⟩

namespace HeapStep

theorem of_mem (hc : Confined base s.mem m) : HeapStep base s { s with mem := m } :=
  ⟨rfl, hc, fun _ _ hp => .inl hp⟩

theorem refl : HeapStep base s s := of_mem .refl

theorem trans (h₁ : HeapStep base s s') (h₂ : HeapStep base s' s'') : HeapStep base s s'' := by
  refine ⟨?_, h₁.confined.trans h₂.confined, fun k p hp => ?_⟩
  · rw [h₂.frame, h₁.frame]
  · rcases h₂.freed k p hp with hp | hp
    · exact (h₁.freed k p hp).imp_right fun hs => hs.confined h₂.confined
    · exact .inr hp

theorem cookie (h : HeapStep base s s') : s'.cookie = s.cookie := by rw [h.frame]

end HeapStep

theorem mem_update_orderedInsert {f : ℕ → List ℕ} {i k p q : ℕ}
    (hq : q ∈ Function.update f i ((f i).orderedInsert (· ≤ ·) p) k) : q ∈ f k ∨ q = p := by
  by_cases hk : k = i
  · subst hk
    rw [Function.update_self, List.mem_orderedInsert] at hq
    exact hq.symm
  · rw [Function.update_of_ne hk] at hq
    exact .inl hq

theorem addToFreeOrder_heapStep {o : ℤ} (hs : SaneAt base s.mem p) (h : addToFreeOrder s p o = .ret s') :
    HeapStep base s s' := by
  obtain ⟨i, -, h⟩ := Outcome.bind_eq_ret.mp h
  obtain rfl := Outcome.ret.inj h
  refine ⟨rfl, .refl, fun k q hq => ?_⟩
  rcases mem_update_orderedInsert hq with hq | rfl
  · exact .inl hq
  · exact .inr hs

theorem confined_setIsFree {a : ℕ} (ha : a < arenaUnits) (hs : Sane base (slots base m a)) (f : Bool) :
    Confined base m (setIsFree m (base + startSize * a) f) := by
  apply confined_of_update ha fun x hx => setIsFree_out _ _ _ hx
  rw [slots_setIsFree, Function.update_self]
  exact ⟨hs.isMmap, hs.order_nonneg, hs.order_le, hs.next⟩

/-! ## Merging -/

/-- The swallowing block gets the `next` of the other one. -/
theorem absorb_confined {a b : ℕ} (hA : Arena base) (ha : a < arenaUnits) (hb : b < arenaUnits)
    (hsa : Sane base (slots base s.mem a)) (hsb : Sane base (slots base s.mem b))
    (ho : (slots base s.mem a).order < 15)
    (h : absorb s (base + startSize * a) (base + startSize * b) = .ret s') : Confined base s.mem s'.mem := by
  obtain ⟨bytes, hord, he⟩ := absorb_ret h
  have hself := hdr_grownHdr_self bytes (hdr_next_lt s.mem (base + startSize * b)) hord
  have hout : ∀ x, x < base + startSize * a ∨ base + startSize * a + 40 ≤ x →
      grownHdr s.mem (base + startSize * a) (hdr s.mem (base + startSize * b)).next bytes x = s.mem x := by
    intro x hx
    rw [grownHdr, setIsFree_out _ _ _ hx, setSize_out _ _ _ hx, setOrder_out _ _ _ hx, setNext_out _ _ _ hx]
  generalize grownHdr s.mem (base + startSize * a) (hdr s.mem (base + startSize * b)).next bytes = m₁
    at he hself hout
  have hc : Confined base s.mem m₁ := by
    apply confined_of_update ha hout
    rw [← hdr_slot, hself]
    exact ⟨hsa.isMmap, Int.le_add_one hsa.order_nonneg, ho, hsb.next⟩
  have hmem : s'.mem = setPrevIf m₁ (hdr m₁ (base + startSize * b)).next (base + startSize * a) := by rw [he]
  rw [hmem]
  exact hc.trans (confined_setPrevIf hA (hc.sane hb hsb).next)

/-- **One merge** of two blocks that are not the whole arena. -/
theorem mergeStep_heapStep {y z addr' buddy' : ℕ} (hA : Arena base) (hy : y < arenaUnits)
    (hz : z < arenaUnits) (hsy : Sane base (slots base s.mem y)) (hsz : Sane base (slots base s.mem z))
    (hoy : (slots base s.mem y).order < 15) (hoz : (slots base s.mem z).order < 15)
    (h : mergeStep s (base + startSize * y) (base + startSize * z) = .ret (s', addr', buddy')) :
    HeapStep base s s' ∧ addr' = base + startSize * min y z ∧
      buddyAddr addr' (hdr s'.mem addr').order = .ret buddy' := by
  obtain ⟨-, rfl, hbud, hst, hfreed, t, ht, habs⟩ := mergeStep_ret h
  have hmin : min (base + startSize * y) (base + startSize * z) = base + startSize * min y z := by
    unfold startSize
    omega
  have hmax : max (base + startSize * y) (base + startSize * z) = base + startSize * max y z := by
    unfold startSize
    omega
  rw [hmin, hmax] at habs
  refine ⟨⟨hst, ?_, fun k p hp => .inl (hfreed k hp)⟩, hmin, hbud⟩
  rw [← ht] at hsy hsz hoy hoz ⊢
  rcases le_total y z with hle | hle
  · rw [min_eq_left hle, max_eq_right hle] at habs
    exact absorb_confined hA hy hz hsy hsz hoy habs
  · rw [min_eq_right hle, max_eq_left hle] at habs
    exact absorb_confined hA hz hy hsz hsy hoz habs

theorem buddy_lt {a k : ℕ} (ha : a < arenaUnits) (hk : k < 15) : buddy a k < arenaUnits :=
  Nat.xor_lt_two_pow ha (Nat.pow_lt_pow_right (by norm_num) hk)

/-- **The merge loop stays in the arena.** Below the order of the whole arena the buddy is a block of the
arena; that of the whole arena lies across the boundary, and is not marked free. -/
theorem unionLoop_heapStep {n y buddy A : ℕ} (hA : Arena base) (ht : Tame base s.mem)
    (hy : y < arenaUnits) (hs : Sane base (slots base s.mem y))
    (hbud : buddyAddr (base + startSize * y) (slots base s.mem y).order = .ret buddy)
    (h : unionLoop n s (base + startSize * y) buddy = .ret (s', A)) :
    HeapStep base s s' ∧ SaneAt base s'.mem A := by
  induction n generalizing s y buddy with
  | zero => cases h
  | succ n ih =>
    rw [unionLoop] at h
    split_ifs at h with hgo
    · obtain ⟨⟨s₁, addr₁, buddy₁⟩, h₁, h⟩ := Outcome.bind_eq_ret.mp h
      obtain ⟨k, hk⟩ : ∃ k : ℕ, (slots base s.mem y).order = k :=
        ⟨_, (Int.toNat_of_nonneg hs.order_nonneg).symm⟩
      have hk15 : k ≤ 15 := by
        have := hs.order_le
        omega
      rw [hk] at hbud
      obtain rfl | hlt : k = 15 ∨ k < 15 := by omega
      · rw [buddyAddr, blockBytes_ofNat (by norm_num), Outcome.ret_bind] at hbud
        obtain rfl := Outcome.ret.inj hbud
        have hnot := ht.across y hy
        rw [across, hgo.1] at hnot
        cases hnot
      · rw [buddyAddr_slot hA hy hlt] at hbud
        obtain rfl := Outcome.ret.inj hbud
        have hz := buddy_lt hy hlt
        have hsz := ht.marked _ hz hgo.1
        have hgo₂ : (slots base s.mem (Buddy.buddy y k)).order < 10 := hgo.2
        obtain ⟨hst, rfl, hbud₁⟩ := mergeStep_heapStep hA hy hz hs hsz (by omega) (by omega) h₁
        have hmin : min y (Buddy.buddy y k) < arenaUnits := by omega
        have hsmin : Sane base (slots base s.mem (min y (Buddy.buddy y k))) := by
          rcases min_choice y (Buddy.buddy y k) with he | he <;> rw [he] <;> assumption
        obtain ⟨hst', hA'⟩ := ih (hst.confined.tame hA ht) hmin
          (hst.confined.sane hmin hsmin) hbud₁ h
        exact ⟨hst.trans hst', hA'⟩
    · cases h
      exact ⟨.refl, y, hy, rfl, hs⟩

/-- **A release of a sane block.** -/
theorem unionIfPossible_heapStep {n a : ℕ} (hA : Arena base) (ht : Tame base s.mem)
    (ha : a < arenaUnits) (hs : Sane base (slots base s.mem a))
    (h : unionIfPossible n s (base + startSize * a) = .ret s') : HeapStep base s s' := by
  obtain ⟨t, b, y, o, hbud, hloop, -, -, rfl⟩ := unionIfPossible_ret hs.isMmap h
  obtain ⟨hst, y, hy, rfl, hsy⟩ := unionLoop_heapStep hA ht ha hs hbud hloop
  have hc := confined_setIsFree hy hsy true
  refine hst.trans ⟨rfl, hc, fun k q hq => ?_⟩
  rcases mem_update_orderedInsert hq with hq | rfl
  · exact .inl hq
  · exact .inr ⟨y, hy, rfl, hc.sane hy hsy⟩

/-! ## Splitting -/

theorem linkBuddy_confined {a b k : ℕ} (hA : Arena base) (ha : a < arenaUnits) (hb : b < arenaUnits)
    (hs : Sane base (slots base m a)) (ho : (slots base m a).order = (k + 1 : ℕ)) (hk : k ≤ 15) :
    Confined base m (linkBuddy m (base + startSize * a) (base + startSize * b)) := by
  have hc := confined_setPrevIf (m := m) (v := base + startSize * b) hA hs.next
  obtain ⟨w, hw⟩ : ∃ w, slots base (setPrevIf m (slots base m a).next (base + startSize * b)) a =
      { slots base m a with prev := w } := hdr_setPrevIf (hs.dvd_next hA) (dvd_slot hA a)
  refine hc.trans (confined_of_update ha (fun x hx => ?_) ?_)
  · rw [linkBuddy, setSize_out _ _ _ hx, setNext_out _ _ _ hx, setOrder_out _ _ _ hx, hdr_slot]
  · have hord : ((k + 1 : ℕ) : ℤ) - 1 = k := by omega
    simp only [linkBuddy, hdr_slot, slots_setSize, slots_setNext, slots_setOrder, Function.update_self, hw, ho,
      hord, toInt32_ofInt32_nat hk, slot_mod hA hb]
    exact ⟨hs.isMmap, Int.natCast_nonneg k, Int.ofNat_le.mpr hk, .inr ⟨b, hb, rfl⟩⟩

/-- **One split.** -/
theorem splitStep_heapStep {a : ℕ} (hA : Arena base) (hck : s.cookie < 2 ^ 32) (ha : a < arenaUnits)
    (hs : Sane base (slots base s.mem a)) (h₀ : 0 < (slots base s.mem a).order)
    (h : splitStep s (base + startSize * a) = .ret s') : HeapStep base s s' := by
  obtain ⟨k, hk⟩ : ∃ k : ℕ, (slots base s.mem a).order = (k + 1 : ℕ) :=
    ⟨((slots base s.mem a).order - 1).toNat, by omega⟩
  have hk15 : k < 15 := by
    have := hs.order_le
    omega
  have hord : ((k + 1 : ℕ) : ℤ) - 1 = k := by omega
  have hb := buddy_lt ha hk15
  have hne := (buddy_ne a k).symm
  rw [splitStep, hdr_slot, hk, hord, buddyAddr_slot hA ha hk15, Outcome.ret_bind] at h
  obtain ⟨m, hw, hm, hout⟩ := slots_writeBuddy hA hck ha hne (by omega) hk
  rw [hw, Outcome.ret_bind] at h
  obtain ⟨s₁, hadd, h⟩ := Outcome.bind_eq_ret.mp h
  obtain rfl := Outcome.ret.inj h
  -- the right half gets a sane header
  have hsb : Sane base (slots base m (buddy a k)) := by
    rw [hm, Function.update_self]
    exact ⟨rfl, by simp [buddyHdr], by simp [buddyHdr]; omega, hs.next⟩
  have hma : slots base m a = slots base s.mem a := by rw [hm, Function.update_of_ne hne]
  have h₁ : HeapStep base s { s with mem := m } := .of_mem (confined_of_update hb hout hsb)
  have h₂ := addToFreeOrder_heapStep (s := { s with mem := m }) ⟨_, hb, rfl, hsb⟩ hadd
  have hmem : s₁.mem = m := by
    obtain ⟨i, -, hi⟩ := Outcome.bind_eq_ret.mp hadd
    rw [← Outcome.ret.inj hi]
  refine (h₁.trans h₂).trans (.of_mem ?_)
  rw [hmem]
  exact linkBuddy_confined hA ha hb (hma ▸ hs) (hma ▸ hk) (by omega)

theorem splitLoop_heapStep {n a size : ℕ} (hA : Arena base) (hck : s.cookie < 2 ^ 32) (ha : a < arenaUnits)
    (hs : Sane base (slots base s.mem a)) (h : splitLoop n s (base + startSize * a) size = .ret s') :
    HeapStep base s s' := by
  induction n generalizing s with
  | zero => cases h
  | succ n ih =>
    rw [splitLoop] at h
    split_ifs at h with h₀
    · obtain ⟨s₁, h₁, h⟩ := Outcome.bind_eq_ret.mp h
      have hst := splitStep_heapStep hA hck ha hs h₀ h₁
      exact hst.trans (ih (hst.cookie ▸ hck) (hst.confined.sane ha hs) h)
    · cases h
      exact .refl
    · cases h
      exact .refl

/-- **An allocation from a sane block.** -/
theorem splitIfPossible_heapStep {n a size : ℕ} (hA : Arena base) (hck : s.cookie < 2 ^ 32)
    (ha : a < arenaUnits) (hs : Sane base (slots base s.mem a))
    (h : splitIfPossible n s (base + startSize * a) size = .ret s') : HeapStep base s s' := by
  rw [splitIfPossible] at h
  split_ifs at h
  obtain ⟨s₁, h₁, h⟩ := Outcome.bind_eq_ret.mp h
  obtain rfl := Outcome.ret.inj h
  have hst := splitLoop_heapStep hA hck ha hs h₁
  exact hst.trans (.of_mem (confined_setIsFree ha (hst.confined.sane ha hs) false))

end HeapStep

/-! ## What every change of the heap keeps -/

/-- **The allocator stays in the arena**: what it trusts there is sane. -/
structure Guarded (base : ℕ) (s : State) : Prop where
  arena : Arena base
  head : s.head = base
  cookie : s.cookie < 2 ^ 32
  tame : Tame base s.mem
  freed : ∀ k ≤ maxOrder, ∀ p ∈ s.freed k, SaneAt base s.mem p

namespace Guarded

variable {base n p q size : ℕ} {s s' : State}

theorem heapStep (h : Guarded base s) (hs : HeapStep base s s') : Guarded base s' := by
  refine ⟨h.arena, ?_, hs.cookie ▸ h.cookie, hs.confined.tame h.arena h.tame, fun k hk p hp => ?_⟩
  · rw [hs.frame, h.head]
  · rcases hs.freed k p hp with hp | hp
    · exact (h.freed k hk p hp).confined hs.confined
    · exact hp

/-- **An allocation that is not mapped.** -/
theorem malloc (h : Guarded base s) {sys : Sys} (hsize : size < maxSize)
    (hs : malloc sys n s size = .ret (s', p)) :
    HeapStep base s s' ∧ (p = 0 ∨ ∃ q, p = q + sizeofMetadata ∧ SaneAt base s'.mem q) := by
  have hhead : s.head ≠ 0 := by
    rw [h.head]
    exact h.arena.pos.ne'
  rw [Malloc3.malloc, if_neg hhead] at hs
  dsimp only at hs
  split_ifs at hs with hv hl
  · cases hs
    exact ⟨.refl, .inl rfl⟩
  · omega
  rcases getFreeBlockFrom_cases s size (List.range (maxOrder + 1)) with
    ⟨he, -⟩ | ⟨l₁, j, l₂, q, rest, hl, -, hf, -, he⟩
  · rw [getFreeBlock, he] at hs
    cases hs
    exact ⟨.refl, .inl rfl⟩
  · rw [getFreeBlock, he] at hs
    obtain ⟨s₁, h₁, hs⟩ := Outcome.bind_eq_ret.mp hs
    cases hs
    have hj : j ≤ maxOrder := by
      have hmem : j ∈ List.range (maxOrder + 1) := by rw [hl]; simp
      exact Nat.le_of_lt_succ (List.mem_range.mp hmem)
    have hpop : HeapStep base s { s with freed := Function.update s.freed j rest } := by
      refine ⟨rfl, .refl, fun k x hx => .inl ?_⟩
      dsimp only at hx
      by_cases hk : k = j
      · subst hk
        rw [Function.update_self] at hx
        rw [hf]
        exact List.mem_cons_of_mem _ hx
      · rwa [Function.update_of_ne hk] at hx
    obtain ⟨a, ha, rfl, hsane⟩ := h.freed j hj q (by rw [hf]; exact List.mem_cons_self)
    have hst := splitIfPossible_heapStep (s := { s with freed := Function.update s.freed j rest }) h.arena
      h.cookie ha hsane h₁
    exact ⟨hpop.trans hst, .inr ⟨_, rfl, a, ha, rfl, hst.confined.sane ha hsane⟩⟩

/-- **A release of a pointer into the arena**, whatever its header is by now. -/
theorem free (h : Guarded base s) (hq : SaneAt base s.mem q)
    (hs : free n s (q + sizeofMetadata) = .ret s') : HeapStep base s s' := by
  obtain ⟨a, ha, rfl, hsane⟩ := hq
  rw [free_eq_union h.arena ha hsane.isMmap] at hs
  exact unionIfPossible_heapStep h.arena h.tame ha hsane hs

end Guarded

end OsHomework.Malloc3
