import Mathlib.Data.Nat.Bitwise
import Mathlib.Logic.Function.Basic
import Mathlib.Tactic.Ring
import Mathlib.Tactic.Linarith

/-!
# Dyadic tilings and buddies

The state of a binary buddy system, in units of its smallest block: a **layout** gives each
position at which a block starts the order of that block and whether it is free. A layout tiles
`[0, z)` when the blocks are aligned to their own length, do not overlap and leave no gap.

* `buddy a k = a ^^^ 2 ^ k`: `buddy_left`, `buddy_right`;
* `Tiles`, and what the tiling says about a buddy address: **`Tiles.exists_buddy`** — a block
  starts there, of at most the same order;
* `split`, `merge`, `mark` keep the tiling;
* `release`: give a block back, merging it with free buddies **of the same order** as long as there
  are any; `Quiet`: on its way up, `release` finds no free buddy of a smaller order;
* `splitTo`: cut a block down to a smaller order; `release_splitTo` undoes it;
* `Coalesced`: no two free buddies of one order; **`Coalesced.eq_fresh`**.
-/

set_option autoImplicit false

namespace OsHomework.Buddy

/-! ## Buddy positions -/

/-- The position of the buddy of the order-`k` block at `a`. -/
def buddy (a k : ℕ) : ℕ := a ^^^ 2 ^ k

theorem xor_one (q : ℕ) : q ^^^ 1 = if q % 2 = 0 then q + 1 else q - 1 := by
  have h := Nat.div_add_mod q 2
  have h₁ := Nat.div_add_mod (q ^^^ 1) 2
  have h₂ : (q ^^^ 1) / 2 = q / 2 := by simp [Nat.xor_div_two]
  have h₃ : (q ^^^ 1) % 2 = (q + 1) % 2 := by
    rcases Nat.mod_two_eq_zero_or_one q with _ | _ <;> simp
  split_ifs <;> omega

theorem two_pow_mul_add_xor {n q r t : ℕ} (hr : r < 2 ^ n) (ht : t < 2 ^ n) :
    (2 ^ n * q + r) ^^^ t = 2 ^ n * q + (r ^^^ t) := by
  apply Nat.eq_of_testBit_eq
  intro i
  rw [Nat.testBit_xor, Nat.testBit_two_pow_mul_add _ hr,
    Nat.testBit_two_pow_mul_add _ (Nat.xor_lt_two_pow hr ht)]
  split_ifs with hi
  · rw [Nat.testBit_xor]
  · rw [Nat.testBit_eq_false_of_lt (ht.trans_le (Nat.pow_le_pow_right (by norm_num) (by omega))),
      Bool.xor_false]

theorem two_pow_mul_xor_mul (n a b : ℕ) : 2 ^ n * a ^^^ 2 ^ n * b = 2 ^ n * (a ^^^ b) := by
  have h := Nat.shiftLeft_xor_distrib (i := n) (a := a) (b := b)
  simp only [Nat.shiftLeft_eq] at h
  rw [mul_comm _ a, mul_comm _ b, ← h, mul_comm]

theorem buddy_left {a k : ℕ} (h : 2 ^ (k + 1) ∣ a) : buddy a k = a + 2 ^ k := by
  obtain ⟨q, rfl⟩ := h
  have h := two_pow_mul_xor_mul k (2 * q) 1
  rw [mul_one, xor_one, if_pos (by omega)] at h
  rw [buddy, pow_succ, mul_assoc, h]
  ring

theorem buddy_right {a k : ℕ} (h : 2 ^ k ∣ a) (h' : ¬ 2 ^ (k + 1) ∣ a) :
    buddy a k + 2 ^ k = a ∧ 2 ^ (k + 1) ∣ buddy a k := by
  obtain ⟨q, rfl⟩ := h
  have hq : q % 2 = 1 := by
    by_contra hc
    exact h' ⟨q / 2, by rw [pow_succ, mul_assoc, Nat.mul_div_cancel' (by omega)]⟩
  obtain ⟨r, rfl⟩ : ∃ r, q = 2 * r + 1 := ⟨q / 2, by omega⟩
  have h := two_pow_mul_xor_mul k (2 * r + 1) 1
  rw [mul_one, xor_one, if_neg (by omega), Nat.add_sub_cancel] at h
  rw [buddy, h]
  exact ⟨by ring, ⟨r, by rw [pow_succ]; ring⟩⟩

theorem two_pow_dvd_buddy {a k : ℕ} (h : 2 ^ k ∣ a) : 2 ^ k ∣ buddy a k := by
  by_cases h' : 2 ^ (k + 1) ∣ a
  · rw [buddy_left h']
    exact Nat.dvd_add h dvd_rfl
  · exact (pow_dvd_pow 2 (Nat.le_succ k)).trans (buddy_right h h').2

theorem min_buddy {a k : ℕ} (h : 2 ^ k ∣ a) :
    2 ^ (k + 1) ∣ min a (buddy a k) ∧ max a (buddy a k) = min a (buddy a k) + 2 ^ k := by
  by_cases h' : 2 ^ (k + 1) ∣ a
  · rw [buddy_left h', min_eq_left (Nat.le_add_right _ _), max_eq_right (Nat.le_add_right _ _)]
    exact ⟨h', rfl⟩
  · obtain ⟨h₁, h₂⟩ := buddy_right h h'
    rw [min_eq_right (by omega), max_eq_left (by omega)]
    exact ⟨h₂, h₁.symm⟩

theorem buddy_ne (a k : ℕ) : buddy a k ≠ a := by
  intro h
  have h' : a ^^^ (a ^^^ 2 ^ k) = 0 := by rw [show a ^^^ 2 ^ k = a from h, Nat.xor_self]
  rw [← Nat.xor_assoc, Nat.xor_self, Nat.zero_xor] at h'
  exact absurd h' (Nat.two_pow_pos k).ne'

/-- An aligned position inside an aligned block of at most its alignment is the start of it. -/
theorem eq_of_dvd_of_mem {d p q : ℕ} (hp : 2 ^ d ∣ p) (hq : 2 ^ d ∣ q) (h₁ : q ≤ p)
    (h₂ : p < q + 2 ^ d) : p = q := by
  obtain ⟨r, hr⟩ := Nat.dvd_sub hp hq
  rcases Nat.eq_zero_or_pos r with rfl | hpos
  · omega
  · have := Nat.le_mul_of_pos_right (2 ^ d) hpos
    omega

theorem add_le_of_dvd {d p z : ℕ} (hp : 2 ^ d ∣ p) (hz : 2 ^ d ∣ z) (h : p < z) : p + 2 ^ d ≤ z := by
  obtain ⟨r, hr⟩ := Nat.dvd_sub hz hp
  rcases Nat.eq_zero_or_pos r with rfl | hpos
  · omega
  · have := Nat.le_mul_of_pos_right (2 ^ d) hpos
    omega

/-! ## Layouts -/

/-- A block: its order, and whether it is free. -/
structure Cell where
  order : ℕ
  free : Bool
  deriving DecidableEq, Repr

/-- Which blocks start where. -/
abbrev Layout := ℕ → Option Cell

/-- **The blocks tile `[0, z)`**: each has order at most `M` and is aligned to its length, the
next block starts where it ends, and none starts inside it. -/
structure Tiles (M z : ℕ) (B : Layout) : Prop where
  first : ∃ c, B 0 = some c
  le_max : ∀ {a c}, B a = some c → c.order ≤ M
  aligned : ∀ {a c}, B a = some c → 2 ^ c.order ∣ a
  fits : ∀ {a c}, B a = some c → a + 2 ^ c.order ≤ z
  next : ∀ {a c}, B a = some c → a + 2 ^ c.order < z → ∃ d, B (a + 2 ^ c.order) = some d
  inner : ∀ {a c u}, B a = some c → a < u → u < a + 2 ^ c.order → B u = none

/-- The layout of whole blocks of order `M`, all free. -/
def fresh (M z : ℕ) : Layout := fun a => if a < z ∧ 2 ^ M ∣ a then some ⟨M, true⟩ else none

/-- Change the mark of the order-`k` block at `a`. -/
def mark (B : Layout) (a k : ℕ) (f : Bool) : Layout := Function.update B a (some ⟨k, f⟩)

/-- Cut the order-`k + 1` block at `a` in two; the right half becomes free. -/
def split (B : Layout) (a k : ℕ) : Layout :=
  Function.update (Function.update B (a + 2 ^ k) (some ⟨k, true⟩)) a (some ⟨k, false⟩)

/-- Join the order-`k` blocks at `a` and `a + 2 ^ k`. -/
def merge (B : Layout) (a k : ℕ) : Layout :=
  Function.update (Function.update B (a + 2 ^ k) none) a (some ⟨k + 1, false⟩)

section Tiling

variable {M z : ℕ} {B : Layout}

theorem Tiles.lt (h : Tiles M z B) {a : ℕ} {c : Cell} (ha : B a = some c) : a < z := by
  have := h.fits ha
  have := Nat.two_pow_pos c.order
  omega

theorem Tiles.cover (h : Tiles M z B) {u : ℕ} (hu : u < z) :
    ∃ a c, B a = some c ∧ a ≤ u ∧ u < a + 2 ^ c.order := by
  induction u with
  | zero =>
    obtain ⟨c, hc⟩ := h.first
    exact ⟨0, c, hc, le_rfl, by simp⟩
  | succ u ih =>
    obtain ⟨a, c, ha, h₁, h₂⟩ := ih (by omega)
    by_cases hlt : u + 1 < a + 2 ^ c.order
    · exact ⟨a, c, ha, by omega, hlt⟩
    · have he : u + 1 = a + 2 ^ c.order := by omega
      obtain ⟨d, hd⟩ := h.next ha (by omega)
      exact ⟨u + 1, d, he ▸ hd, le_rfl, by have := Nat.two_pow_pos d.order; omega⟩

theorem Tiles.cover_unique (h : Tiles M z B) {a b u : ℕ} {c d : Cell} (ha : B a = some c)
    (hb : B b = some d) (ha₁ : a ≤ u) (ha₂ : u < a + 2 ^ c.order) (hb₁ : b ≤ u)
    (hb₂ : u < b + 2 ^ d.order) : a = b := by
  rcases Nat.lt_trichotomy a b with hlt | heq | hgt
  · rw [h.inner ha hlt (by omega)] at hb
    exact absurd hb (by simp)
  · exact heq
  · rw [h.inner hb hgt (by omega)] at ha
    exact absurd ha (by simp)

/-- An aligned position over which no larger block lies is the start of a block. -/
theorem Tiles.start_of_dvd (h : Tiles M z B) {p j : ℕ} (hp : p < z) (hj : 2 ^ j ∣ p)
    (hle : ∀ q d, B q = some d → q ≤ p → p < q + 2 ^ d.order → d.order ≤ j) :
    ∃ d, B p = some d ∧ d.order ≤ j := by
  obtain ⟨q, d, hq, h₁, h₂⟩ := h.cover hp
  have hd := hle q d hq h₁ h₂
  have := eq_of_dvd_of_mem ((pow_dvd_pow 2 hd).trans hj) (h.aligned hq) h₁ h₂
  exact ⟨d, this ▸ hq, hd⟩

/-- A block of order above `k` over the buddy of a region that starts with a block of order at most
`k` would cover both. -/
theorem Tiles.order_le_of_mem_buddy (h : Tiles M z B) {a k q : ℕ} {c d : Cell} (ha : B a = some c)
    (hc : c.order ≤ k) (hdvd : 2 ^ k ∣ a) (hq : B q = some d) (h₁ : q ≤ buddy a k)
    (h₂ : buddy a k < q + 2 ^ d.order) : d.order ≤ k := by
  by_contra hlt
  obtain ⟨hmin, hmax⟩ := min_buddy hdvd
  set p := min a (buddy a k) with hp
  have hdvd : 2 ^ (k + 1) ∣ q := (pow_dvd_pow 2 (by omega)).trans (h.aligned hq)
  have hend : 2 ^ (k + 1) ∣ q + 2 ^ d.order := Nat.dvd_add hdvd (pow_dvd_pow 2 (by omega))
  have hpos := Nat.two_pow_pos k
  have hpow : 2 ^ (k + 1) = 2 * 2 ^ k := by ring
  -- the double block of `a` and its buddy lies in `[q, q + 2 ^ d.order)`
  have hqp : q ≤ p := by
    by_contra hc
    have := add_le_of_dvd hmin hdvd (by omega)
    omega
  have hpe : p + 2 ^ (k + 1) ≤ q + 2 ^ d.order := add_le_of_dvd hmin hend (by omega)
  have hcpos := Nat.two_pow_pos c.order
  have haq : a = q := h.cover_unique ha hq le_rfl (by omega) (by omega) (by omega)
  subst haq
  rw [ha] at hq
  cases hq
  omega

/-- **At a buddy address a block starts**, of at most the same order, also when the region at `a` has
been split. -/
theorem Tiles.exists_buddy_of_le (h : Tiles M z B) {a k : ℕ} {c : Cell} (hz : 2 ^ (k + 1) ∣ z)
    (ha : B a = some c) (hc : c.order ≤ k) (hdvd : 2 ^ k ∣ a) :
    ∃ d, B (buddy a k) = some d ∧ d.order ≤ k := by
  obtain ⟨hmin, hmax⟩ := min_buddy hdvd
  have hroom := add_le_of_dvd hmin hz (lt_of_le_of_lt (min_le_left _ _) (h.lt ha))
  have hpow : 2 ^ (k + 1) = 2 * 2 ^ k := by ring
  have hpos := Nat.two_pow_pos k
  exact h.start_of_dvd (by omega) (two_pow_dvd_buddy hdvd)
    fun q d hq h₁ h₂ => h.order_le_of_mem_buddy ha hc hdvd hq h₁ h₂

theorem Tiles.exists_buddy (h : Tiles M z B) (hz : 2 ^ (M + 1) ∣ z) {a : ℕ} {c : Cell}
    (ha : B a = some c) : ∃ d, B (buddy a c.order) = some d ∧ d.order ≤ c.order :=
  h.exists_buddy_of_le ((pow_dvd_pow 2 (Nat.succ_le_succ (h.le_max ha))).trans hz) ha le_rfl (h.aligned ha)

theorem tiles_fresh (hz : 2 ^ M ∣ z) (hpos : 0 < z) : Tiles M z (fresh M z) := by
  have key : ∀ {a c}, fresh M z a = some c → a < z ∧ 2 ^ M ∣ a ∧ c = ⟨M, true⟩ := by
    intro a c h
    unfold fresh at h
    split_ifs at h with hc
    exact ⟨hc.1, hc.2, (Option.some.inj h).symm⟩
  refine ⟨⟨⟨M, true⟩, by simp [fresh, hpos]⟩, ?_, ?_, ?_, ?_, ?_⟩
  · rintro a c h
    rw [(key h).2.2]
  · rintro a c h
    obtain ⟨-, h₂, rfl⟩ := key h
    exact h₂
  · rintro a c h
    obtain ⟨h₁, h₂, rfl⟩ := key h
    exact add_le_of_dvd h₂ hz h₁
  · rintro a c h hlt
    obtain ⟨-, h₂, rfl⟩ := key h
    exact ⟨⟨M, true⟩, by rw [fresh, if_pos ⟨hlt, Nat.dvd_add h₂ dvd_rfl⟩]⟩
  · rintro a c u h h₁ h₂
    obtain ⟨-, h₃, rfl⟩ := key h
    rw [fresh, if_neg]
    rintro ⟨-, hu⟩
    exact absurd (eq_of_dvd_of_mem hu h₃ h₁.le h₂) (by omega)

theorem mark_apply (B : Layout) (a k : ℕ) (f : Bool) (x : ℕ) :
    mark B a k f x = if x = a then some ⟨k, f⟩ else B x := by
  rw [mark, Function.update_apply]

theorem split_apply (B : Layout) (a k x : ℕ) : split B a k x =
    if x = a then some ⟨k, false⟩ else if x = a + 2 ^ k then some ⟨k, true⟩ else B x := by
  rw [split, Function.update_apply, Function.update_apply]

theorem merge_apply (B : Layout) (a k x : ℕ) : merge B a k x =
    if x = a then some ⟨k + 1, false⟩ else if x = a + 2 ^ k then none else B x := by
  rw [merge, Function.update_apply, Function.update_apply]

theorem Tiles.mark (h : Tiles M z B) {a k : ℕ} {g : Bool} (ha : B a = some ⟨k, g⟩) (f : Bool) :
    Tiles M z (mark B a k f) := by
  -- every block of the new layout is a block of the old one, up to its mark
  have key : ∀ {x c}, Buddy.mark B a k f x = some c → ∃ g, B x = some ⟨c.order, g⟩ := by
    intro x c hx
    rw [mark_apply] at hx
    split_ifs at hx with hxa
    · cases hx
      exact ⟨g, hxa ▸ ha⟩
    · exact ⟨c.free, hx⟩
  have back : ∀ {x c}, B x = some c → ∃ d, Buddy.mark B a k f x = some d := by
    intro x c hx
    rw [mark_apply]
    split_ifs
    · exact ⟨_, rfl⟩
    · exact ⟨c, hx⟩
  refine ⟨back h.first.choose_spec, ?_, ?_, ?_, ?_, ?_⟩
  · intro x c hx; obtain ⟨g, hg⟩ := key hx; exact (h.le_max hg :)
  · intro x c hx; obtain ⟨g, hg⟩ := key hx; exact (h.aligned hg :)
  · intro x c hx; obtain ⟨g, hg⟩ := key hx; exact (h.fits hg :)
  · intro x c hx hlt
    obtain ⟨g, hg⟩ := key hx
    exact back (h.next hg hlt).choose_spec
  · intro x c u hx h₁ h₂
    obtain ⟨g, hg⟩ := key hx
    have hu := h.inner hg h₁ h₂
    rw [mark_apply, if_neg (fun e => by rw [e, ha] at hu; exact absurd hu (by simp)), hu]

theorem Tiles.split (h : Tiles M z B) {a k : ℕ} {g : Bool} (ha : B a = some ⟨k + 1, g⟩) :
    Tiles M z (split B a k) := by
  have hpow : 2 ^ (k + 1) = 2 * 2 ^ k := by ring
  have hpos := Nat.two_pow_pos k
  have hM := h.le_max ha
  have hdvd : 2 ^ k ∣ a := (pow_dvd_pow 2 (Nat.le_succ k)).trans (h.aligned ha)
  have hfit := h.fits ha
  simp only at hM hfit
  have key : ∀ {x c}, Buddy.split B a k x = some c →
      (x = a ∧ c.order = k) ∨ (x = a + 2 ^ k ∧ c.order = k) ∨
        (x ≠ a ∧ x ≠ a + 2 ^ k ∧ B x = some c) := by
    intro x c hx
    rw [split_apply] at hx
    split_ifs at hx with h₁ h₂
    · cases hx; exact .inl ⟨h₁, rfl⟩
    · cases hx; exact .inr (.inl ⟨h₂, rfl⟩)
    · exact .inr (.inr ⟨h₁, h₂, hx⟩)
  have back : ∀ {x c}, B x = some c → ∃ d, Buddy.split B a k x = some d := by
    intro x c hx
    rw [split_apply]
    split_ifs
    exacts [⟨_, rfl⟩, ⟨_, rfl⟩, ⟨c, hx⟩]
  refine ⟨back h.first.choose_spec, ?_, ?_, ?_, ?_, ?_⟩
  · intro x c hx
    rcases key hx with ⟨-, hc⟩ | ⟨-, hc⟩ | ⟨-, -, hx⟩
    · omega
    · omega
    · exact h.le_max hx
  · intro x c hx
    rcases key hx with ⟨rfl, hc⟩ | ⟨rfl, hc⟩ | ⟨-, -, hx⟩
    · rw [hc]; exact hdvd
    · rw [hc]; exact Nat.dvd_add hdvd dvd_rfl
    · exact h.aligned hx
  · intro x c hx
    rcases key hx with ⟨rfl, hc⟩ | ⟨rfl, hc⟩ | ⟨-, -, hx⟩
    · rw [hc]; omega
    · rw [hc]; omega
    · exact h.fits hx
  · intro x c hx hlt
    rcases key hx with ⟨rfl, hc⟩ | ⟨rfl, hc⟩ | ⟨-, -, hx⟩
    · rw [hc, split_apply, if_neg (by omega), if_pos rfl]; exact ⟨_, rfl⟩
    · rw [hc] at hlt ⊢
      rw [show a + 2 ^ k + 2 ^ k = a + 2 ^ (k + 1) by omega] at hlt ⊢
      exact back (h.next ha hlt).choose_spec
    · exact back (h.next hx hlt).choose_spec
  · intro x c u hx h₁ h₂
    rcases key hx with ⟨rfl, hc⟩ | ⟨rfl, hc⟩ | ⟨hxa, -, hx⟩
    · rw [hc] at h₂
      rw [split_apply, if_neg (by omega), if_neg (by omega)]
      exact h.inner ha h₁ (by simp only; omega)
    · rw [hc] at h₂
      rw [split_apply, if_neg (by omega), if_neg (by omega)]
      exact h.inner ha (by omega) (by simp only; omega)
    · have hu := h.inner hx h₁ h₂
      have hua : u ≠ a := fun e => by rw [e, ha] at hu; exact absurd hu (by simp)
      have hub : u ≠ a + 2 ^ k := fun e => hxa (h.cover_unique hx ha h₁.le h₂ (by omega)
        (by simp only; omega))
      rw [split_apply, if_neg hua, if_neg hub, hu]

theorem Tiles.merge (h : Tiles M z B) {a k : ℕ} {f g : Bool} (hk : k < M) (hdvd : 2 ^ (k + 1) ∣ a)
    (ha : B a = some ⟨k, f⟩) (hb : B (a + 2 ^ k) = some ⟨k, g⟩) : Tiles M z (merge B a k) := by
  have hpow : 2 ^ (k + 1) = 2 * 2 ^ k := by ring
  have hpos := Nat.two_pow_pos k
  have hfit := h.fits hb
  simp only at hfit
  have key : ∀ {x c}, Buddy.merge B a k x = some c →
      (x = a ∧ c.order = k + 1) ∨ (x ≠ a ∧ x ≠ a + 2 ^ k ∧ B x = some c) := by
    intro x c hx
    rw [merge_apply] at hx
    split_ifs at hx with h₁ h₂
    · cases hx; exact .inl ⟨h₁, rfl⟩
    · exact .inr ⟨h₁, h₂, hx⟩
  have back : ∀ {x c}, x ≠ a + 2 ^ k → B x = some c → ∃ d, Buddy.merge B a k x = some d := by
    intro x c hne hx
    rw [merge_apply]
    split_ifs
    exacts [⟨_, rfl⟩, ⟨c, hx⟩]
  refine ⟨back (by omega) h.first.choose_spec, ?_, ?_, ?_, ?_, ?_⟩
  · intro x c hx
    rcases key hx with ⟨-, hc⟩ | ⟨-, -, hx⟩
    · omega
    · exact h.le_max hx
  · intro x c hx
    rcases key hx with ⟨rfl, hc⟩ | ⟨-, -, hx⟩
    · rw [hc]; exact hdvd
    · exact h.aligned hx
  · intro x c hx
    rcases key hx with ⟨rfl, hc⟩ | ⟨-, -, hx⟩
    · rw [hc]; omega
    · exact h.fits hx
  · intro x c hx hlt
    rcases key hx with ⟨rfl, hc⟩ | ⟨hxa, -, hx⟩
    · rw [hc] at hlt ⊢
      rw [show x + 2 ^ (k + 1) = x + 2 ^ k + 2 ^ k by omega] at hlt ⊢
      exact back (by omega) (h.next hb hlt).choose_spec
    · refine back (fun e => ?_) (h.next hx hlt).choose_spec
      -- the block before `a + 2 ^ k` is the one at `a`
      refine hxa (h.cover_unique hx ha (u := a + 2 ^ k - 1) ?_ ?_ ?_ ?_)
      · have := Nat.two_pow_pos c.order; omega
      · omega
      · omega
      · simp only; omega
  · intro x c u hx h₁ h₂
    rcases key hx with ⟨rfl, hc⟩ | ⟨hxa, hxb, hx⟩
    · rw [hc] at h₂
      rw [merge_apply, if_neg (by omega)]
      split_ifs with hu
      · rfl
      · rcases Nat.lt_or_ge u (x + 2 ^ k) with hlt | hge
        · exact h.inner ha h₁ hlt
        · exact h.inner hb (by omega) (by simp only; omega)
    · have hu := h.inner hx h₁ h₂
      rw [merge_apply, if_neg (fun e => by rw [e, ha] at hu; exact absurd hu (by simp)), hu, ite_self]

end Tiling

/-! ## Giving a block back -/

/-- Give back the order-`k` block at `a`: merge it with its buddy as long as that is a free block
of the same order, at most `n` times, and mark the result free. -/
def release (B : Layout) : ℕ → ℕ → ℕ → Layout
  | 0, a, k => mark B a k true
  | n + 1, a, k =>
    if B (buddy a k) = some ⟨k, true⟩ then
      release (merge B (min a (buddy a k)) k) n (min a (buddy a k)) (k + 1)
    else mark B a k true

/-- On the way up from the order-`k` block at `a`, a free buddy always has the order of the block
that is being merged. -/
def Quiet (B : Layout) : ℕ → ℕ → ℕ → Prop
  | 0, a, k => ∀ m, B (buddy a k) = some ⟨m, true⟩ → m = k
  | n + 1, a, k => (∀ m, B (buddy a k) = some ⟨m, true⟩ → m = k) ∧
      (B (buddy a k) = some ⟨k, true⟩ → Quiet B n (min a (buddy a k)) (k + 1))

theorem quiet_of_used {B : Layout} {n a k j : ℕ} (h : B (buddy a k) = some ⟨j, false⟩) : Quiet B n a k := by
  cases n with
  | zero =>
    intro m hm
    rw [h] at hm
    cases hm
  | succ n =>
    refine ⟨fun m hm => ?_, fun hm => ?_⟩ <;> rw [h] at hm <;> cases hm

theorem release_of_used {B : Layout} {n a k j : ℕ} (h : B (buddy a k) = some ⟨j, false⟩) :
    release B n a k = mark B a k true := by
  cases n with
  | zero => rfl
  | succ n => rw [release, h, if_neg (by simp)]

/-- Next to a free block of the same order it is quiet if it is for the two of them. -/
theorem quiet_of_same {B : Layout} {n a k : ℕ} (h : B (buddy a k) = some ⟨k, true⟩)
    (hup : Quiet B n (min a (buddy a k)) (k + 1)) : Quiet B (n + 1) a k := by
  refine ⟨fun m hm => ?_, fun _ => hup⟩
  rw [h] at hm
  cases hm
  rfl

theorem buddy_out {a k : ℕ} (h : 2 ^ k ∣ a) : buddy a k < a ∨ a + 2 ^ k ≤ buddy a k := by
  have hpos := Nat.two_pow_pos k
  by_cases h' : 2 ^ (k + 1) ∣ a
  · exact .inr (buddy_left h').ge
  · exact .inl (by have := (buddy_right h h').1; omega)

/-- `Quiet` reads the layout only outside the block. -/
theorem Quiet.congr {B B' : Layout} {n a k : ℕ} (ha : 2 ^ k ∣ a)
    (hB : ∀ x, x < a ∨ a + 2 ^ k ≤ x → B x = B' x) (hq : Quiet B n a k) : Quiet B' n a k := by
  induction n generalizing a k with
  | zero =>
    intro m hm
    exact hq m (by rw [hB _ (buddy_out ha), hm])
  | succ n ih =>
    refine ⟨fun m hm => hq.1 m (by rw [hB _ (buddy_out ha), hm]), fun hm => ?_⟩
    obtain ⟨hmin, hmax⟩ := min_buddy ha
    have hpow : 2 ^ (k + 1) = 2 * 2 ^ k := by ring
    apply ih hmin
    · intro x hx
      exact hB x (by omega)
    · exact hq.2 (by rw [hB _ (buddy_out ha), hm])

theorem Quiet.merge {B : Layout} {n a k : ℕ} (ha : 2 ^ (k + 1) ∣ a) (h : Quiet B n a (k + 1)) :
    Quiet (merge B a k) n a (k + 1) := by
  have hpos := Nat.two_pow_pos k
  have hpow : 2 ^ (k + 1) = 2 * 2 ^ k := by ring
  refine h.congr ha fun x hx => ?_
  rw [merge_apply, if_neg (by omega), if_neg (by omega)]

section Release

variable {M z : ℕ} {B : Layout}

/-- The two halves of a merge, whichever of them is the given block. -/
theorem halves {a k : ℕ} {f : Bool} (hdvd : 2 ^ k ∣ a) (ha : B a = some ⟨k, f⟩)
    (hb : B (buddy a k) = some ⟨k, true⟩) :
    ∃ f g, B (min a (buddy a k)) = some ⟨k, f⟩ ∧ B (min a (buddy a k) + 2 ^ k) = some ⟨k, g⟩ := by
  rw [← (min_buddy hdvd).2]
  rcases le_total a (buddy a k) with hle | hle
  · rw [min_eq_left hle, max_eq_right hle]; exact ⟨f, true, ha, hb⟩
  · rw [min_eq_right hle, max_eq_left hle]; exact ⟨true, f, hb, ha⟩

/-- **Giving a block back takes it, and no other, from the used blocks.** -/
theorem release_used {n a k : ℕ} {B : Layout} {f : Bool} (hdvd : 2 ^ k ∣ a) (ha : B a = some ⟨k, f⟩)
    {x j : ℕ} : release B n a k x = some ⟨j, false⟩ ↔ x ≠ a ∧ B x = some ⟨j, false⟩ := by
  induction n generalizing a k B f with
  | zero =>
    rw [release, mark_apply]
    split_ifs with hx <;> simp [hx]
  | succ n ih =>
    rw [release]
    split_ifs with hb
    · obtain ⟨hmin, hmax⟩ := min_buddy hdvd
      rw [ih hmin (by rw [merge_apply, if_pos rfl]), merge_apply]
      have hne := buddy_ne a k
      -- the two halves are `a` and its buddy, and the buddy is free
      have hpair : x ≠ min a (buddy a k) ∧ x ≠ min a (buddy a k) + 2 ^ k ↔ x ≠ a ∧ x ≠ buddy a k := by
        omega
      constructor
      · rintro ⟨h₁, h₂⟩
        rw [if_neg h₁] at h₂
        split_ifs at h₂ with h₃
        exact ⟨(hpair.mp ⟨h₁, h₃⟩).1, h₂⟩
      · rintro ⟨h₁, h₂⟩
        have hxb : x ≠ buddy a k := fun e => by rw [e, hb] at h₂; simp at h₂
        obtain ⟨h₃, h₄⟩ := hpair.mpr ⟨h₁, hxb⟩
        exact ⟨h₃, by rw [if_neg h₃, if_neg h₄, h₂]⟩
    · rw [mark_apply]
      split_ifs with hx <;> simp [hx]

end Release

/-! ## Full coalescing -/

/-- No two buddies of one order below `M` are both free. -/
def Coalesced (M : ℕ) (B : Layout) : Prop :=
  ∀ a k : ℕ, k < M → B a = some ⟨k, true⟩ → B (buddy a k) ≠ some ⟨k, true⟩

section Coalesced

variable {M z : ℕ} {B : Layout}

theorem buddy_buddy (a k : ℕ) : buddy (buddy a k) k = a := by
  rw [buddy, buddy, Nat.xor_assoc, Nat.xor_self, Nat.xor_zero]

theorem Coalesced.mono {B' : Layout} (h : Coalesced M B)
    (hle : ∀ x k, B' x = some ⟨k, true⟩ → B x = some ⟨k, true⟩) : Coalesced M B' :=
  fun a k hk ha hb => h a k hk (hle _ _ ha) (hle _ _ hb)

theorem Coalesced.mark {a k : ℕ} (h : Coalesced M B)
    (hb : k < M → B (buddy a k) ≠ some ⟨k, true⟩) : Coalesced M (mark B a k true) := by
  intro x j hj hx hy
  rw [mark_apply] at hx hy
  split_ifs at hx hy with h₁ h₂ h₂
  · exact buddy_ne x j (h₂.trans h₁.symm)
  · cases hx
    exact hb hj (h₁ ▸ hy)
  · cases hy
    rw [← h₂, buddy_buddy] at hb
    exact hb hj hx
  · exact h x j hj hx hy

/-- **Giving a block back leaves a coalesced layout coalesced.** -/
theorem Coalesced.release {n a k : ℕ} {B : Layout} (h : Coalesced M B) (hk : k + n = M)
    (hdvd : 2 ^ k ∣ a) : Coalesced M (release B n a k) := by
  induction n generalizing a k B with
  | zero => exact h.mark fun hlt => by omega
  | succ n ih =>
    rw [Buddy.release]
    split_ifs with hb
    · refine ih (h.mono fun x j hx => ?_) (by omega) (min_buddy hdvd).1
      rw [merge_apply] at hx
      split_ifs at hx with h₁ h₂
      · cases hx
      · exact hx
    · exact h.mark fun _ => hb

theorem coalesced_fresh : Coalesced M (fresh M z) := by
  intro a k hk ha
  unfold fresh at ha
  split_ifs at ha
  cases ha
  omega

/-- **A coalesced tiling without used blocks is the fresh one**: among blocks of least order, the
buddy of a block has the same order. -/
theorem Coalesced.eq_fresh (h : Coalesced M B) (ht : Tiles M z B) (hz : 2 ^ (M + 1) ∣ z)
    (hfree : ∀ {a c}, B a = some c → c.free = true) : B = fresh M z := by
  have htop : ∀ n, ∀ {a c}, B a = some c → c.order = n → c.order = M := by
    intro n
    induction n using Nat.strong_induction_on with
    | _ n ih =>
      rintro a ⟨k, f⟩ ha rfl
      obtain rfl : f = true := hfree ha
      by_contra hne
      have hk : k < M := lt_of_le_of_ne (ht.le_max ha) hne
      obtain ⟨⟨m, g⟩, hd, hle⟩ := ht.exists_buddy hz ha
      obtain rfl : g = true := hfree hd
      rcases Nat.lt_or_eq_of_le (show m ≤ k from hle) with hlt | rfl
      · exact absurd (ih m hlt hd rfl) (by simp only; omega)
      · exact h a m hk ha hd
  funext a
  rw [fresh]
  split_ifs with hc
  · obtain ⟨⟨m, g⟩, hd, -⟩ := ht.start_of_dvd hc.1 hc.2 fun q d hq _ _ => ht.le_max hq
    obtain rfl : m = M := htop _ hd rfl
    obtain rfl : g = true := hfree hd
    exact hd
  · by_contra hne
    obtain ⟨⟨m, g⟩, hd⟩ := Option.ne_none_iff_exists'.mp hne
    obtain rfl : m = M := htop _ hd rfl
    exact hc ⟨ht.lt hd, ht.aligned hd⟩

end Coalesced

/-! ## Cutting a block down -/

/-- Cut the block of order `k + n` at `a` down to order `k`; each right half becomes free. -/
def splitTo (B : Layout) (a k : ℕ) : ℕ → Layout
  | 0 => mark B a k false
  | n + 1 => splitTo (split B a (k + n)) a k n

section SplitTo

variable {M z : ℕ}

theorem splitTo_self {n a k : ℕ} {B : Layout} : splitTo B a k n a = some ⟨k, false⟩ := by
  induction n generalizing B with
  | zero => rw [splitTo, mark_apply, if_pos rfl]
  | succ n ih => exact ih

theorem splitTo_mark {n a k j : ℕ} {f : Bool} {B : Layout} :
    splitTo (mark B a j f) a k n = splitTo B a k n := by
  cases n with
  | zero => rw [splitTo, splitTo, mark, mark, mark, Function.update_idem]
  | succ n =>
    rw [splitTo, splitTo]
    congr 1
    funext x
    simp only [split_apply, mark_apply]
    split_ifs <;> rfl

theorem splitTo_start {n a k u : ℕ} {B : Layout} {c : Cell} (h : B u = some c) :
    ∃ d, splitTo B a k n u = some d := by
  induction n generalizing B c with
  | zero =>
    rw [splitTo, mark_apply]
    split_ifs
    exacts [⟨_, rfl⟩, ⟨c, h⟩]
  | succ n ih =>
    have : ∃ d, split B a (k + n) u = some d := by
      rw [split_apply]
      split_ifs
      exacts [⟨_, rfl⟩, ⟨_, rfl⟩, ⟨c, h⟩]
    obtain ⟨d, hd⟩ := this
    rw [splitTo]
    exact ih hd

theorem splitTo_other {n a k x : ℕ} {B : Layout} (hx : x ≠ a)
    (hi : ∀ i, k ≤ i → i < k + n → x ≠ a + 2 ^ i) : splitTo B a k n x = B x := by
  induction n generalizing B with
  | zero => rw [splitTo, mark_apply, if_neg hx]
  | succ n ih =>
    rw [splitTo, ih fun i h₁ h₂ => hi i h₁ (by omega), split_apply, if_neg hx,
      if_neg (hi (k + n) (by omega) (by omega))]

theorem splitTo_piece {n a k i : ℕ} {B : Layout} (h₁ : k ≤ i) (h₂ : i < k + n) :
    splitTo B a k n (a + 2 ^ i) = some ⟨i, true⟩ := by
  induction n generalizing B with
  | zero => omega
  | succ n ih =>
    have hpos := Nat.two_pow_pos i
    rw [splitTo]
    by_cases hi : i < k + n
    · exact ih hi
    · obtain rfl : i = k + n := by omega
      rw [splitTo_other (by omega), split_apply, if_neg (by omega), if_pos rfl]
      intro i _ hi
      have := Nat.pow_lt_pow_right (a := 2) (by norm_num) hi
      omega

theorem splitTo_block {B : Layout} {b j m x : ℕ} {f : Bool} {c : Cell} (h : Tiles M z B)
    (hb : B b = some ⟨j + m, f⟩) (hx : B x = some c) (hne : x ≠ b) : splitTo B b j m x = some c := by
  rw [splitTo_other hne fun l _ h₂ he => ?_, hx]
  -- the pieces lie inside the block that is cut
  have := Nat.pow_lt_pow_right (a := 2) (by norm_num) h₂
  have := Nat.two_pow_pos l
  rw [h.inner hb (by omega) (by simp only; omega)] at hx
  cases hx

/-- Taking a free block keeps `Quiet`: the buddies looked at are blocks already, and the block taken
is free no more. The induction is on the levels. -/
theorem Quiet.splitTo {B : Layout} {b j m : ℕ} (h : Tiles M z B) (hz : 2 ^ (M + 1) ∣ z)
    (hb : B b = some ⟨j + m, true⟩) : ∀ {n a k : ℕ} {c : Cell}, B a = some c → c.order ≤ k →
      k + n ≤ M → 2 ^ k ∣ a → Quiet B n a k → Quiet (splitTo B b j m) n a k := by
  have hfree : ∀ {x i : ℕ} {c : Cell}, B x = some c → Buddy.splitTo B b j m x = some ⟨i, true⟩ →
      B x = some ⟨i, true⟩ := by
    intro x i c hx hi
    have hxb : x ≠ b := by
      rintro rfl
      rw [splitTo_self] at hi
      simp at hi
    rw [splitTo_block h hb hx hxb] at hi
    rw [hx, hi]
  intro n
  induction n with
  | zero =>
    intro a k c ha hc hk hdvd hq i hi
    obtain ⟨d, hd, -⟩ := h.exists_buddy_of_le ((pow_dvd_pow 2 (by omega)).trans hz) ha hc hdvd
    exact hq i (hfree hd hi)
  | succ n ih =>
    intro a k c ha hc hk hdvd hq
    obtain ⟨d, hd, hdk⟩ := h.exists_buddy_of_le ((pow_dvd_pow 2 (by omega)).trans hz) ha hc hdvd
    refine ⟨fun i hi => hq.1 i (hfree hd hi), fun hi => ?_⟩
    have hmin := (min_buddy hdvd).1
    have hnext := hq.2 (hfree hd hi)
    rcases min_choice a (buddy a k) with he | he <;> rw [he] at hmin hnext ⊢
    · exact ih ha (by omega) (by omega) hmin hnext
    · exact ih hd (by omega) (by omega) hmin hnext

theorem split_used {a k : ℕ} {B : Layout} {g : Bool} (h : Tiles M z B)
    (ha : B a = some ⟨k + 1, g⟩) {x j : ℕ} :
    split B a k x = some ⟨j, false⟩ ↔ (x = a ∧ j = k) ∨ (x ≠ a ∧ B x = some ⟨j, false⟩) := by
  have hpos := Nat.two_pow_pos k
  have hin : B (a + 2 ^ k) = none :=
    h.inner ha (by omega) (by simp only [pow_succ]; omega)
  rw [split_apply]
  split_ifs with h₁ h₂
  · simp [h₁, eq_comm]
  · simp [h₂, hin]
  · simp [h₁]

/-- **Cutting a block down adds it, and nothing else, to the used blocks.** -/
theorem splitTo_used {n a k : ℕ} {B : Layout} {g : Bool} (h : Tiles M z B)
    (ha : B a = some ⟨k + n, g⟩) {x j : ℕ} : splitTo B a k n x = some ⟨j, false⟩ ↔
      (x = a ∧ j = k) ∨ (x ≠ a ∧ B x = some ⟨j, false⟩) := by
  induction n generalizing B g with
  | zero =>
    rw [splitTo, mark_apply]
    split_ifs with h₁
    · simp [h₁, eq_comm]
    · simp [h₁]
  | succ n ih =>
    have ha' : split B a (k + n) a = some ⟨k + n, false⟩ := by rw [split_apply, if_pos rfl]
    rw [splitTo, ih (h.split (k := k + n) ha) ha', split_used (k := k + n) h ha]
    constructor
    · rintro (h | ⟨h₁, h₂ | h₂⟩)
      exacts [.inl h, absurd h₂.1 h₁, .inr h₂]
    · rintro (h | h)
      exacts [.inl h, .inr ⟨h.1, .inr h⟩]

theorem split_free {a k x j : ℕ} {B : Layout} (h : split B a k x = some ⟨j, true⟩) :
    x ≠ a ∧ ((x = a + 2 ^ k ∧ j = k) ∨ B x = some ⟨j, true⟩) := by
  rw [split_apply] at h
  split_ifs at h with h₁ h₂
  · simp at h
  · simp only [Option.some.injEq, Cell.mk.injEq] at h
    exact ⟨h₁, .inl ⟨h₂, h.1.symm⟩⟩
  · exact ⟨h₁, .inr h⟩

theorem Coalesced.split {a k : ℕ} {B : Layout} (h : Coalesced M B) (ha : 2 ^ (k + 1) ∣ a) :
    Coalesced M (split B a k) := by
  have hb : buddy (a + 2 ^ k) k = a := by rw [← buddy_left ha, buddy_buddy]
  intro x j hj hx hy
  obtain ⟨hxa, ⟨rfl, rfl⟩ | hx⟩ := split_free hx
  · exact (split_free hy).1 hb
  · obtain ⟨hya, ⟨he, rfl⟩ | hy⟩ := split_free hy
    · exact hxa (by rw [← hb, ← he, buddy_buddy])
    · exact h x j hj hx hy

theorem Coalesced.splitTo {n a k : ℕ} {B : Layout} (h : Coalesced M B) (ha : 2 ^ (k + n) ∣ a) :
    Coalesced M (splitTo B a k n) := by
  induction n generalizing B with
  | zero =>
    apply h.mono
    intro x j hx
    rw [Buddy.splitTo, mark_apply] at hx
    split_ifs at hx with h₁
    · simp at hx
    · exact hx
  | succ n ih => exact ih (h.split (k := k + n) ha) ((pow_dvd_pow 2 (by omega)).trans ha)

/-! ## Choosing a block -/

/-- The block an allocation of order `k` takes: the lowest one of the least order that has any. -/
structure Takes (B : Layout) (k j a : ℕ) : Prop where
  block : B a = some ⟨j, true⟩
  le : k ≤ j
  lowest : ∀ b, B b = some ⟨j, true⟩ → a ≤ b
  least : ∀ i b, k ≤ i → i < j → B b ≠ some ⟨i, true⟩

theorem Takes.unique {B : Layout} {k j a i b : ℕ} (h : Takes B k j a) (h' : Takes B k i b) :
    i = j ∧ b = a := by
  obtain rfl : i = j := by
    rcases Nat.lt_trichotomy i j with hlt | heq | hlt
    · exact absurd h'.block (h.least i b h'.le hlt)
    · exact heq
    · exact absurd h.block (h'.least j a h.le hlt)
  exact ⟨rfl, le_antisymm (h'.lowest a h.block) (h.lowest b h'.block)⟩

open Classical in
theorem exists_takes {B : Layout} {k j a : ℕ} (hkj : k ≤ j) (ha : B a = some ⟨j, true⟩) :
    ∃ j a, Takes B k j a := by
  have hj : ∃ j, k ≤ j ∧ ∃ a, B a = some ⟨j, true⟩ := ⟨j, hkj, a, ha⟩
  have hb : ∃ b, B b = some ⟨Nat.find hj, true⟩ := (Nat.find_spec hj).2
  exact ⟨Nat.find hj, Nat.find hb, Nat.find_spec hb, (Nat.find_spec hj).1,
    fun b hb' => Nat.find_min' hb hb', fun i b hi hlt hib => Nat.find_min hj hlt ⟨hi, b, hib⟩⟩

/-! ## Undoing a cut -/

/-- Joining the block with the smallest piece undoes the last cut. -/
theorem merge_splitTo {n a k : ℕ} {B : Layout} (hn : B (a + 2 ^ k) = none) :
    merge (splitTo B a k (n + 1)) a k = splitTo B a (k + 1) n := by
  induction n generalizing B with
  | zero =>
    have hpos := Nat.two_pow_pos k
    funext x
    simp only [splitTo, merge_apply, mark_apply, split_apply, Nat.add_zero]
    split_ifs with h₁ h₂
    · rfl
    · rw [h₂, hn]
    · rfl
  | succ n ih =>
    have hlt := Nat.pow_lt_pow_right (a := 2) (by norm_num) (show k < k + (n + 1) by omega)
    have hpos := Nat.two_pow_pos k
    have hn' : split B a (k + (n + 1)) (a + 2 ^ k) = none := by
      rw [split_apply, if_neg (by omega), if_neg (by omega), hn]
    rw [splitTo, ih hn', splitTo, show k + (n + 1) = k + 1 + n by omega]

/-- **Giving back the block that was cut down merges the pieces again.** -/
theorem release_splitTo {n r a k : ℕ} {B : Layout} (hdvd : 2 ^ (k + n) ∣ a)
    (hin : ∀ u, a < u → u < a + 2 ^ (k + n) → B u = none) :
    release (splitTo B a k n) (r + n) a k = release (mark B a (k + n) false) r a (k + n) := by
  induction n generalizing k with
  | zero => rfl
  | succ n ih =>
    have hpos := Nat.two_pow_pos k
    have hlt := Nat.pow_lt_pow_right (a := 2) (by norm_num) (show k < k + (n + 1) by omega)
    have hb : buddy a k = a + 2 ^ k := buddy_left ((pow_dvd_pow 2 (by omega)).trans hdvd)
    rw [← Nat.add_assoc r n 1, release, hb, if_pos (splitTo_piece le_rfl (by omega)),
      min_eq_left (Nat.le_add_right _ _), merge_splitTo (hin _ (by omega) (by omega)),
      ih (by rwa [show k + 1 + n = k + (n + 1) by omega])
        (by rwa [show k + 1 + n = k + (n + 1) by omega]), show k + 1 + n = k + (n + 1) by omega]

/-- In a run of allocations, every free block below the top order is a right half whose left
neighbour region starts with a used block. -/
def AllocOnly (M : ℕ) (B : Layout) : Prop :=
  ∀ x j : ℕ, j < M → B x = some ⟨j, true⟩ → ¬ 2 ^ (j + 1) ∣ x ∧ ∃ m, B (buddy x j) = some ⟨m, false⟩

theorem allocOnly_fresh : AllocOnly M (fresh M z) := by
  intro a k hk ha
  unfold fresh at ha
  split_ifs at ha
  cases ha
  omega

theorem AllocOnly.split {a k : ℕ} {B : Layout} {g : Bool} (h : AllocOnly M B) (ht : Tiles M z B)
    (ha : B a = some ⟨k + 1, g⟩) : AllocOnly M (split B a k) := by
  have hdvd : 2 ^ (k + 1) ∣ a := ht.aligned ha
  have hpos := Nat.two_pow_pos k
  have hin : B (a + 2 ^ k) = none := ht.inner ha (by omega) (by simp only [pow_succ]; omega)
  intro x j hj hx
  obtain ⟨hxa, ⟨rfl, rfl⟩ | hx⟩ := split_free hx
  · refine ⟨fun hd => ?_, j, ?_⟩
    · have := Nat.le_of_dvd hpos ((Nat.dvd_add_right hdvd).mp hd)
      rw [pow_succ] at this
      omega
    · rw [← buddy_left hdvd, buddy_buddy, split_apply, if_pos rfl]
  · obtain ⟨h₁, m, h₂⟩ := h x j hj hx
    refine ⟨h₁, ?_⟩
    rw [split_apply]
    split_ifs with h₃ h₄
    · exact ⟨k, rfl⟩
    · rw [h₄, hin] at h₂
      simp at h₂
    · exact ⟨m, h₂⟩

theorem AllocOnly.splitTo {n a k : ℕ} {B : Layout} {g : Bool} (h : AllocOnly M B) (ht : Tiles M z B)
    (ha : B a = some ⟨k + n, g⟩) : AllocOnly M (splitTo B a k n) := by
  induction n generalizing B g with
  | zero =>
    intro x j hj hx
    rw [Buddy.splitTo, mark_apply] at hx ⊢
    split_ifs at hx with h₁
    · simp at hx
    · obtain ⟨h₂, m, h₃⟩ := h x j hj hx
      exact ⟨h₂, by split_ifs; exacts [⟨k, rfl⟩, ⟨m, h₃⟩]⟩
  | succ n ih =>
    apply ih (h.split (k := k + n) ht ha) (ht.split (k := k + n) ha) (g := false)
    rw [split_apply, if_pos rfl]

/-- **Above the block that an allocation took, nothing is merged**: its buddy is not a free block
of the same order, nor of a smaller one. -/
theorem AllocOnly.release_mark {r a k : ℕ} {B : Layout} (h : AllocOnly M B) (hk : k + r = M)
    (ha : B a = some ⟨k, true⟩) : release (mark B a k false) r a k = B := by
  have hself : mark (mark B a k false) a k true = B := by
    funext x
    rw [mark_apply, mark_apply]
    split_ifs with hx
    · rw [hx, ha]
    · rfl
  cases r with
  | zero => exact hself
  | succ r =>
    obtain ⟨-, m, hm⟩ := h a k (by omega) ha
    rw [release, mark_apply, if_neg (buddy_ne a k), hm, if_neg (by simp), hself]

theorem AllocOnly.quiet_mark {r a k : ℕ} {B : Layout} (h : AllocOnly M B) (ht : Tiles M z B)
    (hk : k + r = M) (ha : B a = some ⟨k, true⟩) : Quiet (mark B a k false) r a k := by
  have hbud : mark B a k false (buddy a k) = B (buddy a k) := by
    rw [mark_apply, if_neg (buddy_ne a k)]
  cases r with
  | zero =>
    intro m hm
    rw [hbud] at hm
    by_contra hne
    have hle : m ≤ M := ht.le_max hm
    have hlt : m < M := by omega
    exact (h _ m hlt hm).1 ((pow_dvd_pow 2 (by omega)).trans (two_pow_dvd_buddy (ht.aligned ha)))
  | succ r =>
    obtain ⟨-, m, hm⟩ := h a k (by omega) ha
    refine ⟨fun j hj => ?_, fun hj => ?_⟩ <;> rw [hbud, hm] at hj <;> simp at hj

theorem quiet_splitTo {n r a k : ℕ} {B : Layout} (hdvd : 2 ^ (k + n) ∣ a)
    (h : Quiet (mark B a (k + n) false) r a (k + n)) : Quiet (splitTo B a k n) (r + n) a k := by
  induction n generalizing k with
  | zero => exact h
  | succ n ih =>
    have hb : buddy a k = a + 2 ^ k := buddy_left ((pow_dvd_pow 2 (by omega)).trans hdvd)
    have hp : splitTo B a k (n + 1) (buddy a k) = some ⟨k, true⟩ := by
      rw [hb]; exact splitTo_piece le_rfl (by omega)
    refine ⟨fun m hm => ?_, fun _ => ?_⟩
    · rw [hp] at hm
      simp only [Option.some.injEq, Cell.mk.injEq, and_true] at hm
      exact hm.symm
    · rw [hb, min_eq_left (Nat.le_add_right _ _)]
      have hq : Quiet (splitTo B a (k + 1) n) (r + n) a (k + 1) :=
        ih (by rwa [show k + 1 + n = k + (n + 1) by omega])
          (by rwa [show k + 1 + n = k + (n + 1) by omega])
      have hpow : 2 ^ (k + 1) = 2 * 2 ^ k := by ring
      have hpos := Nat.two_pow_pos k
      refine hq.congr ((pow_dvd_pow 2 (by omega)).trans hdvd) fun x hx => ?_
      -- the two cuts differ only inside the block of order `k + 1`
      by_cases hpc : ∃ i, k + 1 ≤ i ∧ i < k + 1 + n ∧ x = a + 2 ^ i
      · obtain ⟨i, h₁, h₂, rfl⟩ := hpc
        rw [splitTo_piece h₁ h₂, splitTo_piece (by omega) (by omega)]
      · rw [splitTo_other (by omega) fun i h₁ h₂ he => hpc ⟨i, h₁, h₂, he⟩,
          splitTo_other (by omega) fun i h₁ h₂ he => ?_]
        rcases Nat.eq_or_lt_of_le h₁ with rfl | h₁
        · omega
        · exact hpc ⟨i, h₁, by omega, he⟩

end SplitTo

end OsHomework.Buddy
