import Mathlib.Algebra.BigOperators.Group.List.Basic
import Mathlib.Algebra.Ring.Nat
import Mathlib.Data.List.Chain
import Mathlib.Data.List.Nodup

/-!
# Singly linked lists

Nodes are addresses, `next` gives the successor of a node, and `0` is the null pointer.

* `Seg next p l q`: following `next` from `p` one meets the nodes `l` and then arrives at `q`;
* `Seg.congr`: only the successors of the nodes of `l` matter;
* `seg_append`, `seg_snoc`; **`Seg.push`**: a node is put at the end; **`Seg.drop`**: a node that is
  not the first is taken out;
* `Back prev q l`: each `prev` leads to the node before in `l`, that of the first to `q`; `Back.push`,
  `Back.drop`;
* `Contig next prev len p E l`: a doubly linked list of neighbouring blocks that starts at `p` and
  ends at the address `E`, and what it says about a block of the list; `Contig.congr`, and
  **`Contig.push`**: a block is put at the end.
-/

set_option autoImplicit false

namespace OsHomework

/-- Following `next` from `p` one meets the nodes `l` and then arrives at `q`. -/
def Seg (next : ℕ → ℕ) : ℕ → List ℕ → ℕ → Prop
  | p, [], q => p = q
  | p, a :: l, q => p = a ∧ a ≠ 0 ∧ Seg next (next a) l q

variable {next next' : ℕ → ℕ} {p q : ℕ} {l : List ℕ}

theorem Seg.congr {l : List ℕ} {p : ℕ} (h : Seg next p l q) (hn : ∀ a ∈ l, next' a = next a) :
    Seg next' p l q := by
  induction l generalizing p with
  | nil => exact h
  | cons a l ih =>
    refine ⟨h.1, h.2.1, ?_⟩
    rw [hn a List.mem_cons_self]
    exact ih h.2.2 fun b hb => hn b (List.mem_cons_of_mem _ hb)

theorem seg_append {l₁ l₂ : List ℕ} {p : ℕ} :
    Seg next p (l₁ ++ l₂) q ↔ ∃ r, Seg next p l₁ r ∧ Seg next r l₂ q := by
  induction l₁ generalizing p with
  | nil => simp [Seg]
  | cons a l₁ ih =>
    simp only [List.cons_append, Seg, ih]
    constructor
    · rintro ⟨h₁, h₂, r, h₃, h₄⟩
      exact ⟨r, ⟨h₁, h₂, h₃⟩, h₄⟩
    · rintro ⟨r, ⟨h₁, h₂, h₃⟩, h₄⟩
      exact ⟨h₁, h₂, r, h₃, h₄⟩

theorem seg_snoc {a : ℕ} : Seg next p (l ++ [a]) q ↔ Seg next p l a ∧ a ≠ 0 ∧ next a = q := by
  rw [seg_append]
  constructor
  · rintro ⟨r, h₁, rfl, h₂, h₃⟩
    exact ⟨h₁, h₂, h₃⟩
  · rintro ⟨h₁, h₂, h₃⟩
    exact ⟨a, h₁, rfl, h₂, h₃⟩

theorem Seg.ne_zero {l : List ℕ} {p : ℕ} (h : Seg next p l q) : ∀ a ∈ l, a ≠ 0 := by
  induction l generalizing p with
  | nil => simp
  | cons a l ih =>
    intro b hb
    rcases List.mem_cons.mp hb with rfl | hb
    · exact h.2.1
    · exact ih h.2.2 b hb

theorem Seg.unique : ∀ {l l' : List ℕ} {p : ℕ}, Seg next p l 0 → Seg next p l' 0 → l = l'
  | [], [], _, _, _ => rfl
  | [], a :: l', p, h, h' => absurd (h'.1.symm.trans h) h'.2.1
  | a :: l, [], p, h, h' => absurd (h.1.symm.trans h') h.2.1
  | a :: l, b :: l', p, h, h' => by
    obtain rfl : a = b := h.1.symm.trans h'.1
    rw [Seg.unique h.2.2 h'.2.2]

theorem Seg.next_ne_self {a : ℕ} {l : List ℕ} (h : Seg next p (a :: l) 0) : next a ≠ a := by
  intro he
  obtain ⟨-, ha, hl⟩ := h
  have hself : Seg next a (a :: l) 0 := ⟨rfl, ha, hl⟩
  rw [he] at hl
  exact List.cons_ne_self a l (hself.unique hl)

/-- **Put a node at the end.** -/
theorem Seg.push {a b : ℕ} (h : Seg next p (l ++ [a]) 0) (hb : b ≠ 0) (ha : next' a = b)
    (hb' : next' b = 0) (hl : ∀ c ∈ l, next' c = next c) : Seg next' p (l ++ [a] ++ [b]) 0 := by
  obtain ⟨h₁, h₂, -⟩ := seg_snoc.mp h
  exact seg_snoc.mpr ⟨seg_snoc.mpr ⟨h₁.congr hl, h₂, ha⟩, hb, hb'⟩

/-- **Take out the node after `a`.** -/
theorem Seg.drop {a b : ℕ} {l₁ l₂ : List ℕ} (h : Seg next p (l₁ ++ a :: b :: l₂) q)
    (ha : next' a = next b) (h₁ : ∀ c ∈ l₁, next' c = next c) (h₂ : ∀ c ∈ l₂, next' c = next c) :
    Seg next' p (l₁ ++ a :: l₂) q := by
  obtain ⟨r, hr, rfl, ha₀, -, hb₀, hs⟩ := seg_append.mp h
  refine seg_append.mpr ⟨r, hr.congr h₁, rfl, ha₀, ?_⟩
  rw [ha]
  exact hs.congr h₂

/-! ## The way back -/

/-- Each `prev` leads to the node before; that of the first node leads to `q`. -/
def Back (prev : ℕ → ℕ) : ℕ → List ℕ → Prop
  | _, [] => True
  | q, a :: l => prev a = q ∧ Back prev a l

section Back

variable {prev prev' : ℕ → ℕ} {l l₁ l₂ : List ℕ} {a b : ℕ}

theorem Back.congr {q : ℕ} (h : Back prev q l) (hp : ∀ a ∈ l, prev' a = prev a) : Back prev' q l := by
  induction l generalizing q with
  | nil => exact h
  | cons a l ih =>
    exact ⟨(hp a List.mem_cons_self).trans h.1, ih h.2 fun b hb => hp b (List.mem_cons_of_mem _ hb)⟩

theorem back_append {q : ℕ} : Back prev q (l₁ ++ l₂) ↔ Back prev q l₁ ∧ Back prev (l₁.getLastD q) l₂ := by
  induction l₁ generalizing q with
  | nil => exact (and_iff_right trivial).symm
  | cons a l₁ ih => rw [List.cons_append, Back, Back, ih, and_assoc, List.getLastD_cons]

theorem Back.push {q : ℕ} (h : Back prev q l) (hb : prev' b = l.getLastD q) (hl : ∀ a ∈ l, prev' a = prev a) :
    Back prev' q (l ++ [b]) :=
  back_append.mpr ⟨h.congr hl, hb, trivial⟩

/-- **The node after `a` is taken out**, and the one behind it leads back to `a`. -/
theorem Back.drop {q : ℕ} (h : Back prev q (l₁ ++ a :: b :: l₂)) (h₁ : ∀ c ∈ l₁, prev' c = prev c)
    (ha : prev' a = prev a)
    (h₂ : ∀ c l, l₂ = c :: l → prev' c = a ∧ ∀ d ∈ l, prev' d = prev d) : Back prev' q (l₁ ++ a :: l₂) := by
  obtain ⟨hl₁, hpa, -, hl₂⟩ := back_append.mp h
  refine back_append.mpr ⟨hl₁.congr h₁, ha.trans hpa, ?_⟩
  cases l₂ with
  | nil => trivial
  | cons c l =>
    obtain ⟨hc, hl⟩ := h₂ c l rfl
    exact ⟨hc, hl₂.2.congr hl⟩

end Back

/-! ## Neighbouring blocks -/

/-- **A doubly linked list of neighbouring blocks**: in address order, with `prev` the inverse of
`next`, each block starting where the one before it ends, and the last one ending at `E`. -/
structure Contig (next prev len : ℕ → ℕ) (p E : ℕ) (l : List ℕ) : Prop where
  linked : Seg next p l 0
  sorted : l.Pairwise (· < ·)
  prevs : l.IsChain fun a b => prev b = a
  touch : l.IsChain fun a b => a + len a = b
  last : ∀ a ∈ l.getLast?, a + len a = E

namespace Contig

variable {prev len : ℕ → ℕ} {E a b : ℕ}

theorem tail (h : Contig next prev len p E (a :: b :: l)) :
    Contig next prev len b E (b :: l) ∧ prev b = a ∧ a + len a = b ∧ next a = b := by
  obtain ⟨-, -, hs⟩ := h.linked
  obtain ⟨hp, hps⟩ := List.isChain_cons_cons.mp h.prevs
  obtain ⟨ht, hts⟩ := List.isChain_cons_cons.mp h.touch
  exact ⟨⟨hs.1 ▸ hs, h.sorted.of_cons, hps, hts, by simpa using h.last⟩, hp, ht, hs.1⟩

theorem singleton (h : Contig next prev len p E [a]) : a + len a = E ∧ next a = 0 :=
  ⟨h.last a (by simp), h.linked.2.2⟩

theorem cons (h : Contig next prev len b E (b :: l)) (ha : a ≠ 0) (hab : a < b) (hp : prev b = a)
    (ht : a + len a = b) (hn : next a = b) : Contig next prev len a E (a :: b :: l) := by
  refine ⟨⟨rfl, ha, hn.symm ▸ h.linked⟩, List.pairwise_cons.mpr ⟨fun c hc => ?_, h.sorted⟩,
    List.isChain_cons_cons.mpr ⟨hp, h.prevs⟩, List.isChain_cons_cons.mpr ⟨ht, h.touch⟩,
    by simpa using h.last⟩
  rcases List.mem_cons.mp hc with rfl | hc
  · exact hab
  · exact hab.trans ((List.pairwise_cons.mp h.sorted).1 c hc)

/-- The blocks end at or before `E`, and only the last one has no successor. -/
theorem next_eq : ∀ {l : List ℕ} {p : ℕ}, Contig next prev len p E l → (∀ a ∈ l, 0 < len a) →
    ∀ a ∈ l, a + len a ≤ E ∧ next a = if a + len a = E then 0 else a + len a
  | [b], p, h, _, a, ha => by
    obtain rfl := List.mem_singleton.mp ha
    obtain ⟨h₁, h₂⟩ := h.singleton
    exact ⟨h₁.le, by rw [if_pos h₁, h₂]⟩
  | b :: c :: l, p, h, hpos, a, ha => by
    obtain ⟨ht, -, hbc, hn⟩ := h.tail
    have hpos' : ∀ a ∈ c :: l, 0 < len a := fun a ha => hpos a (List.mem_cons_of_mem _ ha)
    rcases List.mem_cons.mp ha with rfl | ha
    · have hc := (next_eq ht hpos' c List.mem_cons_self).1
      have := hpos' c List.mem_cons_self
      rw [if_neg (by omega), hbc]
      exact ⟨by omega, hn⟩
    · exact next_eq ht hpos' a ha

theorem next_mem : ∀ {l : List ℕ} {p : ℕ}, Contig next prev len p E l →
    ∀ a ∈ l, a + len a < E → a + len a ∈ l ∧ prev (a + len a) = a
  | [b], p, h, a, ha, hlt => by
    obtain rfl := List.mem_singleton.mp ha
    exact absurd h.singleton.1 hlt.ne
  | b :: c :: l, p, h, a, ha, hlt => by
    obtain ⟨ht, hp, hbc, -⟩ := h.tail
    rcases List.mem_cons.mp ha with rfl | ha
    · rw [hbc]
      exact ⟨by simp, hp⟩
    · obtain ⟨h₁, h₂⟩ := next_mem ht a ha hlt
      exact ⟨List.mem_cons_of_mem _ h₁, h₂⟩

/-- No block starts inside another. -/
theorem not_inside : ∀ {l : List ℕ} {p : ℕ}, Contig next prev len p E l →
    ∀ a ∈ l, ∀ b ∈ l, b ≤ a ∨ a + len a ≤ b
  | [c], p, h, a, ha, b, hb => by
    rw [List.mem_singleton.mp ha, List.mem_singleton.mp hb]
    exact .inl le_rfl
  | c :: d :: l, p, h, a, ha, b, hb => by
    obtain ⟨ht, -, hcd, -⟩ := h.tail
    have hlt := (List.pairwise_cons.mp h.sorted).1
    rcases List.mem_cons.mp ha with rfl | ha'
    · rcases List.mem_cons.mp hb with rfl | hb
      · exact .inl le_rfl
      · rw [hcd]
        rcases List.mem_cons.mp hb with rfl | hb
        · exact .inr le_rfl
        · exact .inr ((List.pairwise_cons.mp ht.sorted).1 b hb).le
    · rcases List.mem_cons.mp hb with rfl | hb
      · exact .inl (hlt a ha').le
      · exact not_inside ht a ha' b hb

theorem head_le (h : Contig next prev len p E l) : ∀ a ∈ l, p ≤ a := by
  intro a ha
  cases l with
  | nil => simp at ha
  | cons b l =>
    obtain ⟨rfl, -⟩ := h.linked
    rcases List.mem_cons.mp ha with rfl | ha
    · exact le_rfl
    · exact ((List.pairwise_cons.mp h.sorted).1 a ha).le

theorem mk_singleton (ha : a ≠ 0) (hn : next a = 0) :
    Contig next prev len a (a + len a) [a] :=
  ⟨⟨rfl, ha, hn⟩, List.pairwise_singleton _ _, .singleton _, .singleton _, by simp⟩

section Congr

variable {prev' len' : ℕ → ℕ}

theorem congr (h : Contig next prev len p E l) (hn : ∀ a ∈ l, next' a = next a)
    (hp : ∀ a ∈ l, prev' a = prev a) (hl : ∀ a ∈ l, len' a = len a) :
    Contig next' prev' len' p E l where
  linked := h.linked.congr hn
  sorted := h.sorted
  prevs := h.prevs.imp_of_mem_imp fun a b _ hb hab => (hp b hb).trans hab
  touch := h.touch.imp_of_mem_imp fun a b ha _ hab => by rw [hl a ha, hab]
  last := fun a ha => by rw [hl a (List.mem_of_getLast? ha), h.last a ha]

/-- **Put a block at the end `E`.** -/
theorem push (h : Contig next prev len p E (l ++ [a])) (hpos : ∀ b ∈ l ++ [a], 0 < len b)
    (hE : next' E = 0) (hpE : prev' E = a) (ha : next' a = E) (hn : ∀ b ∈ l, next' b = next b)
    (hp : ∀ b ∈ l ++ [a], prev' b = prev b) (hl : ∀ b ∈ l ++ [a], len' b = len b) :
    Contig next' prev' len' p (E + len' E) (l ++ [a] ++ [E]) := by
  have haE : a + len a = E := h.last a (by simp)
  have hlt : ∀ b ∈ l ++ [a], b < E := fun b hb => by
    have := (h.next_eq hpos b hb).1
    have := hpos b hb
    omega
  have haE' := hlt a (by simp)
  refine ⟨h.linked.push (by omega) ha hE hn, ?_, ?_, ?_, ?_⟩
  · refine List.pairwise_append.mpr ⟨h.sorted, List.pairwise_singleton _ _, fun b hb c hc => ?_⟩
    rw [List.mem_singleton.mp hc]
    exact hlt b hb
  · refine List.isChain_append.mpr
      ⟨h.prevs.imp_of_mem_imp fun b c _ hc hbc => (hp c hc).trans hbc, .singleton _, ?_⟩
    simpa using hpE
  · refine List.isChain_append.mpr
      ⟨h.touch.imp_of_mem_imp fun b c hb _ hbc => by rw [hl b hb, hbc], .singleton _, ?_⟩
    simpa [hl a (by simp)] using haE
  · simp

end Congr

/-- **The lengths add up to the distance from the first block to the end.** -/
theorem sum_len : ∀ {l : List ℕ} {p : ℕ}, Contig next prev len p E l → l ≠ [] →
    p + (l.map len).sum = E
  | [a], p, h, _ => by
    obtain ⟨rfl, -⟩ := h.linked
    simpa using h.singleton.1
  | a :: b :: l, p, h, _ => by
    obtain ⟨rfl, -⟩ := h.linked
    obtain ⟨ht, -, hab, -⟩ := h.tail
    have := sum_len ht (by simp)
    rw [List.map_cons, List.sum_cons]
    omega

end Contig

end OsHomework
