import OsHomework.Malloc3.Repr

/-!
# `malloc_3`: the merge loop from any header

`Free` does not look at the mark of the block it is given. A second release of a pointer starts the merge
loop from whatever header is found there now: that of a free block, that of a larger block, or a stale
one inside another block. This module says what the loop does from any header at a multiple of 128.

* `Tidy lo m`: the `next` fields at multiples of 128 are multiples of 128, stale ones included. Without
  this a store to `next->prev` could hit any byte of a header;
* `Rises lo hi m m'`: orders only grow; `absorb_rises`, `mergeStep_rises`, **`unionLoop_rises`**,
  **`unionIfPossible_rises`**.
-/

set_option autoImplicit false

namespace OsHomework.Malloc3

open Buddy

/-! ## Headers at multiples of 128 -/

/-- Every header at a multiple of 128 from `lo` on, stale or not, has a multiple of 128 as its `next`. -/
def Tidy (lo : ℕ) (m : Mem) : Prop := ∀ x, lo ≤ x → startSize ∣ x → startSize ∣ (hdr m x).next

section Aligned

variable {m : Mem} {a x lo : ℕ}

theorem hdr_setPrevIf {next v : ℕ} (hn : startSize ∣ next) (hx : startSize ∣ x) :
    ∃ w, hdr (setPrevIf m next v) x = { hdr m x with prev := w } := by
  unfold setPrevIf
  split_ifs with h₀
  · by_cases he : x = next
    · exact ⟨_, by rw [he, hdr_setPrev]⟩
    · exact ⟨_, (hdr_of_ne hn hx he fun y hy => setPrev_out _ _ _ hy).trans (self_with_prev _)⟩
  · exact ⟨_, self_with_prev _⟩

theorem order_bounds (m : Mem) (a : ℕ) : -2 ^ 31 ≤ (hdr m a).order ∧ (hdr m a).order < 2 ^ 31 := by
  have hlt : m.load (a + 20) 4 < 2 ^ 32 := Mem.load_lt m (a + 20) 4
  simp only [hdr, toInt32]
  split_ifs <;> omega

theorem blockBytes_ret {i : ℤ} {b : ℕ} (h : blockBytes i = .ret b) : 0 ≤ i := by
  by_contra hc
  rw [blockBytes, pow2, if_neg (by omega)] at h
  cases h

/-- The `int` after `order++`, when it is not negative. -/
theorem toInt32_succ {i : ℤ} (h₁ : -2 ^ 31 ≤ i) (h₂ : i < 2 ^ 31)
    (h : 0 ≤ toInt32 (ofInt32 (i + 1) % 2 ^ 32)) : toInt32 (ofInt32 (i + 1) % 2 ^ 32) = i + 1 := by
  by_cases hlt : i + 1 < 2 ^ 31
  · exact toInt32_ofInt32 (by omega) hlt
  · have hmin : toInt32 (ofInt32 (2 ^ 31) % 2 ^ 32) = -2 ^ 31 := by decide
    rw [show i + 1 = 2 ^ 31 by omega, hmin] at h
    omega

theorem dvd_buddyAddr {o : ℤ} {b : ℕ} (ha : startSize ∣ a) (h : buddyAddr a o = .ret b) :
    startSize ∣ b := by
  obtain ⟨i, rfl⟩ := ha
  obtain ⟨bytes, hb, h⟩ := Outcome.bind_eq_ret.mp h
  obtain ⟨q, -, hq⟩ := Outcome.bind_eq_ret.mp hb
  split_ifs at hq
  cases hq
  cases h
  rw [startSize, show (128 : ℕ) = 2 ^ 7 by norm_num, mul_comm q, two_pow_mul_xor_mul]
  exact Dvd.intro _ rfl

end Aligned

/-! ## The merge loop from any header -/

/-- **How the headers change while blocks are merged**: marks of mapped blocks stay, no order falls, and
outside the addresses from `lo` to `hi` only `prev` is written. -/
structure Rises (lo hi : ℕ) (m m' : Mem) : Prop where
  isMmap : ∀ x, startSize ∣ x → (hdr m' x).isMmap = (hdr m x).isMmap
  order : ∀ x, startSize ∣ x → (hdr m x).order ≤ (hdr m' x).order
  out : ∀ x, startSize ∣ x → x < lo ∨ hi < x → ∃ w, hdr m' x = { hdr m x with prev := w }
  tidy : Tidy lo m'

section Merge

variable {s s' : State} {addr buddy addr' buddy' keep gone lo hi : ℕ} {m m' m'' : Mem}

theorem Rises.refl (ht : Tidy lo m) : Rises lo hi m m :=
  ⟨fun _ _ => rfl, fun _ _ => le_rfl, fun _ _ _ => ⟨_, self_with_prev _⟩, ht⟩

theorem Rises.trans {hi' : ℕ} (h : Rises lo hi m m') (h' : Rises lo hi' m' m'') (hle : hi' ≤ hi) :
    Rises lo hi m m'' := by
  refine ⟨fun x hx => (h'.isMmap x hx).trans (h.isMmap x hx),
    fun x hx => (h.order x hx).trans (h'.order x hx), fun x hx ho => ?_, h'.tidy⟩
  obtain ⟨w, hw⟩ := h.out x hx ho
  obtain ⟨w', hw'⟩ := h'.out x hx (by omega)
  exact ⟨w', by rw [hw', hw]⟩

/-- The stores of `absorb` into the header of `keep`. -/
def grownHdr (m : Mem) (keep next bytes : ℕ) : Mem :=
  setIsFree (setSize (setOrder (setNext m keep next) keep ((hdr (setNext m keep next) keep).order + 1)) keep
    (subSize bytes sizeofMetadata)) keep true

theorem absorb_ret (h : absorb s keep gone = .ret s') : ∃ bytes,
    0 ≤ toInt32 (ofInt32 ((hdr s.mem keep).order + 1) % 2 ^ 32) ∧
    s' = { s with
      mem := setPrevIf (grownHdr s.mem keep (hdr s.mem gone).next bytes)
        (hdr (grownHdr s.mem keep (hdr s.mem gone).next bytes) gone).next keep } := by
  obtain ⟨bytes, hb, h⟩ := Outcome.bind_eq_ret.mp h
  have hnonneg := blockBytes_ret hb
  rw [hdr_setOrder, hdr_setNext] at hnonneg
  exact ⟨bytes, hnonneg, (Outcome.ret.inj h).symm⟩

theorem hdr_grownHdr_self {next : ℕ} (bytes : ℕ) (hn : next < 2 ^ 64)
    (h : 0 ≤ toInt32 (ofInt32 ((hdr m keep).order + 1) % 2 ^ 32)) :
    hdr (grownHdr m keep next bytes) keep = { hdr m keep with
      next, order := (hdr m keep).order + 1, size := subSize bytes sizeofMetadata % 2 ^ 64,
      isFree := true } := by
  have hord := toInt32_succ (order_bounds m keep).1 (order_bounds m keep).2 h
  rw [grownHdr, hdr_setIsFree, hdr_setSize, hdr_setOrder, hdr_setNext, hord, Nat.mod_eq_of_lt hn]

theorem hdr_grownHdr_of_ne (next bytes : ℕ) {x : ℕ} (hk : startSize ∣ keep) (hx : startSize ∣ x)
    (hne : x ≠ keep) : hdr (grownHdr m keep next bytes) x = hdr m x := by
  apply hdr_of_ne hk hx hne
  intro y hy
  rw [grownHdr, setIsFree_out _ _ _ hy, setSize_out _ _ _ hy, setOrder_out _ _ _ hy, setNext_out _ _ _ hy]

/-- **What `absorb` does**, whatever the two headers hold. -/
theorem absorb_rises (hk : startSize ∣ keep) (hg : startSize ∣ gone) (h₁ : lo ≤ keep) (h₂ : keep ≤ hi)
    (hlg : lo ≤ gone) (ht : Tidy lo s.mem) (h : absorb s keep gone = .ret s') :
    Rises lo hi s.mem s'.mem ∧ (hdr s.mem keep).order < (hdr s'.mem keep).order := by
  obtain ⟨bytes, hord, he⟩ := absorb_ret h
  have hself := hdr_grownHdr_self bytes (hdr_next_lt s.mem gone) hord
  have hother := fun x hx hne =>
    hdr_grownHdr_of_ne (m := s.mem) (x := x) (hdr s.mem gone).next bytes hk hx hne
  generalize grownHdr s.mem keep (hdr s.mem gone).next bytes = m₁ at he hself hother
  have ht₁ : Tidy lo m₁ := by
    intro x hlx hx
    by_cases heq : x = keep
    · rw [heq, hself]
      exact ht gone hlg hg
    · rw [hother x hx heq]
      exact ht x hlx hx
  have hmem : s'.mem = setPrevIf m₁ (hdr m₁ gone).next keep := by rw [he]
  have hprev : ∀ x, startSize ∣ x → ∃ w, hdr s'.mem x = { hdr m₁ x with prev := w } := by
    intro x hx
    rw [hmem]
    exact hdr_setPrevIf (ht₁ gone hlg hg) hx
  have hrises : Rises lo hi s.mem s'.mem := by
    constructor
    · intro x hx
      obtain ⟨w, hw⟩ := hprev x hx
      by_cases heq : x = keep
      · rw [hw, heq, hself]
      · rw [hw, hother x hx heq]
    · intro x hx
      obtain ⟨w, hw⟩ := hprev x hx
      by_cases heq : x = keep
      · rw [hw, heq, hself]
        dsimp only
        omega
      · rw [hw, hother x hx heq]
    · intro x hx ho
      obtain ⟨w, hw⟩ := hprev x hx
      exact ⟨w, by rw [hw, hother x hx (by omega)]⟩
    · intro x hlx hx
      obtain ⟨w, hw⟩ := hprev x hx
      rw [hw]
      exact ht₁ x hlx hx
  refine ⟨hrises, ?_⟩
  obtain ⟨w, hw⟩ := hprev keep hk
  rw [hw, hself]
  dsimp only
  omega

theorem removeFreed_ret {o : ℤ} {p : ℕ} (h : removeFreed s o p = .ret s') :
    s' = { s with freed := s'.freed } ∧ ∀ k, s'.freed k ⊆ s.freed k := by
  obtain ⟨i, -, h⟩ := Outcome.bind_eq_ret.mp h
  rw [← Outcome.ret.inj h]
  refine ⟨rfl, fun k q hq => ?_⟩
  dsimp only at hq
  by_cases hk : k = i
  · subst hk
    rw [Function.update_self] at hq
    exact List.mem_of_mem_filter hq
  · rwa [Function.update_of_ne hk] at hq

/-- A merge takes the block and its buddy off the list of the buddy's order, lets the lower one swallow the
upper one, and goes on with the lower one. -/
theorem mergeStep_ret (h : mergeStep s addr buddy = .ret (s', addr', buddy')) :
    (hdr s.mem buddy).cookie = s.cookie ∧ addr' = min addr buddy ∧
      buddyAddr addr' (hdr s'.mem addr').order = .ret buddy' ∧
      s' = { s with mem := s'.mem, freed := s'.freed } ∧ (∀ k, s'.freed k ⊆ s.freed k) ∧
      ∃ t, t.mem = s.mem ∧ absorb t (min addr buddy) (max addr buddy) = .ret s' := by
  rw [mergeStep] at h
  split at h
  · cases h
  · rename_i hck
    obtain ⟨s₁, h₁, h⟩ := Outcome.bind_eq_ret.mp h
    obtain ⟨s₂, h₂, h⟩ := Outcome.bind_eq_ret.mp h
    obtain ⟨s₃, h₃, h⟩ := Outcome.bind_eq_ret.mp h
    obtain ⟨b, hb, h⟩ := Outcome.bind_eq_ret.mp h
    have hkeep : (if addr < buddy then addr else buddy) = min addr buddy := by split_ifs <;> omega
    have hgone : (if addr < buddy then buddy else addr) = max addr buddy := by split_ifs <;> omega
    rw [hkeep, hgone] at h₃
    rw [hkeep] at hb h
    cases h
    obtain ⟨hs₁, hf₁⟩ := removeFreed_ret h₁
    obtain ⟨he₂, hf₂⟩ := removeFreed_ret h₂
    have hs₂ : s₂ = { s with freed := s₂.freed } := by rw [he₂, hs₁]
    obtain ⟨bytes, -, he⟩ := absorb_ret h₃
    refine ⟨not_not.mp (not_or.mp hck).1, rfl, hb, ?_, ?_, s₂, by rw [hs₂], h₃⟩
    · rw [he, hs₂]
    · rw [he]
      exact fun k => List.Subset.trans (hf₂ k) (hf₁ k)

/-- **One merge.** -/
theorem mergeStep_rises (ha : startSize ∣ addr) (hb : startSize ∣ buddy) (hlo : lo ≤ addr')
    (ht : Tidy lo s.mem) (h : mergeStep s addr buddy = .ret (s', addr', buddy')) :
    startSize ∣ addr' ∧ startSize ∣ buddy' ∧ Rises lo addr s.mem s'.mem ∧
      (hdr s.mem addr').order < (hdr s'.mem addr').order := by
  obtain ⟨-, rfl, hbud, -, -, t, hmem, habs⟩ := mergeStep_ret h
  have hmin : startSize ∣ min addr buddy := by
    rcases min_choice addr buddy with he | he <;> rw [he] <;> assumption
  have hmax : startSize ∣ max addr buddy := by
    rcases max_choice addr buddy with he | he <;> rw [he] <;> assumption
  obtain ⟨hr, hlt⟩ := absorb_rises hmin hmax hlo (min_le_left addr buddy)
    (hlo.trans min_le_max) (hmem ▸ ht) habs
  rw [hmem] at hr hlt
  exact ⟨hmin, dvd_buddyAddr hmin hbud, hr, hlt⟩

theorem unionLoop_frame {n y : ℕ} (h : unionLoop n s addr buddy = .ret (s', y)) :
    y ≤ addr ∧ s' = { s with mem := s'.mem, freed := s'.freed } := by
  induction n generalizing s addr buddy with
  | zero => cases h
  | succ n ih =>
    rw [unionLoop] at h
    split_ifs at h with hgo
    · obtain ⟨⟨s₁, addr₁, buddy₁⟩, h₁, h⟩ := Outcome.bind_eq_ret.mp h
      obtain ⟨hle, hs'⟩ := ih h
      obtain ⟨-, hmin, -, hs₁, -⟩ := mergeStep_ret h₁
      refine ⟨?_, by rw [hs', hs₁]⟩
      calc y ≤ addr₁ := hle
        _ = min addr buddy := hmin
        _ ≤ addr := min_le_left _ _
    · cases h
      exact ⟨le_rfl, rfl⟩

/-- **The merge loop from any two headers at multiples of 128** that does not leave the addresses from `lo`
on: it only raises orders, and if it merges at all then that of the block it ends at. -/
theorem unionLoop_rises {n y : ℕ} (hlo : lo ≤ y) (ha : startSize ∣ addr) (hb : startSize ∣ buddy)
    (ht : Tidy lo s.mem) (h : unionLoop n s addr buddy = .ret (s', y)) :
    startSize ∣ y ∧ Rises lo addr s.mem s'.mem ∧
      (s' = s ∧ y = addr ∨ (hdr s.mem y).order < (hdr s'.mem y).order) := by
  induction n generalizing s addr buddy with
  | zero => cases h
  | succ n ih =>
    rw [unionLoop] at h
    split_ifs at h with hgo
    · obtain ⟨⟨s₁, addr₁, buddy₁⟩, h₁, h⟩ := Outcome.bind_eq_ret.mp h
      have hle := (unionLoop_frame h).1
      obtain ⟨ha₁, hb₁, hr₁, hlt₁⟩ := mergeStep_rises ha hb (hlo.trans hle) ht h₁
      obtain ⟨hy, hr, hor⟩ := ih ha₁ hb₁ hr₁.tidy h
      have hdown : addr₁ ≤ addr := by
        rw [(mergeStep_ret h₁).2.1]
        exact min_le_left _ _
      refine ⟨hy, hr₁.trans hr hdown, .inr ?_⟩
      rcases hor with ⟨rfl, rfl⟩ | hlt
      · exact hlt₁
      · exact (hr₁.order y hy).trans_lt hlt
    · cases h
      exact ⟨ha, .refl ht, .inl ⟨rfl, rfl⟩⟩

theorem rises_setIsFree {y : ℕ} (hy : startSize ∣ y) (h₁ : lo ≤ y) (h₂ : y ≤ hi) (ht : Tidy lo m) (b : Bool) :
    Rises lo hi m (setIsFree m y b) := by
  have hself := hdr_setIsFree m y b
  have hother : ∀ x, startSize ∣ x → x ≠ y → hdr (setIsFree m y b) x = hdr m x :=
    fun x hx hne => hdr_of_ne hy hx hne fun z hz => setIsFree_out _ _ _ hz
  constructor
  · intro x hx
    by_cases he : x = y
    · rw [he, hself]
    · rw [hother x hx he]
  · intro x hx
    by_cases he : x = y
    · rw [he, hself]
    · rw [hother x hx he]
  · intro x hx ho
    exact ⟨_, (hother x hx (by omega)).trans (self_with_prev _)⟩
  · intro x hlx hx
    by_cases he : x = y
    · rw [he, hself]
      exact ht y h₁ hy
    · rw [hother x hx he]
      exact ht x hlx hx

theorem unionIfPossible_ret {n A : ℕ} (hmm : (hdr s.mem A).isMmap = false)
    (h : unionIfPossible n s A = .ret s') : ∃ t b y o, buddyAddr A (hdr s.mem A).order = .ret b ∧
      unionLoop n s A b = .ret (t, y) ∧ o ≤ maxOrder ∧ (hdr t.mem y).order = (o : ℕ) ∧ s' = { t with
        mem := setIsFree t.mem y true
        freed := Function.update t.freed o ((t.freed o).orderedInsert (· ≤ ·) y) } := by
  rw [unionIfPossible, hmm, if_neg (by simp)] at h
  obtain ⟨b, hb, h⟩ := Outcome.bind_eq_ret.mp h
  obtain ⟨⟨t, y⟩, hloop, h⟩ := Outcome.bind_eq_ret.mp h
  obtain ⟨i, hi, h⟩ := Outcome.bind_eq_ret.mp h
  rw [hdr_setIsFree] at hi
  dsimp only [freedIdx] at hi
  split_ifs at hi with hr
  obtain rfl := Outcome.ret.inj hi
  refine ⟨t, b, y, (hdr t.mem y).order.toNat, hb, hloop, ?_, ?_, (Outcome.ret.inj h).symm⟩
  · have := hr.2
    omega
  · exact (Int.toNat_of_nonneg hr.1).symm

/-- **A release from any header**: the block it ends at goes onto a list. If that block is at `lo` or above,
then the headers rise, and either nothing was merged or its order was smaller before. -/
theorem unionIfPossible_rises {n A : ℕ} (ha : startSize ∣ A) (hmm : (hdr s.mem A).isMmap = false)
    (ht : Tidy lo s.mem) (h : unionIfPossible n s A = .ret s') :
    s' = { s with mem := s'.mem, freed := s'.freed } ∧
      ∃ y o, o ≤ maxOrder ∧ y ∈ s'.freed o ∧ (lo ≤ y → Rises lo A s.mem s'.mem ∧
        (s'.freed o = (s.freed o).orderedInsert (· ≤ ·) y ∨ (hdr s.mem y).order < (o : ℕ))) := by
  obtain ⟨t, b, y, o, hbud, hloop, ho, hord, he⟩ := unionIfPossible_ret hmm h
  have hb := dvd_buddyAddr ha hbud
  have hmem : s'.mem = setIsFree t.mem y true := by rw [he]
  have hfreed : s'.freed o = (t.freed o).orderedInsert (· ≤ ·) y := by
    rw [he]
    exact Function.update_self _ _ _
  obtain ⟨hle, hst⟩ := unionLoop_frame hloop
  refine ⟨by rw [he, hst], y, o, ho, ?_, fun hlo => ?_⟩
  · rw [hfreed, List.mem_orderedInsert]
    exact .inl rfl
  · obtain ⟨hy, hr, hor⟩ := unionLoop_rises hlo ha hb ht hloop
    have hr' := hr.trans (rises_setIsFree hy hlo hle hr.tidy true) le_rfl
    rw [← hmem] at hr'
    refine ⟨hr', ?_⟩
    rcases hor with ⟨rfl, -⟩ | hlt
    · exact .inl hfreed
    · rw [hord] at hlt
      exact .inr hlt

end Merge

end OsHomework.Malloc3
