import Mathlib.Data.Nat.Find
import OsHomework.Malloc3.Calls
import OsHomework.Malloc3.Init

/-!
# `malloc_3`: a state for every layout

The headers and the free lists that a layout calls for, written into any memory.

* `image base ck B m`: the memory `m` with the headers of the layout `B` in it; `image_slot`, `image_out`;
* `imageState base ck B m`, and **`inv_imageState`**: every layout is that of a state.
-/

set_option autoImplicit false

namespace OsHomework.Malloc3

open Buddy

/-- The block that ends at `a`. -/
def blockBefore (B : Layout) (a : ℕ) : ℕ := Nat.findGreatest (fun b => (B b).isSome) (a - 1)

/-- The header of the block `c` at `a`. -/
def imageHdr (base ck : ℕ) (B : Layout) (a : ℕ) (c : Cell) : MallocMetadata where
  cookie := ck
  size := payloadSize c.order
  isFree := c.free
  isMmap := false
  order := c.order
  next := nextAddr base a c.order
  prev := if a = 0 then 0 else base + startSize * blockBefore B a

/-- The memory `m` with the headers of `B` written into it. -/
def image (base ck : ℕ) (B : Layout) (m : Mem) : Mem := fun x =>
  match B ((x - base) / startSize) with
  | some c =>
    if base ≤ x then
      setHdr m (base + startSize * ((x - base) / startSize)) (imageHdr base ck B ((x - base) / startSize) c) x
    else m x
  | none => m x

/-- The free blocks of order `k`, in address order. -/
def imageFreed (base : ℕ) (B : Layout) (k : ℕ) : List ℕ :=
  ((List.range arenaUnits).filter fun a => B a = some ⟨k, true⟩).map fun a => base + startSize * a

/-- The state with the layout `B` and no mapped blocks. -/
def imageState (base ck : ℕ) (B : Layout) (m : Mem) : State where
  mem := image base ck B m
  head := base
  mmapHead := 0
  freed := imageFreed base B
  cookie := ck
  brk := base
  unmapped := []

section Image

variable {base ck : ℕ} {B : Layout} {m : Mem} {a : ℕ} {c : Cell}

theorem blockBefore_eq {M z : ℕ} (hT : Tiles M z B) (ha : B a = some c) :
    blockBefore B (a + 2 ^ c.order) = a := by
  have hpos := Nat.two_pow_pos c.order
  rw [blockBefore, Nat.findGreatest_eq_iff]
  refine ⟨by omega, fun _ => by rw [ha]; rfl, fun b h₁ h₂ => ?_⟩
  rw [hT.inner ha h₁ (by omega)]
  simp

theorem image_out {x : ℕ} (hx : ∀ u c, B u = some c → x < base + startSize * u ∨ base + startSize * u + 40 ≤ x) :
    image base ck B m x = m x := by
  unfold image
  split
  · rename_i c hc
    split_ifs
    · exact setHdr_out m _ (hx _ c hc)
    · rfl
  · rfl

/-- **The header of a block is read back.** -/
theorem image_slot (hA : Arena base) (hck : ck < 2 ^ 32) (hT : Tiles maxOrder arenaUnits B)
    (ha : B a = some c) : slots base (image base ck B m) a = imageHdr base ck B a c := by
  have hlt := hT.lt ha
  have hk : c.order ≤ 10 := hT.le_max ha
  have hbefore : blockBefore B a ≤ a - 1 := Nat.findGreatest_le _
  have hfits := hA.fits
  have hnext : nextAddr base a c.order < 2 ^ 64 := by
    have := hT.fits ha
    unfold nextAddr
    unfold startSize at *
    split_ifs <;> omega
  have hsize : payloadSize c.order < 2 ^ 64 := by
    have := two_pow_lt (show c.order < 15 by omega)
    unfold payloadSize startSize
    omega
  have hprev : (imageHdr base ck B a c).prev < 2 ^ 64 := by
    show (if a = 0 then 0 else base + startSize * blockBefore B a) < 2 ^ 64
    unfold startSize at *
    split_ifs <;> omega
  have hmem : ∀ x, base + startSize * a ≤ x → x < base + startSize * a + 40 →
      image base ck B m x = setHdr m (base + startSize * a) (imageHdr base ck B a c) x := by
    intro x h₁ h₂
    have hdiv : (x - base) / startSize = a := by
      unfold startSize at *
      omega
    unfold image
    rw [hdiv, ha]
    simp only
    rw [if_pos (by omega)]
  rw [slots_congr hmem, slots_setHdr, Function.update_self, Nat.mod_eq_of_lt hprev]
  simp only [imageHdr, Nat.mod_eq_of_lt hck, Nat.mod_eq_of_lt hnext, Nat.mod_eq_of_lt hsize,
    toInt32_ofInt32_nat (show c.order ≤ 15 by omega)]

theorem lists_imageFreed {M : ℕ} (hT : Tiles M arenaUnits B) : Lists base (imageFreed base B) B := by
  refine ⟨fun {k} _ => ?_, fun {k} _ p => ?_⟩
  · refine List.pairwise_map.mpr ((List.pairwise_lt_range.filter _).imp fun hlt => ?_)
    unfold startSize
    omega
  · unfold imageFreed
    rw [List.mem_map]
    constructor
    · rintro ⟨a, ha, rfl⟩
      exact ⟨a, rfl, of_decide_eq_true (List.mem_filter.mp ha).2⟩
    · rintro ⟨a, rfl, ha⟩
      exact ⟨a, List.mem_filter.mpr ⟨List.mem_range.mpr (hT.lt ha), decide_eq_true ha⟩, rfl⟩

/-- **Every layout is that of a state**, whatever the other bytes of the memory are. -/
theorem inv_imageState (hA : Arena base) (hck : ck < 2 ^ 32) (hT : Tiles maxOrder arenaUnits B) :
    Inv base (imageState base ck B m) B [] := by
  have hslot : ∀ {a c}, B a = some c → slots base (imageState base ck B m).mem a = imageHdr base ck B a c :=
    fun ha => image_slot hA hck hT ha
  refine ⟨hA, rfl, ⟨⟨hT, fun ha => ?_, ?_, fun {a c} ha hlt => ?_, fun ha _ => ?_⟩, ?_, hck⟩, ?_⟩
  · rw [hslot ha]
    exact ⟨rfl, rfl, rfl, rfl, rfl⟩
  · obtain ⟨c, hc⟩ := hT.first
    rw [hslot hc]
    rfl
  · obtain ⟨d, hd⟩ := hT.next ha hlt
    rw [hslot hd]
    show (if _ = 0 then 0 else _) = _
    rw [if_neg (by have := Nat.two_pow_pos c.order; omega), blockBefore_eq hT ha]
  · rw [hslot ha]
    rfl
  · simp only [imageState]
    exact lists_imageFreed hT
  · exact ⟨rfl, fun hr => by simp at hr, fun hr => by simp at hr, List.Pairwise.nil⟩

end Image

end OsHomework.Malloc3
