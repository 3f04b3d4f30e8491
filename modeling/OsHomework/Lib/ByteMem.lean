import Mathlib.Data.Nat.Basic
import Mathlib.Logic.Function.Basic
import Mathlib.Tactic.Ring
import Mathlib.Tactic.NormNum

/-!
# Byte memory

A memory gives every address a byte. Words are stored little-endian in `n` consecutive bytes, as
the compiled code does, so that a store through one pointer is seen by a load through another
exactly when the ranges overlap.

* `load`, `store`: `load_store_same` (as `v % 256 ^ n`) and `load_congr`;
* `store_out`, `fill_out`, `copy_out`: a write leaves the bytes outside its range alone;
* `fill`, `copy`: `memset` and `memmove` (the source is read before anything is written);
* `subSize`: the subtraction of `size_t` values and of addresses.
-/

set_option autoImplicit false

namespace OsHomework

/-- A memory: a byte at every address. -/
abbrev Mem := ℕ → UInt8

namespace Mem

/-- The `n`-byte little-endian word at `a`. -/
def load (m : Mem) (a : ℕ) : ℕ → ℕ
  | 0 => 0
  | n + 1 => (m a).toNat + 256 * load m (a + 1) n

/-- Store the low `n` bytes of `v` at `a`. -/
def store (m : Mem) (a n v : ℕ) : Mem := fun x =>
  if a ≤ x ∧ x < a + n then UInt8.ofNat (v / 256 ^ (x - a)) else m x

/-- `memset`: `n` bytes at `a` become `c`. -/
def fill (m : Mem) (a n : ℕ) (c : UInt8) : Mem := fun x =>
  if a ≤ x ∧ x < a + n then c else m x

/-- `memmove`: `n` bytes at `src` are copied to `dst`. -/
def copy (m : Mem) (dst src n : ℕ) : Mem := fun x =>
  if dst ≤ x ∧ x < dst + n then m (src + (x - dst)) else m x

theorem load_congr {m m' : Mem} {a n : ℕ} (h : ∀ x, a ≤ x → x < a + n → m x = m' x) :
    load m a n = load m' a n := by
  induction n generalizing a with
  | zero => rfl
  | succ n ih =>
    simp only [load]
    rw [h a le_rfl (by omega), ih fun x h₁ h₂ => h x (by omega) (by omega)]

theorem load_lt (m : Mem) (a n : ℕ) : load m a n < 256 ^ n := by
  induction n generalizing a with
  | zero => simp [load]
  | succ n ih =>
    have h₁ := ih (a + 1)
    have h₂ := (m a).toNat_lt
    simp only [load, pow_succ]
    omega

theorem store_out {m : Mem} {a n v x : ℕ} (h : x < a ∨ a + n ≤ x) : store m a n v x = m x := by
  rw [store, if_neg (by omega)]

theorem fill_out {m : Mem} {a n x : ℕ} {c : UInt8} (h : x < a ∨ a + n ≤ x) :
    fill m a n c x = m x := by
  rw [fill, if_neg (by omega)]

theorem copy_out {m : Mem} {dst src n x : ℕ} (h : x < dst ∨ dst + n ≤ x) :
    copy m dst src n x = m x := by
  rw [copy, if_neg (by omega)]

theorem copy_in {m : Mem} {dst src n i : ℕ} (h : i < n) :
    copy m dst src n (dst + i) = m (src + i) := by
  rw [copy, if_pos (by omega), Nat.add_sub_cancel_left]

theorem copy_self (m : Mem) (a n : ℕ) : copy m a a n = m := by
  funext x
  rw [copy]
  split_ifs with h
  · rw [Nat.add_sub_cancel' h.1]
  · rfl

/-- **A load reads back what was stored**, cut to the width of the word. -/
theorem load_store_same (m : Mem) (a n v : ℕ) : load (store m a n v) a n = v % 256 ^ n := by
  induction n generalizing m a v with
  | zero => simp [load, Nat.mod_one]
  | succ n ih =>
    have htail : load (store m a (n + 1) v) (a + 1) n = load (store m (a + 1) n (v / 256)) (a + 1) n := by
      apply load_congr
      intro x h₁ h₂
      rw [store, store, if_pos (by omega), if_pos (by omega), Nat.div_div_eq_div_mul, ← pow_succ',
        show x - (a + 1) + 1 = x - a by omega]
    have hhead : (store m a (n + 1) v a).toNat = v % 256 := by
      rw [store, if_pos (by omega), Nat.sub_self, pow_zero, Nat.div_one, UInt8.toNat_ofNat']
    rw [load, htail, ih, hhead, pow_succ', Nat.mod_mul]

theorem load_store_disjoint {m : Mem} {a n v b k : ℕ} (h : b + k ≤ a ∨ a + n ≤ b) :
    load (store m a n v) b k = load m b k :=
  load_congr fun _ _ _ => store_out (by omega)

end Mem

/-- `size_t` subtraction. -/
def subSize (a b : ℕ) : ℕ := (a + 2 ^ 64 - b) % 2 ^ 64

theorem subSize_lt (a b : ℕ) : subSize a b < 2 ^ 64 := Nat.mod_lt _ (by norm_num)

theorem subSize_of_le {a b : ℕ} (h : b ≤ a) (ha : a < 2 ^ 64) : subSize a b = a - b := by
  unfold subSize; omega

end OsHomework
