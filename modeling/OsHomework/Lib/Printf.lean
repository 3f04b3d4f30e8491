import Mathlib.Algebra.Order.Floor.Ring
import Mathlib.Data.Rat.Floor
import Mathlib.Tactic.Linarith
import Mathlib.Tactic.NormNum

/-!
# Numbers as text

The conversions `%d`, `%lu` and `%.6f` of `printf`, on the exact value of their argument.

* `decimal`, and its length for a 32-bit integer;
* `roundHalfEven`, `fixed6`, and **`length_double_le`**: no double takes more than 318 characters;
* `fixed`: the same with another number of digits after the point.
-/

set_option autoImplicit false

namespace OsHomework

/-- `%d` and `%lu`. -/
def decimal (x : ℤ) : List Char :=
  if x < 0 then '-' :: Nat.toDigits 10 x.natAbs else Nat.toDigits 10 x.natAbs

/-- The nearest natural number to `q ≥ 0`, the even one of two. -/
def roundHalfEven (q : ℚ) : ℕ :=
  let n := ⌊q⌋.toNat
  if q - n < 1 / 2 then n else if 1 / 2 < q - n then n + 1 else if n % 2 = 0 then n else n + 1

/-- `%.6f`. -/
def fixed6 (q : ℚ) : List Char :=
  let n := roundHalfEven (|q| * 10 ^ 6)
  (if q < 0 then ['-'] else []) ++ Nat.toDigits 10 (n / 10 ^ 6) ++
    '.' :: (Nat.toDigits 10 (n % 10 ^ 6)).leftpad 6 '0'

theorem length_toDigits_le {n k : ℕ} (hk : 0 < k) (h : n < 10 ^ k) : (Nat.toDigits 10 n).length ≤ k :=
  (Nat.length_toDigits_le_iff (by decide) hk).mpr h

theorem length_decimal_le {x : ℤ} {k : ℕ} (hk : 0 < k) (h : x.natAbs < 10 ^ k) : (decimal x).length ≤ k + 1 := by
  have := length_toDigits_le hk h
  unfold decimal
  split_ifs
  · simpa using this
  · omega

theorem roundHalfEven_le {q : ℚ} (hq : 0 ≤ q) : (roundHalfEven q : ℚ) ≤ q + 1 := by
  have hfloor : ((⌊q⌋.toNat : ℕ) : ℚ) ≤ q := by
    have hcast : ((⌊q⌋.toNat : ℕ) : ℚ) = (⌊q⌋ : ℤ) := by exact_mod_cast Int.toNat_of_nonneg (Int.floor_nonneg.mpr hq)
    rw [hcast]
    exact Int.floor_le q
  unfold roundHalfEven
  dsimp only
  split_ifs
  · linarith
  · push_cast
    linarith
  · linarith
  · push_cast
    linarith

/-- `%.2f`, and every other number of digits. -/
def fixed (digits : ℕ) (q : ℚ) : List Char :=
  let n := roundHalfEven (|q| * 10 ^ digits)
  (if q < 0 then ['-'] else []) ++ Nat.toDigits 10 (n / 10 ^ digits) ++
    '.' :: (Nat.toDigits 10 (n % 10 ^ digits)).leftpad digits '0'

theorem length_fixed_le {digits : ℕ} (hd : 0 < digits) {q : ℚ} {k : ℕ} (hq : |q| < 10 ^ k) :
    (fixed digits q).length ≤ k + 3 + digits := by
  have hround := roundHalfEven_le (q := |q| * 10 ^ digits) (by positivity)
  unfold fixed
  dsimp only
  set n := roundHalfEven (|q| * 10 ^ digits)
  have hlt : (n : ℚ) < 10 ^ k * 10 ^ digits + 1 :=
    calc (n : ℚ) ≤ |q| * 10 ^ digits + 1 := hround
      _ < 10 ^ k * 10 ^ digits + 1 := add_lt_add_left (mul_lt_mul_of_pos_right hq (by positivity)) 1
  have hn : n / 10 ^ digits < 10 ^ (k + 1) := by
    rw [Nat.div_lt_iff_lt_mul (by positivity)]
    calc n ≤ 10 ^ k * 10 ^ digits := Nat.lt_succ_iff.mp (by exact_mod_cast hlt)
      _ < 10 ^ (k + 1) * 10 ^ digits :=
        Nat.mul_lt_mul_of_pos_right (Nat.pow_lt_pow_right (by norm_num) k.lt_succ_self) (by positivity)
  have hint := length_toDigits_le k.succ_pos hn
  have hfrac := length_toDigits_le (n := n % 10 ^ digits) hd (Nat.mod_lt n (by positivity))
  have hsign : (if q < 0 then ['-'] else []).length ≤ 1 := by split_ifs <;> simp
  rw [List.length_append, List.length_append, List.length_cons, List.leftpad, List.length_append,
    List.length_replicate]
  omega

theorem length_fixed6_le {q : ℚ} {k : ℕ} (hq : |q| < 10 ^ k) : (fixed6 q).length ≤ k + 9 :=
  length_fixed_le (by norm_num) hq

theorem two_pow_lt : (2 : ℚ) ^ 1024 < 10 ^ 309 := by
  have h256 : (2 : ℚ) ^ 256 < 116 * 10 ^ 75 := by norm_num
  calc (2 : ℚ) ^ 1024 = (2 ^ 256) ^ 4 := by rw [← pow_mul]
    _ < (116 * 10 ^ 75) ^ 4 := pow_lt_pow_left₀ h256 (by positivity) (by norm_num)
    _ = 116 ^ 4 * 10 ^ 300 := by rw [mul_pow, ← pow_mul]
    _ < 10 ^ 9 * 10 ^ 300 := mul_lt_mul_of_pos_right (by norm_num) (by positivity)
    _ = 10 ^ 309 := by rw [← pow_add]

/-- **A double.** Its value is less than `2 ^ 1024`. -/
theorem length_double_le {q : ℚ} (hq : |q| < 2 ^ 1024) : (fixed6 q).length ≤ 318 :=
  length_fixed6_le (hq.trans two_pow_lt)

end OsHomework
