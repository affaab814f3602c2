import Mathlib.Algebra.Order.Floor.Ring
import Mathlib.Data.Int.Log
import Mathlib.Data.Rat.Floor
import Mathlib.Tactic.Linarith
import Mathlib.Tactic.NormNum
import Mathlib.Tactic.Positivity
import Mathlib.Tactic.FieldSimp
import Mathlib.Tactic.Ring

/-!
# Rounding to double precision

A `double` is taken as the rational number it stands for, and an operation on doubles as the exact
operation followed by `nearest`: to the nearest number with 53 significant bits, and to the even
one of two that are equally near. The exponent has no bounds, so this is about numbers that are
neither too large nor too small.

What is used of it are the error (`abs_nearest_sub_le`) and that a number next to a representable
one is rounded to it (`nearest_eq_of_near`). From these follows the one fact about products that
matters here: if a decimal fraction is written as a literal that happens to be close enough, then
the product with a small natural number has the ceiling it should have (`ceil_nearest_mul`).
-/

namespace Framework
namespace Binary64

/-- The nearest integer, the even one of two. -/
def nearestEven (x : ℚ) : ℤ :=
  if x - ⌊x⌋ < 1 / 2 then ⌊x⌋
  else if 1 / 2 < x - ⌊x⌋ then ⌊x⌋ + 1
  else if ⌊x⌋ % 2 = 0 then ⌊x⌋
  else ⌊x⌋ + 1

/-- The distance of the doubles around `x`. -/
def ulp (x : ℚ) : ℚ := 2 ^ (Int.log 2 |x| - 52)

/-- The double nearest to `x`. -/
def nearest (x : ℚ) : ℚ := nearestEven (x / ulp x) * ulp x

/-! ### Integers -/

theorem abs_nearestEven_sub_le (x : ℚ) : |nearestEven x - x| ≤ 1 / 2 := by
  have hle := Int.floor_le x
  have hlt := Int.lt_floor_add_one x
  unfold nearestEven
  split
  · next hlow => rw [abs_le]; constructor <;> linarith
  next hlow =>
  split
  · next hhigh => push_cast; rw [abs_le]; constructor <;> linarith
  next hhigh =>
  split
  · rw [abs_le]; constructor <;> linarith
  · push_cast; rw [abs_le]; constructor <;> linarith

/-- An integer less than half away is the nearest one. -/
theorem nearestEven_eq {x : ℚ} {n : ℤ} (h : |x - n| < 1 / 2) : nearestEven x = n := by
  have hnear := abs_nearestEven_sub_le x
  have hclose : |((nearestEven x - n : ℤ) : ℚ)| < 1 := by
    have htriangle := abs_add_le (nearestEven x - x) (x - n)
    have hsum : ((nearestEven x - n : ℤ) : ℚ) = nearestEven x - x + (x - n) := by
      push_cast
      ring
    rw [hsum]
    linarith
  have hint : |nearestEven x - n| < 1 := by exact_mod_cast hclose
  exact sub_eq_zero.mp (Int.abs_lt_one_iff.mp hint)

/-! ### Doubles -/

theorem ulp_pos (x : ℚ) : 0 < ulp x := zpow_pos (by norm_num) _

/-- `x` lies in a binade of `2 ^ 52` steps. -/
theorem ulp_bounds {x : ℚ} (hx : x ≠ 0) : 2 ^ 52 * ulp x ≤ |x| ∧ |x| < 2 ^ 53 * ulp x := by
  have hpos : 0 < |x| := abs_pos.mpr hx
  have hle : (2 : ℚ) ^ Int.log 2 |x| ≤ |x| := by
    exact_mod_cast Int.zpow_log_le_self (b := 2) (by norm_num) hpos
  have hlt : |x| < (2 : ℚ) ^ (Int.log 2 |x| + 1) := by
    exact_mod_cast Int.lt_zpow_succ_log_self (b := 2) (by norm_num) |x|
  have hstep : ∀ k : ℤ, (2 : ℚ) ^ k * ulp x = 2 ^ (Int.log 2 |x| + (k - 52)) := by
    intro k
    rw [ulp, ← zpow_add₀ (by norm_num)]
    congr 1
    ring
  have hlow := hstep 52
  have hhigh := hstep 53
  norm_num at hlow hhigh
  refine ⟨?_, ?_⟩
  · norm_num
    rw [hlow]
    exact hle
  · norm_num
    rw [hhigh]
    exact hlt

theorem nearest_sub (x : ℚ) : nearest x - x = (nearestEven (x / ulp x) - x / ulp x) * ulp x := by
  rw [nearest, sub_mul, div_mul_cancel₀ _ (ulp_pos x).ne']

/-- **The error of rounding.** -/
theorem abs_nearest_sub_le (x : ℚ) : |nearest x - x| ≤ |x| / 2 ^ 53 := by
  by_cases hx : x = 0
  · have hzero : nearestEven 0 = 0 := nearestEven_eq (by norm_num)
    rw [hx, nearest, zero_div, hzero]
    norm_num
  · have hulp := ulp_pos x
    have hlow := (ulp_bounds hx).1
    have hnear := mul_le_mul_of_nonneg_right (abs_nearestEven_sub_le (x / ulp x)) hulp.le
    rw [nearest_sub, abs_mul, abs_of_pos hulp]
    linarith

/-- A number next to a double is rounded to it. -/
theorem nearest_eq_of_near {x : ℚ} {m : ℤ} (h : |x - m * ulp x| < ulp x / 2) :
    nearest x = m * ulp x := by
  have hulp := ulp_pos x
  have hsteps : |x / ulp x - m| < 1 / 2 := by
    have hsplit : x / ulp x - m = (x - m * ulp x) / ulp x := by
      rw [sub_div, mul_div_cancel_right₀ _ hulp.ne']
    rw [hsplit, abs_div, abs_of_pos hulp, div_lt_iff₀ hulp]
    linarith
  rw [nearest, nearestEven_eq hsteps]

/-- Integers are doubles, among numbers that are not too large. -/
theorem exists_mul_ulp {x : ℚ} (hx : |x| < 2 ^ 53) (m : ℤ) : ∃ k : ℤ, (m : ℚ) = k * ulp x := by
  have hlog : Int.log 2 |x| ≤ 52 := by
    by_cases hzero : x = 0
    · rw [hzero, abs_zero, Int.log_zero_right]
      norm_num
    · have hlt := (Int.lt_zpow_iff_log_lt (b := 2) (by norm_num) (abs_pos.mpr hzero)
        (x := 53)).mp (by exact_mod_cast hx)
      omega
  obtain ⟨j, hj⟩ := Int.eq_ofNat_of_zero_le (sub_nonneg.mpr hlog)
  refine ⟨m * 2 ^ j, ?_⟩
  have hexp : Int.log 2 |x| - 52 = -(j : ℤ) := by
    rw [← hj]
    ring
  rw [ulp, hexp, zpow_neg, zpow_natCast]
  push_cast
  field_simp

theorem nearest_eq_int {x : ℚ} {m : ℤ} (hx : |x| < 2 ^ 53) (h : |x - m| < ulp x / 2) :
    nearest x = m := by
  obtain ⟨k, hk⟩ := exists_mul_ulp hx m
  rw [hk] at h ⊢
  exact nearest_eq_of_near h

/-- A natural number that is not too large is converted exactly. -/
theorem nearest_natCast {n : ℕ} (hn : n < 2 ^ 53) : nearest n = n := by
  have habs : |(n : ℚ)| < 2 ^ 53 := by
    rw [abs_of_nonneg (Nat.cast_nonneg n)]
    exact_mod_cast hn
  have hsame : |(n : ℚ) - (n : ℤ)| < ulp n / 2 := by
    rw [Int.cast_natCast, sub_self, abs_zero]
    exact half_pos (ulp_pos _)
  exact_mod_cast nearest_eq_int habs hsame

/-! ### Literals -/

theorem ulp_eq {x : ℚ} {e : ℤ} (hlow : 2 ^ e ≤ x) (hhigh : x < 2 ^ (e + 1)) :
    ulp x = 2 ^ (e - 52) := by
  have hpos : 0 < x := lt_of_lt_of_le (zpow_pos (by norm_num) e) hlow
  have hle : e ≤ Int.log 2 x :=
    (Int.zpow_le_iff_le_log (b := 2) (by norm_num) hpos).mp (by exact_mod_cast hlow)
  have hlt : Int.log 2 x < e + 1 :=
    (Int.lt_zpow_iff_log_lt (b := 2) (by norm_num) hpos).mp (by exact_mod_cast hhigh)
  have hlog : Int.log 2 x = e := le_antisymm (Int.lt_add_one_iff.mp hlt) hle
  rw [ulp, abs_of_pos hpos, hlog]

/-- What a literal stands for: `m` is its significand. -/
theorem nearest_literal {x : ℚ} (e m : ℤ) (hlow : 2 ^ e ≤ x) (hhigh : x < 2 ^ (e + 1))
    (hnear : |x - m * 2 ^ (e - 52)| < 2 ^ (e - 52) / 2) : nearest x = m * 2 ^ (e - 52) := by
  rw [← ulp_eq hlow hhigh] at hnear ⊢
  exact nearest_eq_of_near hnear

/-! ### Products with decimal fractions -/

section Close

variable {y z : ℚ} (hz : 0 < z) (hclose : |y - z| ≤ z / 2 ^ 55)
include hz hclose

theorem pos_of_close : 0 < y := by
  have hlow := (abs_le.mp hclose).1
  linarith

/-- A number that close to an integer is rounded to it. -/
theorem nearest_of_close_int (hlimit : z ≤ 2 ^ 40) {m : ℤ} (hm : z = m) : nearest y = m := by
  have hy := pos_of_close hz hclose
  have hyabs : |y| = y := abs_of_pos hy
  obtain ⟨hlow, hhigh⟩ := abs_le.mp hclose
  refine nearest_eq_int (by rw [hyabs]; linarith) ?_
  rw [← hm]
  have hulp := (ulp_bounds hy.ne').2
  rw [hyabs] at hulp
  refine hclose.trans_lt ?_
  linarith

theorem abs_nearest_sub_le_of_close : |nearest y - z| ≤ z / 2 ^ 52 := by
  have herror := abs_nearest_sub_le y
  rw [abs_of_pos (pos_of_close hz hclose)] at herror
  have hhigh := (abs_le.mp hclose).2
  have htriangle := abs_add_le (nearest y - y) (y - z)
  have hsum : nearest y - z = nearest y - y + (y - z) := by ring
  rw [hsum]
  linarith

end Close

/-- A fraction that is not an integer is `1 / b` away from the next ones, so a number close to it
has the same ceiling. -/
theorem ceil_eq_of_close {x z : ℚ} {b c : ℕ} (hb : 0 < b) (hz : z * b = c) (hc : c ≤ 2 ^ 40)
    (hnot : ¬∃ m : ℤ, z = m) (hclose : |x - z| ≤ z / 2 ^ 52) : ⌈x⌉ = ⌈z⌉ := by
  have hbq : (0 : ℚ) < b := by exact_mod_cast hb
  have hcq : (c : ℚ) ≤ 2 ^ 40 := by exact_mod_cast hc
  have hceil := Int.le_ceil z
  have hfloor := Int.ceil_lt_add_one z
  have hne : z ≠ ⌈z⌉ := fun heq => hnot ⟨_, heq⟩
  have habove : (c : ℚ) + 1 ≤ ⌈z⌉ * b := by
    have hlt : (c : ℚ) < ⌈z⌉ * b := by
      rw [← hz]
      exact mul_lt_mul_of_pos_right (lt_of_le_of_ne hceil hne) hbq
    exact_mod_cast hlt
  have hbelow : (⌈z⌉ - 1) * b + 1 ≤ (c : ℚ) := by
    have hlt : (⌈z⌉ - 1) * b < (c : ℚ) := by
      rw [← hz]
      exact mul_lt_mul_of_pos_right (by linarith) hbq
    exact_mod_cast hlt
  obtain ⟨hdown, hup⟩ := abs_le.mp hclose
  rw [Int.ceil_eq_iff]
  constructor
  · refine lt_of_mul_lt_mul_right ?_ hbq.le
    have hmul : (z - z / 2 ^ 52) * b ≤ x * b := mul_le_mul_of_nonneg_right (by linarith) hbq.le
    linarith
  · refine le_of_mul_le_mul_right ?_ hbq
    have hmul : x * b ≤ (z + z / 2 ^ 52) * b := mul_le_mul_of_nonneg_right (by linarith) hbq.le
    linarith

/-- **A literal that is close to a fraction multiplies to the right ceiling.** If the product of
the fraction with `n` is an integer, the product of the doubles is that integer; otherwise the
error is smaller than the distance to the next one. -/
theorem ceil_nearest_mul {p q : ℚ} {a b n : ℕ} (hq : q = a / b) (ha : 0 < a) (hb : 0 < b)
    (hn : 0 < n) (hsmall : a * n ≤ 2 ^ 40) (hclose : |p - q| ≤ q / 2 ^ 55) :
    ⌈nearest (p * n)⌉ = ⌈q * n⌉ := by
  have hbq : (0 : ℚ) < b := by exact_mod_cast hb
  have hnq : (0 : ℚ) < n := by exact_mod_cast hn
  have haq : (0 : ℚ) < a := by exact_mod_cast ha
  have hz : q * n * b = (a * n : ℕ) := by
    rw [hq]
    push_cast
    field_simp
  have hpos : 0 < q * n := by
    rw [hq]
    positivity
  have hmul : |p * n - q * n| ≤ q * n / 2 ^ 55 := by
    rw [← sub_mul, abs_mul, abs_of_pos hnq]
    have hscaled := mul_le_mul_of_nonneg_right hclose hnq.le
    linarith
  by_cases hint : ∃ m : ℤ, q * n = m
  · obtain ⟨m, hm⟩ := hint
    have hbone : (1 : ℚ) ≤ b := by exact_mod_cast hb
    have hanq : ((a * n : ℕ) : ℚ) ≤ 2 ^ 40 := by exact_mod_cast hsmall
    have hlimit : q * n ≤ 2 ^ 40 := by nlinarith
    rw [nearest_of_close_int hpos hmul hlimit hm, hm]
  · exact ceil_eq_of_close hb hz hsmall hint (abs_nearest_sub_le_of_close hpos hmul)

end Binary64
end Framework
