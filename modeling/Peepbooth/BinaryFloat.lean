import Peepbooth.FixedPoint
import Mathlib.Data.Int.Log
import Mathlib.Algebra.Order.Ring.Pow

/-! Rationals rounded to a binary floating point number with a number of fraction bits, a tie
to the even neighbour. The exponent has no bounds. -/

namespace BinaryFloat

open FixedPoint

variable {bits : Nat} {x y : ℚ}

/-- The distance of the numbers around `x`. -/
def ulp (bits : Nat) (x : ℚ) : ℚ := 2 ^ (Int.log 2 |x| - bits)

def round (bits : Nat) (x : ℚ) : ℚ := nearestEven (x / ulp bits x) * ulp bits x

theorem ulp_pos (bits : Nat) (x : ℚ) : 0 < ulp bits x := zpow_pos two_pos _

@[simp] theorem round_zero : round bits 0 = 0 := by
  rw [round, zero_div, ← Int.cast_zero, nearestEven_intCast, Int.cast_zero, zero_mul]

theorem two_pow_mul_ulp (bits : Nat) (x : ℚ) : 2 ^ bits * ulp bits x = 2 ^ Int.log 2 |x| := by
  rw [ulp, zpow_sub₀ two_ne_zero, zpow_natCast, mul_div_cancel₀ _ (by positivity)]

theorem abs_round_sub_le_ulp (bits : Nat) (x : ℚ) : |round bits x - x| ≤ ulp bits x / 2 := by
  have hpos := ulp_pos bits x
  have hsub : round bits x - x = (nearestEven (x / ulp bits x) - x / ulp bits x) * ulp bits x := by
    rw [round, sub_mul, div_mul_cancel₀ x hpos.ne']
  have hle := mul_le_mul_of_nonneg_right (abs_nearestEven_sub_le (x / ulp bits x)) hpos.le
  rw [hsub, abs_mul, abs_of_pos hpos]
  linarith

theorem abs_round_sub_le (bits : Nat) (x : ℚ) : |round bits x - x| ≤ |x| / 2 ^ (bits + 1) := by
  by_cases hx : x = 0
  · simp [hx]
  have hlow : (2 : ℚ) ^ Int.log 2 |x| ≤ |x| := by
    exact_mod_cast Int.zpow_log_le_self one_lt_two (abs_pos.mpr hx)
  rw [← two_pow_mul_ulp bits] at hlow
  refine (abs_round_sub_le_ulp bits x).trans ?_
  rw [div_le_div_iff₀ two_pos (by positivity), pow_succ]
  linarith

theorem round_mem_binade (hx : 0 < x) :
    2 ^ Int.log 2 x ≤ round bits x ∧ round bits x ≤ 2 ^ (Int.log 2 x + 1) := by
  have hpos := ulp_pos bits x
  have hbinade := two_pow_mul_ulp bits x
  rw [abs_of_pos hx] at hbinade
  have hlow : ((2 ^ bits : ℤ) : ℚ) ≤ x / ulp bits x := by
    rw [le_div_iff₀ hpos]
    push_cast
    rw [hbinade]
    exact_mod_cast Int.zpow_log_le_self one_lt_two hx
  have hhigh : x / ulp bits x ≤ ((2 ^ (bits + 1) : ℤ) : ℚ) := by
    rw [div_le_iff₀ hpos, pow_succ]
    push_cast
    rw [mul_right_comm, hbinade, ← zpow_add_one₀ two_ne_zero]
    exact_mod_cast (Int.lt_zpow_succ_log_self one_lt_two x).le
  have hl := nearestEven_mono hlow
  have hh := nearestEven_mono hhigh
  rw [nearestEven_intCast] at hl hh
  constructor
  · rw [← hbinade, round]
    exact mul_le_mul_of_nonneg_right (by exact_mod_cast hl) hpos.le
  · rw [zpow_add_one₀ two_ne_zero, ← hbinade, mul_right_comm, ← pow_succ, round]
    exact mul_le_mul_of_nonneg_right (by exact_mod_cast hh) hpos.le

theorem round_nonneg (hx : 0 ≤ x) : 0 ≤ round bits x := by
  rcases hx.eq_or_lt with rfl | hx
  · rw [round_zero]
  · exact (zpow_pos two_pos _).le.trans (round_mem_binade hx).1

theorem round_mono (hx : 0 ≤ x) (h : x ≤ y) : round bits x ≤ round bits y := by
  rcases hx.eq_or_lt with rfl | hx
  · rw [round_zero]
    exact round_nonneg h
  have hy := hx.trans_le h
  rcases (Int.log_mono_right hx h : Int.log 2 x ≤ Int.log 2 y).eq_or_lt with he | hlt
  · have hulp : ulp bits x = ulp bits y := by
      rw [ulp, ulp, abs_of_pos hx, abs_of_pos hy, he]
    have hpos := ulp_pos bits y
    rw [round, round, hulp]
    refine mul_le_mul_of_nonneg_right ?_ hpos.le
    exact_mod_cast nearestEven_mono (div_le_div_of_nonneg_right h hpos.le)
  · calc round bits x ≤ 2 ^ (Int.log 2 x + 1) := (round_mem_binade hx).2
      _ ≤ 2 ^ Int.log 2 y := zpow_le_zpow_right₀ one_le_two hlt
      _ ≤ round bits y := (round_mem_binade hy).1

theorem round_of_multiple {m : ℤ} (h : x = m * ulp bits x) : round bits x = x := by
  have hdiv : x / ulp bits x = m := by rw [div_eq_iff (ulp_pos bits x).ne', ← h]
  rw [round, hdiv, nearestEven_intCast, ← h]

/-- A natural number of at most `bits + 1` binary digits is left as it is. -/
theorem round_natCast {n : Nat} (h : n < 2 ^ (bits + 1)) : round bits (n : ℚ) = n := by
  rcases Nat.eq_zero_or_pos n with rfl | hn
  · rw [Nat.cast_zero, round_zero]
  have hlog : Nat.log 2 n ≤ bits := Nat.lt_succ_iff.mp (Nat.log_lt_of_lt_pow hn.ne' h)
  have hulp : ulp bits (n : ℚ) = ((2 : ℚ) ^ (bits - Nat.log 2 n))⁻¹ := by
    rw [ulp, Nat.abs_cast, Int.log_natCast, ← zpow_natCast, ← zpow_neg, Nat.cast_sub hlog, neg_sub]
  refine round_of_multiple (m := n * 2 ^ (bits - Nat.log 2 n)) ?_
  rw [hulp]
  push_cast
  rw [mul_inv_cancel_right₀ (by positivity)]

/-- What one rounding leaves of a number at least. -/
def keep (bits : Nat) : ℚ := 1 - 1 / 2 ^ (bits + 1)

theorem keep_pos (bits : Nat) : 0 < keep bits := by
  have hpow : (1 : ℚ) < 2 ^ (bits + 1) := one_lt_pow₀ one_lt_two (Nat.succ_ne_zero bits)
  rw [keep, sub_pos]
  exact (div_lt_one (by positivity)).mpr hpow

/-- `x` is `y` but for `n` roundings on the way. -/
structure Rounded (bits n : Nat) (x y : ℚ) : Prop where
  nonneg : 0 ≤ x
  lower : y * keep bits ^ n ≤ x
  upper : x * keep bits ^ n ≤ y

namespace Rounded

variable {m n : Nat} {x' y' : ℚ}

theorem refl (bits : Nat) (hx : 0 ≤ x) : Rounded bits 0 x x :=
  ⟨hx, by rw [pow_zero, mul_one], by rw [pow_zero, mul_one]⟩

theorem nonneg_right (h : Rounded bits n x y) : 0 ≤ y :=
  (mul_nonneg h.nonneg (pow_pos (keep_pos bits) n).le).trans h.upper

theorem round (h : Rounded bits n x y) : Rounded bits (n + 1) (round bits x) y := by
  have hk := keep_pos bits
  have herror := abs_le.mp (abs_round_sub_le bits x)
  rw [abs_of_nonneg h.nonneg] at herror
  have hlow : x * keep bits ≤ BinaryFloat.round bits x := by
    rw [keep, mul_sub, mul_one, mul_one_div]
    linarith [herror.1]
  have hhigh : BinaryFloat.round bits x * keep bits ≤ x := by
    have hle : BinaryFloat.round bits x ≤ x * (1 + 1 / 2 ^ (bits + 1)) := by
      rw [mul_add, mul_one, mul_one_div]
      linarith [herror.2]
    have hone : (1 + 1 / 2 ^ (bits + 1)) * keep bits ≤ 1 := by
      rw [keep, ← sq_sub_sq, one_pow]
      exact sub_le_self 1 (sq_nonneg _)
    calc BinaryFloat.round bits x * keep bits
        ≤ x * (1 + 1 / 2 ^ (bits + 1)) * keep bits := mul_le_mul_of_nonneg_right hle hk.le
      _ = x * ((1 + 1 / 2 ^ (bits + 1)) * keep bits) := mul_assoc ..
      _ ≤ x := mul_le_of_le_one_right h.nonneg hone
  refine ⟨round_nonneg h.nonneg, ?_, ?_⟩
  · rw [pow_succ, ← mul_assoc]
    exact (mul_le_mul_of_nonneg_right h.lower hk.le).trans hlow
  · rw [pow_succ', ← mul_assoc]
    exact (mul_le_mul_of_nonneg_right hhigh (pow_pos hk n).le).trans h.upper

theorem mul (h : Rounded bits n x y) (h' : Rounded bits m x' y') :
    Rounded bits (n + m) (x * x') (y * y') := by
  have hk := keep_pos bits
  refine ⟨mul_nonneg h.nonneg h'.nonneg, ?_, ?_⟩
  · rw [pow_add, mul_mul_mul_comm]
    exact mul_le_mul h.lower h'.lower (mul_nonneg h'.nonneg_right (pow_pos hk m).le) h.nonneg
  · rw [pow_add, mul_mul_mul_comm]
    exact mul_le_mul h.upper h'.upper (mul_nonneg h'.nonneg (pow_pos hk m).le) h.nonneg_right

theorem inv (h : Rounded bits n x y) (hy : 0 < y) : Rounded bits n x⁻¹ y⁻¹ := by
  have hk := pow_pos (keep_pos bits) n
  have hx : 0 < x := (mul_pos hy hk).trans_le h.lower
  refine ⟨inv_nonneg.mpr h.nonneg, ?_, ?_⟩
  · rw [inv_mul_le_iff₀ hy, ← div_eq_mul_inv, le_div_iff₀ hx, mul_comm]
    exact h.upper
  · rw [inv_mul_le_iff₀ hx, ← div_eq_mul_inv, le_div_iff₀ hy, mul_comm]
    exact h.lower

theorem div (h : Rounded bits n x y) (h' : Rounded bits m x' y') (hy : 0 < y') :
    Rounded bits (n + m) (x / x') (y / y') := by
  rw [div_eq_mul_inv, div_eq_mul_inv]
  exact h.mul (h'.inv hy)

/-- The error of all the roundings, relative to the number. -/
theorem abs_sub_le (h : Rounded bits n x y) (hn : n ≤ 2 ^ bits) :
    |x - y| ≤ y * (n / 2 ^ bits) := by
  set e : ℚ := n / 2 ^ bits with he
  have he0 : 0 ≤ e := by positivity
  have he1 : e ≤ 1 := (div_le_one (by positivity)).mpr (by exact_mod_cast hn)
  have hpow : 1 - e / 2 ≤ keep bits ^ n := by
    have hunit : (1 : ℚ) / 2 ^ (bits + 1) ≤ 1 := by
      rw [div_le_one (by positivity)]
      exact one_le_pow₀ one_le_two
    have hb := one_add_mul_le_pow (a := -(1 / 2 ^ (bits + 1) : ℚ)) (by linarith) n
    rw [he, keep, sub_eq_add_neg (1 : ℚ) (1 / 2 ^ (bits + 1))]
    refine le_trans (le_of_eq ?_) hb
    rw [pow_succ]
    ring
  have hy := h.nonneg_right
  have hlow : y * (1 - e / 2) ≤ x := (mul_le_mul_of_nonneg_left hpow hy).trans h.lower
  have hhigh : x ≤ y * (1 + e) := by
    have hone : 1 ≤ keep bits ^ n * (1 + e) := by
      have hfirst : 1 ≤ (1 - e / 2) * (1 + e) := by
        have hprod : (1 - e / 2) * (1 + e) = 1 + e * (1 - e) / 2 := by ring
        rw [hprod]
        have := mul_nonneg he0 (sub_nonneg.mpr he1)
        linarith
      exact hfirst.trans (mul_le_mul_of_nonneg_right hpow (by linarith))
    calc x ≤ x * (keep bits ^ n * (1 + e)) := le_mul_of_one_le_right h.nonneg hone
      _ = x * keep bits ^ n * (1 + e) := (mul_assoc ..).symm
      _ ≤ y * (1 + e) := mul_le_mul_of_nonneg_right h.upper (by linarith)
  have hye : 0 ≤ y * e := mul_nonneg hy he0
  rw [abs_le]
  constructor <;> linarith

end Rounded

end BinaryFloat
