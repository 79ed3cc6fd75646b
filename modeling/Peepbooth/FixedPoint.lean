import Mathlib.Data.Rat.Floor
import Mathlib.Tactic.Linarith
import Mathlib.Tactic.NormNum
import Mathlib.Tactic.Positivity

/-! Rationals rounded to a number of decimal places, a tie to the even neighbour. -/

namespace FixedPoint

variable {x y : ℚ} {p : Nat}

def nearestEven (x : ℚ) : ℤ :=
  if x - ⌊x⌋ < 1 / 2 then ⌊x⌋ else if 1 / 2 < x - ⌊x⌋ then ⌊x⌋ + 1 else ⌊x⌋ + ⌊x⌋ % 2

theorem floor_le_nearestEven (x : ℚ) : ⌊x⌋ ≤ nearestEven x := by
  unfold nearestEven
  split_ifs <;> omega

theorem nearestEven_le (x : ℚ) : nearestEven x ≤ ⌊x⌋ + 1 := by
  unfold nearestEven
  split_ifs <;> omega

theorem nearestEven_mono (h : x ≤ y) : nearestEven x ≤ nearestEven y := by
  rcases (Int.floor_le_floor h).lt_or_eq with hlt | heq
  · have hx := nearestEven_le x
    have hy := floor_le_nearestEven y
    omega
  · have hsub : x - ⌊x⌋ ≤ y - ⌊x⌋ := sub_le_sub_right h _
    unfold nearestEven
    rw [← heq]
    split_ifs <;> first | omega | linarith

theorem nearestEven_intCast (n : ℤ) : nearestEven n = n := by
  have hlow := floor_le_nearestEven (n : ℚ)
  rw [Int.floor_intCast] at hlow
  unfold nearestEven
  rw [Int.floor_intCast, sub_self, if_pos (by norm_num)]

theorem abs_nearestEven_sub_le (x : ℚ) : |(nearestEven x : ℚ) - x| ≤ 1 / 2 := by
  have hlow := Int.floor_le x
  have hhigh := Int.lt_floor_add_one x
  rw [abs_le]
  unfold nearestEven
  split_ifs with hb ha
  · constructor <;> linarith
  · push_cast
    constructor <;> linarith
  · have hmid : x - ⌊x⌋ = 1 / 2 := le_antisymm (not_lt.mp ha) (not_lt.mp hb)
    rcases Int.emod_two_eq_zero_or_one ⌊x⌋ with he | he <;> rw [he] <;> push_cast <;>
      constructor <;> linarith

theorem nearestEven_eq_of_near {n : ℤ} (h : |x - n| < 1 / 2) : nearestEven x = n := by
  have hx := abs_le.mp (abs_nearestEven_sub_le x)
  obtain ⟨hl, hu⟩ := abs_lt.mp h
  have hlow : ((n - 1 : ℤ) : ℚ) < nearestEven x := by push_cast; linarith
  have hhigh : (nearestEven x : ℚ) < ((n + 1 : ℤ) : ℚ) := by push_cast; linarith
  have hlow' := Int.cast_lt.mp hlow
  have hhigh' := Int.cast_lt.mp hhigh
  omega

/-- The number of units of the last of `p` places. -/
def units (p : Nat) (x : ℚ) : Nat := (nearestEven (|x| * 10 ^ p)).toNat

theorem units_mono (hx : 0 ≤ x) (h : x ≤ y) : units p x ≤ units p y := by
  unfold units
  rw [abs_of_nonneg hx, abs_of_nonneg (hx.trans h)]
  exact Int.toNat_le_toNat (nearestEven_mono (mul_le_mul_of_nonneg_right h (by positivity)))

theorem units_of_near (hx : 0 ≤ x) {n : Nat} (h : |x * 10 ^ p - n| < 1 / 2) : units p x = n := by
  rw [units, abs_of_nonneg hx, nearestEven_eq_of_near (n := n) h, Int.toNat_natCast]

theorem units_of_eq (hx : 0 ≤ x) {n : Nat} (h : x * 10 ^ p = n) : units p x = n :=
  units_of_near hx (by rw [h, sub_self, abs_zero]; norm_num)

/-- What is shown is off by half a unit of the last place at most. -/
theorem abs_units_sub_le (hx : 0 ≤ x) : |(units p x : ℚ) / 10 ^ p - x| ≤ 1 / 2 / 10 ^ p := by
  have hpos : (0 : ℚ) < 10 ^ p := by positivity
  have hnonneg : 0 ≤ nearestEven (x * 10 ^ p) :=
    (Int.floor_nonneg.mpr (by positivity)).trans (floor_le_nearestEven _)
  have hcast : (units p x : ℚ) = nearestEven (x * 10 ^ p) := by
    rw [units, abs_of_nonneg hx, ← Int.cast_natCast, Int.toNat_of_nonneg hnonneg]
  have hsub : (units p x : ℚ) / 10 ^ p - x = (nearestEven (x * 10 ^ p) - x * 10 ^ p) / 10 ^ p := by
    rw [hcast, sub_div, mul_div_cancel_right₀ x hpos.ne']
  rw [hsub, abs_div, abs_of_pos hpos]
  exact div_le_div_of_nonneg_right (abs_nearestEven_sub_le _) hpos.le

end FixedPoint
