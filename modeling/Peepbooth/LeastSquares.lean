import Mathlib.Algebra.BigOperators.Group.List.Basic
import Mathlib.Algebra.BigOperators.Ring.List
import Mathlib.Algebra.Order.BigOperators.Group.List
import Mathlib.Algebra.Order.Field.Basic
import Mathlib.Tactic.FieldSimp
import Mathlib.Tactic.Ring
import Mathlib.Tactic.Positivity

/-! The sums of a least-squares line through a list of points. -/

namespace LeastSquares

variable {α K : Type*} [Field K]

def mean (f : α → K) (l : List α) : K := (l.map f).sum / l.length

def covariance (x y : α → K) (l : List α) : K :=
  (l.map fun p => (x p - mean x l) * (y p - mean y l)).sum

/-- The covariance times the number of points, free of divisions. -/
def spread (x y : α → K) (l : List α) : K :=
  l.length * (l.map fun p => x p * y p).sum - (l.map x).sum * (l.map y).sum

theorem sum_map_sub_mul_sub (x y : α → K) (a b : K) (l : List α) :
    (l.map fun p => (x p - a) * (y p - b)).sum =
      (l.map fun p => x p * y p).sum - b * (l.map x).sum - a * (l.map y).sum +
        l.length * (a * b) := by
  induction l with
  | nil => simp
  | cons p l ih =>
    simp only [List.map_cons, List.sum_cons, List.length_cons, ih]
    push_cast
    ring

theorem spread_cons (x y : α → K) (p : α) (l : List α) :
    spread x y (p :: l) = spread x y l + (l.map fun q => (x q - x p) * (y q - y p)).sum := by
  rw [sum_map_sub_mul_sub]
  simp only [spread, List.map_cons, List.sum_cons, List.length_cons]
  push_cast
  ring

theorem spread_eq (x y : α → K) {l : List α} (h : (l.length : K) ≠ 0) :
    spread x y l = l.length * covariance x y l := by
  rw [covariance, sum_map_sub_mul_sub, spread, mean, mean]
  field_simp
  ring

variable [LinearOrder K] [IsStrictOrderedRing K]

theorem spread_nonneg {x y : α → K} {l : List α}
    (h : l.Pairwise fun p q => x p ≤ x q ∧ y p ≤ y q) : 0 ≤ spread x y l := by
  induction l with
  | nil => simp [spread]
  | cons p l ih =>
    rw [List.pairwise_cons] at h
    rw [spread_cons]
    refine add_nonneg (ih h.2) (List.sum_nonneg fun z hz => ?_)
    obtain ⟨q, hq, rfl⟩ := List.mem_map.mp hz
    exact mul_nonneg (sub_nonneg.mpr (h.1 q hq).1) (sub_nonneg.mpr (h.1 q hq).2)

theorem covariance_pos {x y : α → K} {l : List α}
    (h : l.Pairwise fun p q => x p < x q ∧ y p < y q) (hl : 2 ≤ l.length) :
    0 < covariance x y l := by
  have hn : (0 : K) < l.length := Nat.cast_pos.mpr (by omega)
  refine (mul_pos_iff_of_pos_left hn).mp ?_
  rw [← spread_eq x y hn.ne']
  match l, hl with
  | p :: q :: l, _ =>
    rw [List.pairwise_cons] at h
    rw [spread_cons]
    refine add_pos_of_nonneg_of_pos (spread_nonneg (h.2.imp fun h => ⟨h.1.le, h.2.le⟩)) ?_
    rw [List.map_cons, List.sum_cons]
    have hq := h.1 q List.mem_cons_self
    refine add_pos_of_pos_of_nonneg (mul_pos (sub_pos.mpr hq.1) (sub_pos.mpr hq.2))
      (List.sum_nonneg fun z hz => ?_)
    obtain ⟨r, hr, rfl⟩ := List.mem_map.mp hz
    have hr := h.1 r (List.mem_cons_of_mem _ hr)
    exact (mul_pos (sub_pos.mpr hr.1) (sub_pos.mpr hr.2)).le

/-- Of two series over the same places, the one with the steeper steps spreads more. -/
theorem spread_mono {x y z : α → K} {l : List α}
    (h : l.Pairwise fun p q => x p ≤ x q ∧ z q - z p ≤ y q - y p) :
    spread x z l ≤ spread x y l := by
  induction l with
  | nil => simp [spread]
  | cons p l ih =>
    rw [List.pairwise_cons] at h
    rw [spread_cons, spread_cons]
    refine add_le_add (ih h.2) (List.sum_le_sum fun q hq => ?_)
    have hx := sub_nonneg.mpr (h.1 q hq).1
    exact mul_le_mul_of_nonneg_left (h.1 q hq).2 hx

omit [LinearOrder K] [IsStrictOrderedRing K] in
theorem spread_mul (x y : α → K) (c : K) (l : List α) :
    spread x (fun p => c * y p) l = c * spread x y l := by
  have hprod : (l.map fun p => x p * (c * y p)).sum = c * (l.map fun p => x p * y p).sum := by
    rw [← List.sum_map_mul_left]
    exact congrArg List.sum (List.map_congr_left fun p _ => mul_left_comm (x p) c (y p))
  rw [spread, hprod, List.sum_map_mul_left, spread]
  ring

/-- The slope of the line lies between the slowest and the fastest of the steps. -/
theorem slope_between {x y : α → K} {a b : K} {l : List α} (hl : 2 ≤ l.length)
    (h : l.Pairwise fun p q => x p < x q ∧ a * (x q - x p) ≤ y q - y p ∧
      y q - y p ≤ b * (x q - x p)) :
    a ≤ covariance x y l / covariance x x l ∧ covariance x y l / covariance x x l ≤ b := by
  have hn : (0 : K) < l.length := Nat.cast_pos.mpr (by omega)
  have hpos : 0 < covariance x x l := covariance_pos (h.imp fun h => ⟨h.1, h.1⟩) hl
  have hlow : a * spread x x l ≤ spread x y l := by
    rw [← spread_mul]
    exact spread_mono (h.imp fun h => ⟨h.1.le, (mul_sub a _ _).symm.trans_le h.2.1⟩)
  have hhigh : spread x y l ≤ b * spread x x l := by
    rw [← spread_mul]
    exact spread_mono (h.imp fun h => ⟨h.1.le, h.2.2.trans_eq (mul_sub b _ _)⟩)
  rw [spread_eq x y hn.ne', spread_eq x x hn.ne', mul_left_comm] at hlow hhigh
  rw [le_div_iff₀ hpos, div_le_iff₀ hpos]
  exact ⟨le_of_mul_le_mul_left hlow hn, le_of_mul_le_mul_left hhigh hn⟩

end LeastSquares
