import Peepbooth.TrendWindow
import Peepbooth.LeastSquares

/-! When a resident set that only ever grows counts as sustained growth: what is
left of the conditions is the time that the kept points reach over. -/

namespace Peepbooth

open LongestSuffix SeriesSpan

namespace MemoryTrend

variable {points : List TrendPoint}

theorem countSteps_eq {r : UInt64 → UInt64 → Bool}
    (h : points.IsChain fun p q => r p.rssBytes q.rssBytes = true) :
    countSteps r points = points.length - 1 := by
  induction points with
  | nil => rfl
  | cons p points ih =>
    cases points with
    | nil => rfl
    | cons q points =>
      rw [List.isChain_cons_cons] at h
      rw [countSteps, if_pos h.1, ih h.2]
      simp only [List.length_cons]
      omega

theorem slope_pos (origin : UInt64) (ht : Increasing TrendPoint.time points)
    (hr : Increasing TrendPoint.rss points) (hl : 2 ≤ points.length) :
    0 < slope origin points := by
  let x (p : TrendPoint) : ℚ := ((p.timestampNs.toNat : ℚ) - origin.toNat) / 1000000000
  let y (p : TrendPoint) : ℚ := p.rssBytes.toNat
  have hx : ∀ p q : TrendPoint, p.time < q.time → x p < x q := fun p q h => by
    have hh : (p.timestampNs.toNat : ℚ) < q.timestampNs.toNat := Nat.cast_lt.mpr h
    simp only [x]
    linarith
  have hy : ∀ p q : TrendPoint, p.rss < q.rss → y p < y q := fun p q h => Nat.cast_lt.mpr h
  have hnum : 0 < LeastSquares.covariance x y points :=
    LeastSquares.covariance_pos (ht.imp₂ (fun p q h h' => ⟨hx p q h, hy p q h'⟩) hr) hl
  have hden : 0 < LeastSquares.covariance x x points :=
    LeastSquares.covariance_pos (ht.imp fun h => ⟨hx _ _ h, hx _ _ h⟩) hl
  have hs : slope origin points = LeastSquares.covariance x y points /
      LeastSquares.covariance x x points := if_pos hden
  rw [hs]
  exact div_pos hnum hden

theorem toInt64_pos {n : UInt64} (h : 0 < n.toNat) (hn : n.toNat < 2 ^ 63) : 0 < n.toInt64 := by
  have ht : n.toInt64.toInt = n.toNat :=
    BitVec.toInt_eq_toNat_of_lt (x := n.toBitVec) (by rw [UInt64.toNat_toBitVec]; omega)
  rw [Int64.lt_iff_toInt_lt, ht, Int64.toInt_zero]
  exact Int.natCast_pos.mpr h

theorem midpoint_between {front second : TrendPoint} {rest : List TrendPoint}
    (hr : Increasing TrendPoint.rss (front :: second :: rest)) (hl : 2 ≤ rest.length) :
    let points := front :: second :: rest
    let midpoint := (points[points.length / 2]?.getD front).rssBytes
    let back := (second :: rest).getLast (List.cons_ne_nil _ _)
    midpoint > front.rssBytes ∧ back.rssBytes > midpoint := by
  have hget := List.pairwise_iff_getElem.mp hr
  have hmid : (front :: second :: rest).length / 2 < (front :: second :: rest).length := by
    simp only [List.length_cons]
    omega
  have hlast : (second :: rest).getLast (List.cons_ne_nil _ _) =
      (front :: second :: rest)[(front :: second :: rest).length - 1] := by
    rw [← List.getLast_cons (a := front) (List.cons_ne_nil second rest), List.getLast_eq_getElem]
  dsimp only
  rw [List.getElem?_eq_getElem hmid, Option.getD_some, hlast]
  refine ⟨UInt64.lt_iff_toNat_lt.mpr (hget 0 _ (by simp) hmid ?_),
    UInt64.lt_iff_toNat_lt.mpr (hget _ _ hmid (by simp) ?_)⟩ <;>
    simp only [List.length_cons] <;> omega

theorem rssDelta_pos {front back : TrendPoint} (h : front.rss < back.rss)
    (hmax : back.rss < 2 ^ 63) :
    (if back.rssBytes ≥ front.rssBytes then (back.rssBytes - front.rssBytes).toInt64
      else -(front.rssBytes - back.rssBytes).toInt64) > 0 := by
  have hle : front.rssBytes ≤ back.rssBytes := UInt64.le_iff_toNat_le.mpr (Nat.le_of_lt h)
  have hsub : (back.rssBytes - front.rssBytes).toNat = back.rss - front.rss :=
    UInt64.toNat_sub_of_le _ _ hle
  rw [if_pos hle]
  exact toInt64_pos (by omega) (by omega)

theorem sustainedGrowth_iff {t : MemoryTrend} (ht : Increasing TrendPoint.time t.points)
    (hr : Increasing TrendPoint.rss t.points) (hmax : ∀ p ∈ t.points, p.rss < 2 ^ 63)
    (hl : 4 ≤ t.points.length) :
    t.summary.sustainedGrowth = true ↔
      (min t.windowNs minimumObservationNs).toNat ≤ span TrendPoint.time t.points := by
  have hdur := toNat_durationNs ht
  have hpos := span_pos ht (by omega)
  have hnd : countSteps (fun a b => b ≥ a) t.points = t.points.length - 1 :=
    countSteps_eq (hr.isChain.imp fun p q h =>
      decide_eq_true (UInt64.le_iff_toNat_le.mpr (Nat.le_of_lt h)))
  have hin : countSteps (fun a b => b > a) t.points = t.points.length - 1 :=
    countSteps_eq (hr.isChain.imp fun p q h => decide_eq_true (UInt64.lt_iff_toNat_lt.mpr h))
  obtain ⟨capacity, windowNs, points⟩ := t
  match points, hl with
  | front :: second :: rest, hl =>
    have hslope := slope_pos front.timestampNs ht hr (by simp)
    have hback := List.getLast_mem (List.cons_ne_nil second rest)
    have hdelta := rssDelta_pos ((List.pairwise_cons.mp hr).1 _ hback)
      (hmax _ (List.mem_cons_of_mem _ hback))
    obtain ⟨hmid, hmid'⟩ := midpoint_between hr (by simpa using hl)
    have hsub := toNat_sub_time ht.le_getLast
    rw [List.getLast_cons (List.cons_ne_nil second rest)] at hsub
    generalize hb : (second :: rest).getLast (List.cons_ne_nil second rest) = back at *
    have hspan : span TrendPoint.time (front :: second :: rest) = back.time - front.time := by
      rw [span, List.getLast_cons (List.cons_ne_nil second rest), hb]
    have hne : back.timestampNs - front.timestampNs ≠ 0 := fun h0 => by
      rw [h0, ← hspan] at hsub
      exact absurd hsub hpos.ne
    have hle : back.timestampNs - front.timestampNs ≥ min windowNs minimumObservationNs ↔
        (min windowNs minimumObservationNs).toNat ≤
          span TrendPoint.time (front :: second :: rest) := by
      rw [ge_iff_le, UInt64.le_iff_toNat_le, hsub, hspan]
    simp only [List.length_cons] at hnd hin hl hmid hmid' ⊢
    simp only [summary, hb, if_neg hne, List.length_cons, hnd, hin, ← hle]
    simp only [Bool.and_eq_true, decide_eq_true_eq]
    refine ⟨fun h => h.1.1.1.1.1.1.1.2,
      fun h => ⟨⟨⟨⟨⟨⟨⟨⟨hl, h⟩, hdelta⟩, hslope⟩, ?_⟩, ?_⟩, ?_⟩, hmid⟩, hmid'⟩⟩ <;> omega

end MemoryTrend

end Peepbooth
