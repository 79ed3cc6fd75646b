import Peepbooth.TrendGrowth

/-! The rate of growth that a trend reports, against the rates from one sample to the next. -/

namespace Peepbooth

open LongestSuffix SeriesSpan

namespace TrendPoint

def seconds (p q : TrendPoint) : ℚ := ((q.time : ℚ) - p.time) / 1000000000

def growth (p q : TrendPoint) : ℚ := (q.rss : ℚ) - p.rss

/-- The growth from one sample to the next, in bytes per second. -/
def rate (p q : TrendPoint) : ℚ := growth p q / seconds p q

/-- From `p` to the later `q` the rate is between `a` and `b`. -/
def Within (a b : ℚ) (p q : TrendPoint) : Prop :=
  p.time < q.time ∧ a * seconds p q ≤ growth p q ∧ growth p q ≤ b * seconds p q

variable {a b : ℚ} {p q r : TrendPoint}

theorem seconds_pos (h : p.time < q.time) : 0 < seconds p q := by
  have hlt : (p.time : ℚ) < q.time := Nat.cast_lt.mpr h
  exact div_pos (sub_pos.mpr hlt) (by norm_num)

theorem within_iff (h : p.time < q.time) : Within a b p q ↔ a ≤ rate p q ∧ rate p q ≤ b := by
  rw [rate, le_div_iff₀ (seconds_pos h), div_le_iff₀ (seconds_pos h)]
  exact and_iff_right h

theorem Within.trans (h : Within a b p q) (h' : Within a b q r) : Within a b p r := by
  have hs : seconds p r = seconds p q + seconds q r := by
    simp only [seconds]
    ring
  have hg : growth p r = growth p q + growth q r := by
    simp only [growth]
    ring
  refine ⟨h.1.trans h'.1, ?_, ?_⟩
  · rw [hs, hg, mul_add]
    exact add_le_add h.2.1 h'.2.1
  · rw [hs, hg, mul_add]
    exact add_le_add h.2.2 h'.2.2

end TrendPoint

namespace MemoryTrend

open TrendPoint

variable {a b : ℚ} {points adds : List TrendPoint}

theorem slope_within (origin : UInt64) (hl : 2 ≤ points.length)
    (h : points.Pairwise (Within a b)) : a ≤ slope origin points ∧ slope origin points ≤ b := by
  let x (p : TrendPoint) : ℚ := ((p.timestampNs.toNat : ℚ) - origin.toNat) / 1000000000
  let y (p : TrendPoint) : ℚ := p.rssBytes.toNat
  have hx (p q : TrendPoint) : x q - x p = seconds p q := by
    simp only [x, seconds, TrendPoint.time]
    ring
  have hpairs : points.Pairwise fun p q => x p < x q ∧ a * (x q - x p) ≤ y q - y p ∧
      y q - y p ≤ b * (x q - x p) := by
    refine h.imp fun {p q} hpq => ⟨sub_pos.mp ?_, ?_, ?_⟩
    · rw [hx]
      exact seconds_pos hpq.1
    · rw [hx]
      exact hpq.2.1
    · rw [hx]
      exact hpq.2.2
  have hpos : 0 < LeastSquares.covariance x x points :=
    LeastSquares.covariance_pos (hpairs.imp fun h => ⟨h.1, h.1⟩) hl
  have hs : slope origin points = LeastSquares.covariance x y points /
      LeastSquares.covariance x x points := if_pos hpos
  rw [hs]
  exact LeastSquares.slope_between hl hpairs

theorem two_le_kept (capacity : Nat) (windowNs : UInt64) (h : 2 ≤ (accepted adds).length) :
    2 ≤ ((new capacity windowNs).addAll adds).points.length := by
  have hlen : ((accepted adds).drop ((accepted adds).length - 2)).length = 2 := by
    rw [List.length_drop]
    omega
  have hlongest := (addAll_isLongest capacity windowNs adds).longest _
    (List.drop_suffix ((accepted adds).length - 2) _)
    ⟨hlen.trans_le (le_max_right capacity 2), .inl hlen.le⟩
  rwa [hlen] at hlongest

theorem bytesPerSecond_eq {t : MemoryTrend} (hi : Increasing TrendPoint.time t.points)
    (hl : 2 ≤ t.points.length) :
    ∃ origin, t.summary.bytesPerSecond = slope origin t.points := by
  have hdur : t.summary.durationNs ≠ 0 := fun h => by
    have hpos := span_pos hi hl
    rw [← toNat_durationNs hi, h] at hpos
    exact absurd hpos (by decide)
  match ht : t.points, hl with
  | front :: second :: rest, _ =>
    refine ⟨front.timestampNs, ?_⟩
    simp only [summary, ht] at hdur ⊢
    split at hdur
    · next h0 => exact absurd h0 hdur
    · next h0 => rw [if_neg h0]

/-- After any calls, whatever has been dropped, the reported rate is one that lies between the
slowest and the fastest growth from one accepted sample to the next. -/
theorem bytesPerSecond_within (capacity : Nat) (windowNs : UInt64)
    (hl : 2 ≤ (accepted adds).length)
    (h : (accepted adds).IsChain fun p q => a ≤ rate p q ∧ rate p q ≤ b) :
    let summary := ((new capacity windowNs).addAll adds).summary
    a ≤ summary.bytesPerSecond ∧ summary.bytesPerSecond ≤ b := by
  have hi := increasing_accepted adds
  have hpairs : (accepted adds).Pairwise (Within a b) := by
    have htrans : IsTrans TrendPoint (Within a b) := ⟨fun _ _ _ => Within.trans⟩
    exact List.isChain_iff_pairwise.mp
      ((hi.isChain_and h).imp fun p q hpq => (within_iff hpq.1).mpr hpq.2)
  obtain ⟨origin, hrate⟩ := bytesPerSecond_eq (increasing_addAll capacity windowNs adds)
    (two_le_kept capacity windowNs hl)
  dsimp only
  rw [hrate]
  exact slope_within origin (two_le_kept capacity windowNs hl)
    (hpairs.sublist (addAll_isLongest capacity windowNs adds).suffix.sublist)

/-- Four samples a second apart; the window has room for the last three. -/
def uneven : List TrendPoint :=
  [⟨1000000000, 100⟩, ⟨2000000000, 300⟩, ⟨3000000000, 250⟩, ⟨4000000000, 350⟩]

theorem bytesPerSecond_within_uneven :
    -50 ≤ ((new 3 3000000000).addAll uneven).summary.bytesPerSecond ∧
      ((new 3 3000000000).addAll uneven).summary.bytesPerSecond ≤ 200 :=
  bytesPerSecond_within 3 3000000000 (by decide) (by decide +kernel)

end MemoryTrend

end Peepbooth
