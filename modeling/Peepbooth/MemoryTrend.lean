import Mathlib.Algebra.Order.Field.Rat
import Mathlib.Algebra.BigOperators.Group.List.Basic

/-! The trend of the resident set over a sliding window of samples. Floating
point values are read as exact rationals. -/

namespace Peepbooth

structure TrendPoint where
  timestampNs : UInt64
  rssBytes : UInt64
  deriving DecidableEq, Repr

structure MemoryTrendSummary where
  durationNs : UInt64 := 0
  rssDeltaBytes : Int64 := 0
  bytesPerSecond : ℚ := 0
  sustainedGrowth : Bool := false

structure MemoryTrend where
  capacity : Nat
  windowNs : UInt64
  points : List TrendPoint := []

namespace MemoryTrend

def new (capacity : Nat := 120) (windowNs : UInt64 := 30 * 60 * 1000000000) : MemoryTrend :=
  { capacity := max capacity 2, windowNs := windowNs }

/-- The loop of `add` that drops points from the front. -/
def evict (capacity : Nat) (windowNs timestampNs : UInt64) : List TrendPoint → List TrendPoint
  | [] => []
  | front :: rest =>
    if rest.length + 1 > capacity ∨
        (rest.length + 1 > 2 ∧ timestampNs - front.timestampNs > windowNs) then
      evict capacity windowNs timestampNs rest
    else front :: rest

def add (t : MemoryTrend) (timestampNs rssBytes : UInt64) : MemoryTrend :=
  if t.points.getLast?.any (fun back => timestampNs ≤ back.timestampNs) then t
  else
    { t with
      points := evict t.capacity t.windowNs timestampNs (t.points ++ [⟨timestampNs, rssBytes⟩]) }

/-- The increases of the resident set that satisfy `r`, between neighbours. -/
def countSteps (r : UInt64 → UInt64 → Bool) : List TrendPoint → Nat
  | p :: q :: rest => (if r p.rssBytes q.rssBytes then 1 else 0) + countSteps r (q :: rest)
  | _ => 0

/-- The least-squares slope over the points, in bytes per second. -/
def slope (origin : UInt64) (points : List TrendPoint) : ℚ :=
  let count : ℚ := points.length
  let x (p : TrendPoint) : ℚ := ((p.timestampNs.toNat : ℚ) - origin.toNat) / 1000000000
  let y (p : TrendPoint) : ℚ := p.rssBytes.toNat
  let meanX := (points.map x).sum / count
  let meanY := (points.map y).sum / count
  let numerator := (points.map fun p => (x p - meanX) * (y p - meanY)).sum
  let denominator := (points.map fun p => (x p - meanX) * (x p - meanX)).sum
  if denominator > 0 then numerator / denominator else 0

def minimumObservationNs : UInt64 := 5000000000

def summary (t : MemoryTrend) : MemoryTrendSummary :=
  match t.points with
  | front :: second :: rest =>
    let back := (second :: rest).getLast (List.cons_ne_nil _ _)
    let durationNs := back.timestampNs - front.timestampNs
    let rssDeltaBytes :=
      if back.rssBytes ≥ front.rssBytes then (back.rssBytes - front.rssBytes).toInt64
      else -(front.rssBytes - back.rssBytes).toInt64
    if durationNs = 0 then { durationNs, rssDeltaBytes }
    else
      let nondecreasing := countSteps (fun a b => b ≥ a) t.points
      let increasing := countSteps (fun a b => b > a) t.points
      let intervals := t.points.length - 1
      let midpoint := (t.points[t.points.length / 2]?.getD front).rssBytes
      let bytesPerSecond := slope front.timestampNs t.points
      { durationNs, rssDeltaBytes, bytesPerSecond
        sustainedGrowth :=
          t.points.length ≥ 4 && durationNs ≥ min t.windowNs minimumObservationNs &&
          rssDeltaBytes > 0 && bytesPerSecond > 0 &&
          nondecreasing * 3 ≥ intervals * 2 && increasing ≥ 2 && increasing * 5 ≥ intervals &&
          midpoint > front.rssBytes && back.rssBytes > midpoint }
  | _ => {}

end MemoryTrend

end Peepbooth
