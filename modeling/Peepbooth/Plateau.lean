import Peepbooth.TrendWindow
import Peepbooth.TrailingRun

/-! A resident set that has come to rest. Once the points at rest are half of those
kept, the growth before them no longer counts as sustained. -/

namespace Peepbooth

open TrailingRun

namespace MemoryTrend

variable {t : MemoryTrend} {c : UInt64} {adds : List TrendPoint}

/-- The last points kept hold the constant, at least half of all. -/
def Plateau (c : UInt64) (t : MemoryTrend) : Prop := Half (·.rssBytes = c) t.points

instance decidablePlateau (c : UInt64) (t : MemoryTrend) : Decidable (t.Plateau c) :=
  inferInstanceAs (Decidable (Half _ _))

theorem evict_suffix (capacity : Nat) (windowNs timestampNs : UInt64) (points : List TrendPoint) :
    evict capacity windowNs timestampNs points <:+ points := by
  induction points with
  | nil => exact List.suffix_refl _
  | cons front rest ih =>
    rw [evict]
    split
    · exact ih.trans (List.suffix_cons front rest)
    · exact List.suffix_refl _

/-- A call is ignored, or it adds a point and drops some from the front. -/
theorem points_add (t : MemoryTrend) (timestampNs rssBytes : UInt64) :
    (t.add timestampNs rssBytes).points = t.points ∨
      (t.add timestampNs rssBytes).points <:+ t.points ++ [⟨timestampNs, rssBytes⟩] := by
  rw [add]
  split
  · exact .inl rfl
  · exact .inr (evict_suffix _ _ _ _)

namespace Plateau

theorem add (h : t.Plateau c) (timestampNs : UInt64) : (t.add timestampNs c).Plateau c := by
  rw [Plateau] at h ⊢
  rcases points_add t timestampNs c with hp | hp
  · rw [hp]
    exact h
  · exact (h.concat (by simp)).of_suffix hp

theorem addAll (h : t.Plateau c) (hc : ∀ p ∈ adds, p.rssBytes = c) :
    (t.addAll adds).Plateau c := by
  induction adds using List.reverseRecOn with
  | nil => exact h
  | append_singleton adds p ih =>
    have hp := hc p (by simp)
    have hh := ih fun q hq => hc q (List.mem_append_left _ hq)
    rw [addAll_concat, hp]
    exact hh.add p.timestampNs

theorem not_sustainedGrowth (h : t.Plateau c) : t.summary.sustainedGrowth = false := by
  rw [summary]
  split
  · next front second rest hp =>
    rw [Plateau, hp] at h
    have hmid : (front :: second :: rest).length / 2 < (front :: second :: rest).length := by
      simp only [List.length_cons]
      omega
    have hrun : 1 ≤ run (·.rssBytes = c) (front :: second :: rest) := by
      rw [Half] at h
      simp only [List.length_cons] at h
      omega
    have hm : ((front :: second :: rest)[(front :: second :: rest).length / 2]?.getD front).rssBytes
        = c := by
      rw [List.getElem?_eq_getElem hmid, Option.getD_some]
      simpa using h.middle (List.getElem?_eq_getElem hmid)
    have hb : ((second :: rest).getLast (List.cons_ne_nil _ _)).rssBytes = c := by
      have hlast : (front :: second :: rest)[(front :: second :: rest).length - 1]? =
          some ((second :: rest).getLast (List.cons_ne_nil _ _)) := by
        rw [← List.getLast?_eq_getElem?, List.getLast?_cons_cons, List.getLast?_eq_some_getLast]
      simpa using of_getElem? (p := fun q => decide (q.rssBytes = c)) (by omega) hlast
    dsimp only
    split
    · rfl
    · rw [hp, hm, hb]
      simp
  · rfl

end Plateau

/-- From the first time that half of the points kept are at rest, nothing that stays
there counts as sustained growth. -/
theorem plateau_clears (capacity : Nat) (windowNs c : UInt64) (history pre post : List TrendPoint)
    (hc : ∀ p ∈ pre ++ post, p.rssBytes = c)
    (h : ((new capacity windowNs).addAll (history ++ pre)).Plateau c) :
    ((new capacity windowNs).addAll (history ++ pre ++ post)).summary.sustainedGrowth = false := by
  have hall : ((new capacity windowNs).addAll (history ++ pre ++ post)) =
      ((new capacity windowNs).addAll (history ++ pre)).addAll post := List.foldl_append
  rw [hall]
  exact (h.addAll fun p hp => hc p (List.mem_append_right _ hp)).not_sustainedGrowth

theorem plateau_clears_after_growth :
    let history : List TrendPoint := [⟨1, 100⟩, ⟨2000000000, 200⟩, ⟨4000000000, 300⟩]
    let flat : List TrendPoint := [⟨5000000000, 400⟩, ⟨6000000000, 400⟩, ⟨7000000000, 400⟩]
    ((new 5).addAll (history ++ flat ++ [⟨7000000000, 400⟩])).summary.sustainedGrowth = false :=
  plateau_clears 5 _ 400 _ _ _ (by decide) (by decide)

end MemoryTrend

end Peepbooth
