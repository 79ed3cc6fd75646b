import Peepbooth.MemoryTrend
import Peepbooth.LongestSuffix
import Peepbooth.SeriesSpan

/-! What a trend keeps of the points it has been given: of those whose time goes
up, the longest suffix that its capacity and its window allow. -/

namespace Peepbooth

open LongestSuffix SeriesSpan

namespace TrendPoint

def time (p : TrendPoint) : Nat := p.timestampNs.toNat

def rss (p : TrendPoint) : Nat := p.rssBytes.toNat

end TrendPoint

namespace MemoryTrend

variable {capacity : Nat} {windowNs : UInt64} {points adds : List TrendPoint} {p : TrendPoint}

def addAll (t : MemoryTrend) (adds : List TrendPoint) : MemoryTrend :=
  adds.foldl (fun t p => t.add p.timestampNs p.rssBytes) t

def accept (points : List TrendPoint) (p : TrendPoint) : List TrendPoint :=
  if points.getLast?.all (·.time < p.time) then points ++ [p] else points

/-- The first point, then each that is later than the one accepted before. -/
def accepted (adds : List TrendPoint) : List TrendPoint := adds.foldl accept []

/-- The limits of a trend, its arithmetic not bounded to 64 bits. -/
def Fits (capacity : Nat) (windowNs : UInt64) (points : List TrendPoint) : Prop :=
  points.length ≤ capacity ∧
    (points.length ≤ 2 ∨ span TrendPoint.time points ≤ windowNs.toNat)

instance (capacity : Nat) (windowNs : UInt64) : DecidablePred (Fits capacity windowNs) :=
  fun _ => inferInstanceAs (Decidable (_ ∧ _))

theorem fits_nil : Fits capacity windowNs [] := ⟨Nat.zero_le _, .inl (Nat.zero_le _)⟩

theorem fits_singleton (h : 2 ≤ capacity) : Fits capacity windowNs [p] :=
  ⟨Nat.le_of_succ_le h, .inl (Nat.le_succ 1)⟩

theorem Fits.init (hi : Increasing TrendPoint.time (points ++ [p]))
    (h : Fits capacity windowNs (points ++ [p])) : Fits capacity windowNs points := by
  obtain ⟨hc, hw⟩ := h
  rw [List.length_append, List.length_singleton] at hc hw
  exact ⟨by omega, hw.imp (by omega) (span_le_concat hi).trans⟩

theorem toNat_sub_time {q : TrendPoint} (h : q.time ≤ p.time) :
    (p.timestampNs - q.timestampNs).toNat = p.time - q.time :=
  UInt64.toNat_sub_of_le _ _ (UInt64.le_iff_toNat_le.mpr h)

theorem evict_eq_find (windowNs : UInt64) (hc : 2 ≤ capacity)
    (hi : Increasing TrendPoint.time (points ++ [p])) :
    evict capacity windowNs p.timestampNs (points ++ [p]) =
      find (Fits capacity windowNs) (points ++ [p]) := by
  induction points with
  | nil =>
    rw [List.nil_append, evict, find, if_pos (fits_singleton hc), if_neg]
    simp only [List.length_nil]
    omega
  | cons q points ih =>
    have hqp : q.time < p.time :=
      (List.pairwise_cons.mp hi).1 p (List.mem_append_right _ (List.mem_singleton_self p))
    have hspan : span TrendPoint.time (q :: (points ++ [p])) = p.time - q.time :=
      span_concat TrendPoint.time q points p
    have hiff : ((points ++ [p]).length + 1 > capacity ∨ (points ++ [p]).length + 1 > 2 ∧
        p.timestampNs - q.timestampNs > windowNs) ↔
          ¬Fits capacity windowNs (q :: (points ++ [p])) := by
      have hgt : p.timestampNs - q.timestampNs > windowNs ↔ windowNs.toNat < p.time - q.time := by
        rw [gt_iff_lt, UInt64.lt_iff_toNat_lt, toNat_sub_time hqp.le]
      rw [Fits, hspan, hgt, List.length_cons]
      omega
    rw [List.cons_append, evict, find, ih (List.pairwise_cons.mp hi).2]
    by_cases h : Fits capacity windowNs (q :: (points ++ [p]))
    · rw [if_pos h, if_neg (fun hh => hiff.mp hh h)]
    · rw [if_neg h, if_pos (hiff.mpr h)]

theorem accepted_concat (adds : List TrendPoint) (p : TrendPoint) :
    accepted (adds ++ [p]) = accept (accepted adds) p := by
  simp [accepted]

theorem addAll_concat (t : MemoryTrend) (adds : List TrendPoint) (p : TrendPoint) :
    t.addAll (adds ++ [p]) = (t.addAll adds).add p.timestampNs p.rssBytes := by
  simp [addAll]

theorem increasing_accept (h : Increasing TrendPoint.time points) (p : TrendPoint) :
    Increasing TrendPoint.time (accept points p) := by
  rw [accept]
  split
  · next hp =>
    refine List.pairwise_append.mpr ⟨h, List.pairwise_singleton _ _, fun q hq r hr => ?_⟩
    rw [List.mem_singleton.mp hr]
    obtain ⟨back, hb⟩ := Option.isSome_iff_exists.mp
      (List.getLast?_isSome.mpr (List.ne_nil_of_mem hq))
    rw [hb] at hp
    exact (h.le_of_getLast? hb hq).trans_lt (of_decide_eq_true hp)
  · exact h

theorem increasing_accepted (adds : List TrendPoint) :
    Increasing TrendPoint.time (accepted adds) := by
  induction adds using List.reverseRecOn with
  | nil => exact List.Pairwise.nil
  | append_singleton adds p ih =>
    rw [accepted_concat]
    exact increasing_accept ih p

theorem getLast?_of_isLongest (hc : 2 ≤ capacity) {l : List TrendPoint}
    (h : IsLongest (Fits capacity windowNs) points l) : points.getLast? = l.getLast? := by
  obtain ⟨pre, rfl⟩ := h.suffix
  cases points using List.reverseRecOn with
  | append_singleton points p => simp [← List.append_assoc]
  | nil =>
    cases pre using List.reverseRecOn with
    | nil => rfl
    | append_singleton pre p =>
      exact absurd (h.longest [p] (by simp) (fits_singleton hc)) (by simp)

theorem add_isLongest {t : MemoryTrend} {l : List TrendPoint} (hc : 2 ≤ t.capacity)
    (hi : Increasing TrendPoint.time l) (h : IsLongest (Fits t.capacity t.windowNs) t.points l)
    (p : TrendPoint) :
    IsLongest (Fits t.capacity t.windowNs) (t.add p.timestampNs p.rssBytes).points
      (accept l p) := by
  have hlast := getLast?_of_isLongest hc h
  have hia := increasing_accept hi p
  by_cases hp : l.getLast?.all (·.time < p.time) = true
  · have hany : t.points.getLast?.any (fun back => p.timestampNs ≤ back.timestampNs) = false := by
      rw [hlast]
      cases hl : l.getLast? with
      | none => rfl
      | some back =>
        have hlt : back.time < p.time := by simpa [hl] using hp
        exact decide_eq_false (mt UInt64.le_iff_toNat_le.mp hlt.not_ge)
    rw [accept, if_pos hp] at hia ⊢
    rw [add, hany, if_neg (by simp)]
    have his : Increasing TrendPoint.time (t.points ++ [p]) :=
      hia.of_suffix (concat_suffix h.suffix p)
    have heq := evict_eq_find t.windowNs hc his
    rw [show (⟨p.timestampNs, p.rssBytes⟩ : TrendPoint) = p from rfl, heq]
    exact h.concat (fun s hs => Fits.init (hia.of_suffix (concat_suffix hs p)))
      (find_isLongest fits_nil _)
  · have hany : t.points.getLast?.any (fun back => p.timestampNs ≤ back.timestampNs) = true := by
      rw [hlast]
      cases hl : l.getLast? with
      | none => exact absurd (by rw [hl]; rfl) hp
      | some back =>
        have hle : p.time ≤ back.time := by simpa [hl] using hp
        exact decide_eq_true (UInt64.le_iff_toNat_le.mpr hle)
    rw [accept, if_neg hp, add, if_pos hany]
    exact h

theorem add_limits (t : MemoryTrend) (timestampNs rssBytes : UInt64) :
    (t.add timestampNs rssBytes).capacity = t.capacity ∧
      (t.add timestampNs rssBytes).windowNs = t.windowNs := by
  rw [add]
  split <;> exact ⟨rfl, rfl⟩

theorem addAll_limits (t : MemoryTrend) (adds : List TrendPoint) :
    (t.addAll adds).capacity = t.capacity ∧ (t.addAll adds).windowNs = t.windowNs := by
  induction adds using List.reverseRecOn with
  | nil => exact ⟨rfl, rfl⟩
  | append_singleton adds p ih =>
    rw [addAll_concat, (add_limits _ _ _).1, (add_limits _ _ _).2]
    exact ih

theorem addAll_isLongest (capacity : Nat) (windowNs : UInt64) (adds : List TrendPoint) :
    IsLongest (Fits (max capacity 2) windowNs) ((new capacity windowNs).addAll adds).points
      (accepted adds) := by
  induction adds using List.reverseRecOn with
  | nil => exact .nil fits_nil
  | append_singleton adds p ih =>
    have hl := addAll_limits (new capacity windowNs) adds
    rw [addAll_concat, accepted_concat]
    have hh := add_isLongest (t := (new capacity windowNs).addAll adds) (p := p)
      (hl.1 ▸ le_max_right capacity 2) (increasing_accepted adds) (by rw [hl.1, hl.2]; exact ih)
    rwa [hl.1, hl.2] at hh

theorem increasing_addAll (capacity : Nat) (windowNs : UInt64) (adds : List TrendPoint) :
    Increasing TrendPoint.time ((new capacity windowNs).addAll adds).points :=
  (increasing_accepted adds).of_suffix (addAll_isLongest capacity windowNs adds).suffix

/-- The operands of the subtractions made while points are dropped. -/
def evictSubtractions (capacity : Nat) (windowNs timestampNs : UInt64) :
    List TrendPoint → List (UInt64 × UInt64)
  | [] => []
  | front :: rest =>
    let made :=
      if rest.length + 1 ≤ capacity ∧ rest.length + 1 > 2 then [(timestampNs, front.timestampNs)]
      else []
    if rest.length + 1 > capacity ∨
        (rest.length + 1 > 2 ∧ timestampNs - front.timestampNs > windowNs) then
      made ++ evictSubtractions capacity windowNs timestampNs rest
    else made

def addSubtractions (t : MemoryTrend) (p : TrendPoint) : List (UInt64 × UInt64) :=
  if t.points.getLast?.any (fun back => p.timestampNs ≤ back.timestampNs) then []
  else evictSubtractions t.capacity t.windowNs p.timestampNs (t.points ++ [p])

/-- The operands of the subtractions that `summary` makes in 64 bits. -/
def summarySubtractions (t : MemoryTrend) : List (UInt64 × UInt64) :=
  match t.points with
  | front :: second :: rest =>
    let back := (second :: rest).getLast (List.cons_ne_nil _ _)
    [(back.timestampNs, front.timestampNs),
      if back.rssBytes ≥ front.rssBytes then (back.rssBytes, front.rssBytes)
      else (front.rssBytes, back.rssBytes)]
  | _ => []

theorem mem_evictSubtractions {timestampNs : UInt64} {x : UInt64 × UInt64}
    (h : x ∈ evictSubtractions capacity windowNs timestampNs points) :
    x.1 = timestampNs ∧ ∃ q ∈ points, x.2 = q.timestampNs := by
  induction points with
  | nil => cases h
  | cons front rest ih =>
    have hmade : ∀ {c : Prop} [Decidable c],
        x ∈ (if c then [(timestampNs, front.timestampNs)] else []) →
          x.1 = timestampNs ∧ ∃ q ∈ front :: rest, x.2 = q.timestampNs := by
      intro c _ hx
      split at hx
      · rw [List.mem_singleton.mp hx]
        exact ⟨rfl, front, List.mem_cons_self, rfl⟩
      · cases hx
    simp only [evictSubtractions] at h
    split at h
    · rcases List.mem_append.mp h with h | h
      · exact hmade h
      · obtain ⟨h₁, q, hq, h₂⟩ := ih h
        exact ⟨h₁, q, List.mem_cons_of_mem _ hq, h₂⟩
    · exact hmade h

theorem addSubtractions_le {t : MemoryTrend} (hi : Increasing TrendPoint.time t.points)
    {x : UInt64 × UInt64} (h : x ∈ t.addSubtractions p) : x.2 ≤ x.1 := by
  rw [addSubtractions] at h
  split at h
  · cases h
  · next hnot =>
    obtain ⟨h₁, q, hq, h₂⟩ := mem_evictSubtractions h
    rw [h₁, h₂]
    rcases List.mem_append.mp hq with hq | hq
    · obtain ⟨back, hb⟩ := Option.isSome_iff_exists.mp
        (List.getLast?_isSome.mpr (List.ne_nil_of_mem hq))
      rw [hb, Option.any_some, decide_eq_true_eq, UInt64.not_le, UInt64.lt_iff_toNat_lt] at hnot
      exact UInt64.le_iff_toNat_le.mpr ((hi.le_of_getLast? hb hq).trans hnot.le)
    · rw [List.mem_singleton.mp hq]
      exact UInt64.le_refl _

theorem summarySubtractions_le {t : MemoryTrend} (hi : Increasing TrendPoint.time t.points)
    {x : UInt64 × UInt64} (h : x ∈ t.summarySubtractions) : x.2 ≤ x.1 := by
  rw [summarySubtractions] at h
  split at h
  · next front second rest hp =>
    rw [hp] at hi
    rcases List.mem_cons.mp h with rfl | h
    · exact UInt64.le_iff_toNat_le.mpr hi.le_getLast
    · rw [List.mem_singleton.mp h]
      split
      · next hle => exact hle
      · next hlt => exact UInt64.le_of_lt (UInt64.not_le.mp hlt)
  · cases h

theorem toNat_durationNs {t : MemoryTrend} (hi : Increasing TrendPoint.time t.points) :
    t.summary.durationNs.toNat = span TrendPoint.time t.points := by
  rw [summary]
  split
  · next front second rest hp =>
    have hle := hp ▸ hi
    have hd := toNat_sub_time hle.le_getLast
    simp only
    split <;> rw [hp] <;> exact hd
  · next hp =>
    match hpt : t.points with
    | [] => rfl
    | [p] => exact span_singleton.symm
    | p :: q :: rest => exact absurd hpt (hp p q rest)

/-- What the trend has kept after any sequence of calls, and that its arithmetic
is that of unbounded numbers. -/
theorem retained_exactly (capacity : Nat) (windowNs : UInt64) (adds : List TrendPoint) :
    let t := (new capacity windowNs).addAll adds
    IsLongest (Fits (max capacity 2) windowNs) t.points (accepted adds) ∧
      t.points.Pairwise (fun p q => p.timestampNs < q.timestampNs) ∧
      t.points.getLast? = (accepted adds).getLast? ∧
      (∀ p, ∀ x ∈ t.addSubtractions p, x.2 ≤ x.1) ∧ (∀ x ∈ t.summarySubtractions, x.2 ≤ x.1) ∧
      (t.summary.durationNs = 0 → t.points.length < 2) := by
  have h := addAll_isLongest capacity windowNs adds
  have hi := increasing_addAll capacity windowNs adds
  refine ⟨h, hi.imp UInt64.lt_iff_toNat_lt.mpr, getLast?_of_isLongest (le_max_right _ _) h,
    fun p x => addSubtractions_le hi, fun x => summarySubtractions_le hi, fun hd => ?_⟩
  by_contra hl
  have hpos := span_pos hi (not_lt.mp hl)
  rw [← toNat_durationNs hi, hd] at hpos
  exact absurd hpos (by decide)

end MemoryTrend

end Peepbooth
