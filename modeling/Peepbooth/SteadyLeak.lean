import Peepbooth.TrendGrowth

/-! A resident set that grows with every sample: whether a trend calls it sustained
growth after every call, whatever it has dropped meanwhile. -/

namespace Peepbooth

open LongestSuffix SeriesSpan

namespace MemoryTrend

variable {capacity : Nat} {windowNs : UInt64} {adds calls : List TrendPoint}

theorem accepted_eq_self (hi : Increasing TrendPoint.time adds) : accepted adds = adds := by
  induction adds using List.reverseRecOn with
  | nil => rfl
  | append_singleton adds p ih =>
    have hinit := List.pairwise_append.mp hi
    rw [accepted_concat, ih hinit.1, accept, if_pos]
    cases hl : adds.getLast? with
    | none => rfl
    | some back =>
      exact decide_eq_true
        (hinit.2.2 back (List.mem_of_getLast? hl) p (List.mem_singleton_self p))

theorem kept_isLongest (capacity : Nat) (windowNs : UInt64)
    (hi : Increasing TrendPoint.time adds) :
    IsLongest (Fits (max capacity 2) windowNs) ((new capacity windowNs).addAll adds).points
      adds := by
  have h := addAll_isLongest capacity windowNs adds
  rwa [accepted_eq_self hi] at h

/-- Either nothing has been dropped, or the point before those kept breaks a limit. -/
theorem cases_dropped {s l : List TrendPoint} (h : IsLongest (Fits capacity windowNs) s l) :
    s = l ∨ ∃ b, b :: s <:+ l ∧
      (capacity ≤ s.length ∨ 2 ≤ s.length ∧ windowNs.toNat < span TrendPoint.time (b :: s)) := by
  obtain ⟨pre, hpre⟩ := h.suffix
  cases pre using List.reverseRecOn with
  | nil => exact .inl hpre
  | append_singleton pre b =>
    rw [List.append_assoc, List.singleton_append] at hpre
    have hnot := h.not_cons hpre.symm
    rw [Fits, List.length_cons, not_and_or, not_or] at hnot
    exact .inr ⟨b, ⟨pre, hpre⟩, by omega⟩

theorem kept_sustained (hi : Increasing TrendPoint.time adds) (hr : Increasing TrendPoint.rss adds)
    (hmax : ∀ p ∈ adds, p.rss < 2 ^ 63) :
    let t := (new capacity windowNs).addAll adds
    4 ≤ t.points.length → (t.summary.sustainedGrowth = true ↔
      min windowNs.toNat 5000000000 ≤ span TrendPoint.time t.points) := by
  intro t hl
  have hs := (kept_isLongest capacity windowNs hi).suffix
  have hw : t.windowNs = windowNs := (addAll_limits _ adds).2
  have hmin : (min t.windowNs minimumObservationNs).toNat = min windowNs.toNat 5000000000 := by
    have hm : minimumObservationNs.toNat = 5000000000 := by decide
    rw [hw, ← hm, UInt64.min_def, Nat.min_def]
    simp only [UInt64.le_iff_toNat_le]
    split <;> rfl
  rw [sustainedGrowth_iff (hi.of_suffix hs) (hr.of_suffix hs)
    (fun p hp => hmax p (hs.subset hp)) hl, hmin]

/-- Neighbours lie at least 50 ms and at most 60 s apart. -/
def Paced (p q : TrendPoint) : Prop :=
  p.time + 50000000 ≤ q.time ∧ q.time ≤ p.time + 60000000000

instance (p q : TrendPoint) : Decidable (Paced p q) := inferInstanceAs (Decidable (_ ∧ _))

theorem increasing_of_paced (h : adds.IsChain Paced) : Increasing TrendPoint.time adds :=
  List.isChain_iff_pairwise.mp (h.imp fun p q hpq => by have := hpq.1; omega)

/-- The default capacity and the default window both leave 5 s of such points. -/
theorem kept_of_paced (h : adds.IsChain Paced) (hl : 4 ≤ adds.length)
    (hs : 5000000000 ≤ span TrendPoint.time adds) :
    4 ≤ (new.addAll adds).points.length ∧
      5000000000 ≤ span TrendPoint.time (new.addAll adds).points := by
  have hi := increasing_of_paced h
  have hlong := kept_isLongest 120 (30 * 60 * 1000000000) hi
  generalize (new.addAll adds).points = points at hlong ⊢
  rcases cases_dropped hlong with rfl | ⟨b, hb, hdrop⟩
  · exact ⟨hl, hs⟩
  have hbi := hi.of_suffix hb
  have hlow : (points.length - 1) * 50000000 ≤ 1 * span TrendPoint.time points :=
    le_span (hi.of_suffix hlong.suffix) ((h.suffix hlong.suffix).imp fun p q hpq => by
      have := hpq.1
      omega)
  have hhigh : 1 * span TrendPoint.time (b :: points) ≤ ((b :: points).length - 1) * 60000000000 :=
    span_le hbi ((h.suffix hb).imp fun p q hpq => by
      have := hpq.2
      omega)
  rw [List.length_cons] at hhigh
  rcases hdrop with hfull | ⟨htwo, hwide⟩
  · rw [show max 120 2 = 120 from rfl] at hfull
    omega
  · have hw : (30 * 60 * 1000000000 : UInt64).toNat = 1800000000000 := by decide
    rw [hw] at hwide
    cases points with
    | nil => exact absurd htwo (by decide)
    | cons c points =>
      have hgap := (List.isChain_cons_cons.mp (h.suffix hb)).1.2
      rw [span_cons_cons hbi] at hwide hhigh
      omega

/-- After every call once there are 4 samples over 5 s. -/
theorem steady_leak (h : adds.IsChain Paced) (hr : Increasing TrendPoint.rss adds)
    (hmax : ∀ p ∈ adds, p.rss < 2 ^ 63) (hcalls : calls <+: adds) (hl : 4 ≤ calls.length)
    (hs : 5000000000 ≤ span TrendPoint.time calls) :
    (new.addAll calls).summary.sustainedGrowth = true := by
  have hc := h.prefix hcalls
  obtain ⟨hlen, hspan⟩ := kept_of_paced hc hl hs
  refine (kept_sustained (increasing_of_paced hc) (hr.sublist hcalls.sublist)
    (fun p hp => hmax p (hcalls.subset hp)) hlen).mpr ?_
  exact (Nat.min_le_right _ _).trans hspan

/-- A byte more with every sample. -/
def leak (gap count : Nat) : List TrendPoint :=
  (List.range count).map fun i => ⟨UInt64.ofNat (gap * i), UInt64.ofNat i⟩

/-- Of the samples of 50 minutes, one every 20 s, the first third has left the window. -/
theorem steady_leak_long :
    (new.addAll (leak 20000000000 150)).points = (leak 20000000000 150).drop 59 ∧
      (new.addAll (leak 20000000000 150)).summary.sustainedGrowth = true :=
  ⟨by decide +kernel, steady_leak (by decide +kernel) (by decide +kernel) (by decide +kernel)
    (List.prefix_refl _) (by decide +kernel) (by decide +kernel)⟩

/-- Neighbours lie within an eighth of the window, and so far apart that the
capacity reaches over the window. -/
def Dense (capacity : Nat) (windowNs : UInt64) (p q : TrendPoint) : Prop :=
  p.time < q.time ∧ 8 * (q.time - p.time) ≤ windowNs.toNat ∧
    windowNs.toNat ≤ (capacity - 1) * (q.time - p.time)

instance (capacity : Nat) (windowNs : UInt64) (p q : TrendPoint) :
    Decidable (Dense capacity windowNs p q) :=
  inferInstanceAs (Decidable (_ ∧ _))

section ShortWindow

variable {points : List TrendPoint}

theorem increasing_of_dense (h : adds.IsChain (Dense capacity windowNs)) :
    Increasing TrendPoint.time adds :=
  List.isChain_iff_pairwise.mp (h.imp fun _ _ hpq => hpq.1)

theorem span_le_of_dense (h : points.IsChain (Dense capacity windowNs)) :
    8 * span TrendPoint.time points ≤ (points.length - 1) * windowNs.toNat :=
  span_le (increasing_of_dense h) (h.imp fun _ _ hpq => hpq.2.1)

theorem le_span_of_dense (h : points.IsChain (Dense capacity windowNs)) :
    (points.length - 1) * windowNs.toNat ≤ (capacity - 1) * span TrendPoint.time points :=
  le_span (increasing_of_dense h) (h.imp fun _ _ hpq => hpq.2.2)

theorem kept_of_dense (hw : 8 ≤ windowNs.toNat) (h : adds.IsChain (Dense capacity windowNs))
    (hs : windowNs.toNat ≤ span TrendPoint.time adds)
    (hlong : IsLongest (Fits (max capacity 2) windowNs) points adds) :
    9 ≤ points.length ∧ span TrendPoint.time points ≤ windowNs.toNat := by
  have hlen : 9 ≤ points.length := by
    rcases cases_dropped hlong with rfl | ⟨b, hb, hdrop⟩
    · have hup := span_le_of_dense h
      by_contra hlt
      have hle : (points.length - 1) * windowNs.toNat ≤ 7 * windowNs.toNat :=
        Nat.mul_le_mul_right _ (by omega)
      omega
    · have hup := span_le_of_dense (h.suffix hb)
      have hlow := le_span_of_dense (h.suffix hb)
      rw [List.length_cons, Nat.add_sub_cancel] at hup hlow
      have hwide : windowNs.toNat < span TrendPoint.time (b :: points) := by
        rcases hdrop with hfull | ⟨-, hwide⟩
        · by_contra hle
          have hcap : (capacity - 1) * span TrendPoint.time (b :: points) ≤
              (capacity - 1) * windowNs.toNat := Nat.mul_le_mul_left _ (not_lt.mp hle)
          have hlt : (capacity - 1) * windowNs.toNat < points.length * windowNs.toNat :=
            Nat.mul_lt_mul_of_pos_right (by omega) (by omega)
          omega
        · exact hwide
      by_contra hlt
      have hle : points.length * windowNs.toNat ≤ 8 * windowNs.toNat :=
        Nat.mul_le_mul_right _ (by omega)
      omega
  exact ⟨hlen, hlong.holds.2.resolve_left (by omega)⟩

theorem fits_of_dense (hw : 8 ≤ windowNs.toNat) (h : points.IsChain (Dense capacity windowNs))
    (hs : span TrendPoint.time points = windowNs.toNat) :
    Fits (max capacity 2) windowNs points := by
  have hlow := le_span_of_dense h
  rw [hs] at hlow
  have hle := Nat.le_of_mul_le_mul_right hlow (by omega)
  exact ⟨by omega, .inr hs.le⟩

theorem exists_suffix_of_mem {l : List TrendPoint} {p : TrendPoint} (hp : p ∈ l) :
    ∃ s, p :: s <:+ l ∧
      ∀ q, l.getLast? = some q → span TrendPoint.time (p :: s) = q.time - p.time := by
  obtain ⟨pre, s, rfl⟩ := List.append_of_mem hp
  refine ⟨s, ⟨pre, rfl⟩, fun q hq => ?_⟩
  rw [List.getLast?_append_of_ne_nil _ (List.cons_ne_nil p s),
    List.getLast?_eq_some_getLast (List.cons_ne_nil p s)] at hq
  exact congrArg (TrendPoint.time · - p.time) (Option.some.inj hq)

/-- With a window below 5 s the trend detects the growth at exactly those calls
that find a sample as old as the window. -/
theorem short_window_iff (hw : 8 ≤ windowNs.toNat) (hw' : windowNs.toNat < 5000000000)
    (h : adds.IsChain (Dense capacity windowNs)) (hr : Increasing TrendPoint.rss adds)
    (hmax : ∀ p ∈ adds, p.rss < 2 ^ 63) (hcalls : calls <+: adds)
    (hs : windowNs.toNat ≤ span TrendPoint.time calls) :
    ((new capacity windowNs).addAll calls).summary.sustainedGrowth = true ↔
      ∃ p ∈ calls, ∃ q, calls.getLast? = some q ∧ q.time = p.time + windowNs.toNat := by
  have hc := h.prefix hcalls
  have hi := increasing_of_dense hc
  have hlong := kept_isLongest capacity windowNs hi
  obtain ⟨hlen, hle⟩ := kept_of_dense hw hc hs hlong
  rw [kept_sustained hi (hr.sublist hcalls.sublist) (fun p hp => hmax p (hcalls.subset hp))
    (by omega), min_eq_left hw'.le]
  have hlast := getLast?_of_isLongest (le_max_right _ _) hlong
  generalize ((new capacity windowNs).addAll calls).points = points at *
  constructor
  · intro hge
    cases points with
    | nil => exact absurd hlen (by decide)
    | cons p points =>
      have hfirst := (hi.of_suffix hlong.suffix).le_getLast
      rw [span] at hge hle
      exact ⟨p, hlong.suffix.subset List.mem_cons_self, _,
        hlast.symm.trans (List.getLast?_eq_some_getLast (List.cons_ne_nil p points)), by omega⟩
  · rintro ⟨p, hp, q, hq, hpq⟩
    obtain ⟨s, hsuf, hspan⟩ := exists_suffix_of_mem hp
    have hsw : span TrendPoint.time (p :: s) = windowNs.toNat := by rw [hspan q hq]; omega
    have hkept := hlong.suffix_of hsuf (fits_of_dense hw (hc.suffix hsuf) hsw)
    exact hsw ▸ span_mono (hi.of_suffix hlong.suffix) hkept

/-- Ten steps to a window of 80. -/
theorem short_window_iff_aligned :
    ((new 120 80).addAll (leak 8 14)).summary.sustainedGrowth = true ↔
      ∃ p ∈ leak 8 14, ∃ q, (leak 8 14).getLast? = some q ∧ q.time = p.time + (80 : UInt64).toNat :=
  short_window_iff (by decide) (by decide) (by decide) (by decide) (by decide)
    (List.prefix_refl _) (by decide)

/-- No sum of steps of 7 reaches over a window of 80. -/
theorem short_window_misses :
    (leak 7 13).IsChain (Dense 120 80) ∧ Increasing TrendPoint.rss (leak 7 13) ∧
      (∀ p ∈ leak 7 13, p.rss < 2 ^ 63) ∧
      (80 : UInt64).toNat ≤ span TrendPoint.time (leak 7 13) ∧
      ((new 120 80).addAll (leak 7 13)).summary.sustainedGrowth = false := by
  decide +kernel

end ShortWindow

end MemoryTrend

end Peepbooth
