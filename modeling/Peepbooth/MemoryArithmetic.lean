import Peepbooth.ProcStatus
import Peepbooth.TrendWindow
import Peepbooth.BinaryFloat

/-! Numbers of bytes from the status file to the printed trend, against the same
computed without bounds. -/

namespace Peepbooth

open LineSearch

def statusKeys : List String := ["VmRSS:", "VmHWM:", "VmSwap:"]

def numberRead (key : String) (contents : Text) : Option Nat :=
  (search newline (text key) contents).bind lineNumber

/-- What is reported for a key, if anything, is the number read, in bytes. -/
def CountExact (key : String) (contents : Text) : Prop :=
  ∀ bytes ∈ statusValueKib contents (text key),
    ∃ n ∈ numberRead key contents, bytes.toNat = 1024 * n

/-- A negation that stays in the range of 64-bit integers. -/
def Negatable (x : Int64) : Prop := -x.toInt < 9223372036854775808

namespace MemoryTrend

/-- The operands of the negations that `summary` makes. -/
def negations (t : MemoryTrend) : List Int64 :=
  match t.points with
  | front :: second :: rest =>
    let back := (second :: rest).getLast (List.cons_ne_nil _ _)
    if back.rssBytes ≥ front.rssBytes then [] else [(front.rssBytes - back.rssBytes).toInt64]
  | _ => []

/-- The delta of the summary is the newest less the oldest resident set kept. -/
def DeltaExact (t : MemoryTrend) : Prop :=
  ∀ oldest ∈ t.points.head?, ∀ newest ∈ t.points.getLast?,
    t.summary.rssDeltaBytes.toInt = (newest.rss : Int) - oldest.rss

end MemoryTrend

/-- The `double` nearest to a number. -/
def double (x : ℚ) : ℚ := BinaryFloat.round 52 x

def mib (bytes : UInt64) : ℚ := double (double bytes.toNat / (1024 * 1024))

namespace MemoryTrendSummary

/-- The delta that `write_console_observation` prints, if there is one. -/
def signedDelta (s : MemoryTrendSummary) : Option ℚ :=
  if s.durationNs ≠ 0 then
    some (if s.rssDeltaBytes ≥ 0 then mib s.rssDeltaBytes.toUInt64
      else -mib (-s.rssDeltaBytes).toUInt64)
  else none

/-- The operands of the negations of integers made for it. -/
def negations (s : MemoryTrendSummary) : List Int64 :=
  if s.durationNs ≠ 0 then if s.rssDeltaBytes ≥ 0 then [] else [s.rssDeltaBytes] else []

end MemoryTrendSummary

/-- The bytes of every number read fit 64 bits, or the number itself does not and is rejected. -/
def BytesFit (contents : Text) : Prop :=
  ∀ key ∈ statusKeys, ∀ n ∈ numberRead key contents,
    n < 18014398509481984 ∨ 18446744073709551616 ≤ n

/-- The number, in bytes, is reported; `otherwise` where there is none of 64 bits. -/
def Reported (number : Option Nat) (otherwise bytes : UInt64) : Prop :=
  match number with
  | none => bytes = otherwise
  | some n => bytes.toNat = 1024 * n ∨ 18446744073709551616 ≤ n ∧ bytes = otherwise

/-- The three values of an accepted file are the numbers on its lines, in bytes. -/
structure ProcessMemory.Exact (m : ProcessMemory) (contents : Text) : Prop where
  rss : ∃ n ∈ numberRead "VmRSS:" contents, m.rssBytes.toNat = 1024 * n
  highWater : Reported (numberRead "VmHWM:" contents) m.rssBytes m.highWaterBytes
  swap : Reported (numberRead "VmSwap:" contents) 0 m.swapBytes

variable {contents : Text} {m : ProcessMemory}

theorem statusValueKib_numberRead (key : String) (contents : Text) :
    statusValueKib contents (text key) =
      ((numberRead key contents).bind fun n =>
        if n < 18446744073709551616 then some (UInt64.ofNat n) else none).map (· * 1024) := by
  rw [statusValueKib_eq_search, numberRead, Option.bind_assoc, Option.map_bind]
  refine Option.bind_congr fun line _ => ?_
  rw [parseUnsigned_eq]
  rfl

theorem toNat_mul_kib {n : Nat} (hn : n < 18446744073709551616) :
    (UInt64.ofNat n * 1024).toNat = n * 1024 % 18446744073709551616 := by
  rw [UInt64.toNat_mul, UInt64.toNat_ofNat_of_lt' hn]
  rfl

theorem countExact_iff (key : String) (contents : Text) :
    CountExact key contents ↔ ∀ n ∈ numberRead key contents,
      n < 18014398509481984 ∨ 18446744073709551616 ≤ n := by
  rw [CountExact, statusValueKib_numberRead]
  cases numberRead key contents with
  | none => simp
  | some n =>
    by_cases hn : n < 18446744073709551616
    · have hv := toNat_mul_kib hn
      simp only [Option.bind_some, if_pos hn, Option.map_some, Option.mem_some_iff, forall_eq',
        exists_eq_left', hv]
      omega
    · simp [hn]
      omega

theorem reported_iff (key : String) (contents : Text) (otherwise : UInt64) :
    Reported (numberRead key contents) otherwise
        ((statusValueKib contents (text key)).getD otherwise) ↔
      ∀ n ∈ numberRead key contents, n < 18014398509481984 ∨ 18446744073709551616 ≤ n := by
  rw [statusValueKib_numberRead]
  cases numberRead key contents with
  | none => simp [Reported]
  | some n =>
    by_cases hn : n < 18446744073709551616
    · have hv := toNat_mul_kib hn
      simp only [Reported, Option.bind_some, if_pos hn, Option.map_some, Option.getD_some, hv,
        Option.mem_some_iff, forall_eq']
      omega
    · simp [Reported, hn, Nat.not_lt.mp hn]

/-- The resident set of an accepted file is the number of its line, in bytes modulo `2^64`. -/
theorem rss_of_accepted (h : parseProcStatus contents = some m) :
    ∃ n, numberRead "VmRSS:" contents = some n ∧ n < 18446744073709551616 ∧
      m.rssBytes.toNat = n * 1024 % 18446744073709551616 := by
  obtain ⟨rss, hr, rfl⟩ := Option.map_eq_some_iff.mp h
  rw [statusValueKib_numberRead] at hr
  cases hn : numberRead "VmRSS:" contents with
  | none => simp [hn] at hr
  | some n =>
    rw [hn, Option.bind_some] at hr
    by_cases hlt : n < 18446744073709551616
    · rw [if_pos hlt, Option.map_some] at hr
      exact ⟨n, rfl, hlt, by rw [← Option.some.inj hr, toNat_mul_kib hlt]⟩
    · rw [if_neg hlt] at hr
      cases hr

theorem ProcessMemory.exact_iff (h : parseProcStatus contents = some m) :
    m.Exact contents ↔ BytesFit contents := by
  obtain ⟨n, hn, hlt, hr⟩ := rss_of_accepted h
  obtain ⟨rss, -, rfl⟩ := Option.map_eq_some_iff.mp h
  have hrss : (∃ n ∈ numberRead "VmRSS:" contents, rss.toNat = 1024 * n) ↔
      ∀ n ∈ numberRead "VmRSS:" contents, n < 18014398509481984 ∨ 18446744073709551616 ≤ n := by
    simp only [hn, Option.mem_some_iff, forall_eq', exists_eq_left', hr]
    omega
  have hwater := reported_iff "VmHWM:" contents rss
  have hswap := reported_iff "VmSwap:" contents 0
  simp only [BytesFit, statusKeys, List.forall_mem_cons, List.not_mem_nil, false_imp_iff,
    implies_true, and_true]
  rw [← hrss, ← hwater, ← hswap]
  exact ⟨fun he => ⟨he.rss, he.highWater, he.swap⟩, fun ⟨h₁, h₂, h₃⟩ => ⟨h₁, h₂, h₃⟩⟩

theorem toInt_toInt64 (x : UInt64) :
    x.toInt64.toInt = if x.toNat < 9223372036854775808 then (x.toNat : Int)
      else (x.toNat : Int) - 18446744073709551616 := by
  have h : x.toInt64.toInt = x.toBitVec.toInt := rfl
  rw [h, BitVec.toInt_eq_toNat_cond, UInt64.toNat_toBitVec]
  split <;> split <;> omega

theorem toInt_neg_toInt64 {d : UInt64} (hd : d ≠ 0) :
    (-d.toInt64).toInt =
      if d.toNat ≤ 9223372036854775808 then -(d.toNat : Int)
      else 18446744073709551616 - (d.toNat : Int) := by
  have hlt := d.toNat_lt
  have hpos : d.toNat ≠ 0 := fun h => hd (UInt64.toNat_inj.mp h)
  rw [Int64.toInt_neg, toInt_toInt64, Int.bmod_def]
  split <;> split <;> split <;> omega

namespace MemoryTrend

variable {t : MemoryTrend} {p q : TrendPoint}

theorem points_of_two (capacity : Nat) (windowNs : UInt64) (ht : p.timestampNs < q.timestampNs) :
    ((new capacity windowNs).addAll [p, q]).points = [p, q] := by
  have hc : 2 ≤ max capacity 2 := le_max_right _ _
  have hone : ((new capacity windowNs).add p.timestampNs p.rssBytes).points = [p] := by
    rw [add, if_neg (by simp [new])]
    change evict (max capacity 2) windowNs p.timestampNs [p] = [p]
    rw [evict, if_neg]
    simp only [List.length_nil]
    omega
  have hl := add_limits (new capacity windowNs) p.timestampNs p.rssBytes
  have hnot : ¬(q.timestampNs ≤ p.timestampNs) := UInt64.not_le.mpr ht
  change (((new capacity windowNs).add p.timestampNs p.rssBytes).add q.timestampNs
    q.rssBytes).points = [p, q]
  rw [add, hone, if_neg (by simpa using hnot)]
  change evict _ _ _ [p, q] = [p, q]
  rw [evict, if_neg]
  rw [hl.1]
  change ¬(2 > max capacity 2 ∨ 2 > 2 ∧ _)
  omega

theorem summary_of_two (hp : t.points = [p, q]) :
    t.summary.durationNs = q.timestampNs - p.timestampNs ∧
      t.summary.rssDeltaBytes =
        if q.rssBytes ≥ p.rssBytes then (q.rssBytes - p.rssBytes).toInt64
        else -(p.rssBytes - q.rssBytes).toInt64 := by
  by_cases hz : q.timestampNs - p.timestampNs = 0
  · simp only [summary, hp, List.getLast_singleton, if_pos hz]
    exact ⟨trivial, rfl⟩
  · simp only [summary, hp, List.getLast_singleton, if_neg hz]
    exact ⟨trivial, rfl⟩

theorem durationNs_of_two (hp : t.points = [p, q]) (ht : p.timestampNs < q.timestampNs) :
    t.summary.durationNs ≠ 0 := by
  rw [(summary_of_two hp).1]
  intro h
  have hlt := UInt64.lt_iff_toNat_lt.mp ht
  have hsub := toNat_sub_time (p := q) (q := p) hlt.le
  rw [h, UInt64.toNat_zero] at hsub
  have hpos : 0 < q.time - p.time := Nat.sub_pos_of_lt hlt
  omega

theorem negations_of_two (hp : t.points = [p, q]) :
    t.negations =
      if q.rssBytes ≥ p.rssBytes then [] else [(p.rssBytes - q.rssBytes).toInt64] := by
  obtain ⟨capacity, windowNs, points⟩ := t
  dsimp only at hp
  subst hp
  rfl

theorem deltaExact_iff (hp : t.points = [p, q]) :
    t.DeltaExact ↔ t.summary.rssDeltaBytes.toInt = (q.rss : Int) - p.rss := by
  rw [DeltaExact, hp]
  simp

theorem nonneg_iff (x : Int64) : x ≥ 0 ↔ 0 ≤ x.toInt := by
  rw [ge_iff_le, Int64.le_iff_toInt_le, Int64.toInt_zero]

theorem exact_iff_of_le (hp : t.points = [p, q]) (ht : p.timestampNs < q.timestampNs)
    (hle : q.rssBytes ≥ p.rssBytes) :
    (t.DeltaExact ∧ ∀ x ∈ t.negations ++ t.summary.negations, Negatable x) ↔
      ((q.rss : Int) - p.rss).natAbs < 9223372036854775808 := by
  have hsub : (q.rssBytes - p.rssBytes).toNat = q.rss - p.rss := UInt64.toNat_sub_of_le _ _ hle
  have hle' : p.rss ≤ q.rss := UInt64.le_iff_toNat_le.mp hle
  have hint := toInt_toInt64 (q.rssBytes - p.rssBytes)
  rw [deltaExact_iff hp, MemoryTrendSummary.negations, if_pos (durationNs_of_two hp ht),
    negations_of_two hp, (summary_of_two hp).2, if_pos hle, if_pos hle, List.nil_append]
  generalize (q.rssBytes - p.rssBytes).toInt64 = x at hint ⊢
  constructor
  · rintro ⟨hx, -⟩
    split at hint <;> omega
  · intro hx
    rw [if_pos (by omega)] at hint
    refine ⟨by omega, ?_⟩
    rw [if_pos ((nonneg_iff x).mpr (by omega))]
    exact fun y hy => absurd hy List.not_mem_nil

theorem exact_iff_of_lt (hp : t.points = [p, q]) (ht : p.timestampNs < q.timestampNs)
    (hlt : q.rssBytes < p.rssBytes) :
    (t.DeltaExact ∧ ∀ x ∈ t.negations ++ t.summary.negations, Negatable x) ↔
      ((q.rss : Int) - p.rss).natAbs < 9223372036854775808 := by
  have hsub : (p.rssBytes - q.rssBytes).toNat = p.rss - q.rss :=
    UInt64.toNat_sub_of_le _ _ (UInt64.le_of_lt hlt)
  have hlt' : q.rss < p.rss := UInt64.lt_iff_toNat_lt.mp hlt
  have hpos : p.rssBytes - q.rssBytes ≠ 0 := by
    intro h
    rw [h, UInt64.toNat_zero] at hsub
    omega
  have hnot : ¬q.rssBytes ≥ p.rssBytes := UInt64.not_le.mpr hlt
  have hint := toInt_toInt64 (p.rssBytes - q.rssBytes)
  have hminus := toInt_neg_toInt64 hpos
  rw [deltaExact_iff hp, MemoryTrendSummary.negations, if_pos (durationNs_of_two hp ht),
    negations_of_two hp, (summary_of_two hp).2, if_neg hnot, if_neg hnot]
  generalize (p.rssBytes - q.rssBytes).toInt64 = x at hint hminus ⊢
  constructor
  · rintro ⟨hx, hall⟩
    have hn : -x.toInt < 9223372036854775808 := hall x (by simp)
    split at hint <;> split at hminus <;> omega
  · intro hx
    rw [if_pos (by omega)] at hint hminus
    refine ⟨by omega, ?_⟩
    rw [if_neg fun h => by have := (nonneg_iff (-x)).mp h; omega]
    intro y hy
    rw [Negatable]
    rcases List.mem_pair.mp hy with rfl | rfl
    · omega
    · omega

/-- Between two points the arithmetic is exact where their sets are less than `2^63` apart. -/
theorem exact_iff (hp : t.points = [p, q]) (ht : p.timestampNs < q.timestampNs) :
    (t.DeltaExact ∧ ∀ x ∈ t.negations ++ t.summary.negations, Negatable x) ↔
      ((q.rss : Int) - p.rss).natAbs < 9223372036854775808 := by
  by_cases hle : q.rssBytes ≥ p.rssBytes
  · exact exact_iff_of_le hp ht hle
  · exact exact_iff_of_lt hp ht (UInt64.not_le.mp hle)

end MemoryTrend

open MemoryTrend

/-- The arithmetic from two status files to the printed trend is exact where the bytes
of every number fit and the two resident sets are less than `2^53` kibibytes apart. -/
theorem memory_exact_iff (capacity : Nat) (windowNs : UInt64) {contents contents' : Text}
    {m m' : ProcessMemory} {time time' : UInt64} (h : parseProcStatus contents = some m)
    (h' : parseProcStatus contents' = some m') (ht : time < time') :
    let t := (new capacity windowNs).addAll [⟨time, m.rssBytes⟩, ⟨time', m'.rssBytes⟩]
    ((∀ key ∈ statusKeys, CountExact key contents ∧ CountExact key contents') ∧
        (m.Exact contents ∧ m'.Exact contents') ∧ t.DeltaExact ∧
        ∀ x ∈ t.negations ++ t.summary.negations, Negatable x) ↔
      (BytesFit contents ∧ BytesFit contents') ∧
        ∀ n ∈ numberRead "VmRSS:" contents, ∀ n' ∈ numberRead "VmRSS:" contents',
          ((n' : Int) - n).natAbs < 9007199254740992 := by
  intro t
  obtain ⟨n, hn, hlt, hm⟩ := rss_of_accepted h
  obtain ⟨n', hn', hlt', hm'⟩ := rss_of_accepted h'
  have hcounts : (∀ key ∈ statusKeys, CountExact key contents ∧ CountExact key contents') ↔
      BytesFit contents ∧ BytesFit contents' := by
    simp only [countExact_iff, BytesFit, ← forall_and]
  rw [hcounts, ProcessMemory.exact_iff h, ProcessMemory.exact_iff h',
    exact_iff (points_of_two capacity windowNs ht) ht, ← and_assoc, and_self]
  refine and_congr_right fun ⟨hf, hf'⟩ => ?_
  have hsmall := hf "VmRSS:" (by decide) n hn
  have hsmall' := hf' "VmRSS:" (by decide) n' hn'
  have hr : (⟨time, m.rssBytes⟩ : TrendPoint).rss = n * 1024 := by
    rw [TrendPoint.rss, hm]
    omega
  have hr' : (⟨time', m'.rssBytes⟩ : TrendPoint).rss = n' * 1024 := by
    rw [TrendPoint.rss, hm']
    omega
  rw [hr, hr', hn, hn']
  simp only [Option.mem_some_iff, forall_eq']
  omega

theorem memory_exact_iff_growth :
    let t := (new 120 1000).addAll [⟨1, 4096⟩, ⟨2, 8192⟩]
    ((∀ key ∈ statusKeys, CountExact key (text "VmRSS:\t4 kB\n") ∧
          CountExact key (text "VmRSS:\t8 kB\n")) ∧
        (ProcessMemory.Exact ⟨4096, 4096, 0⟩ (text "VmRSS:\t4 kB\n") ∧
          ProcessMemory.Exact ⟨8192, 8192, 0⟩ (text "VmRSS:\t8 kB\n")) ∧ t.DeltaExact ∧
        ∀ x ∈ t.negations ++ t.summary.negations, Negatable x) ↔
      (BytesFit (text "VmRSS:\t4 kB\n") ∧ BytesFit (text "VmRSS:\t8 kB\n")) ∧
        ∀ n ∈ numberRead "VmRSS:" (text "VmRSS:\t4 kB\n"),
          ∀ n' ∈ numberRead "VmRSS:" (text "VmRSS:\t8 kB\n"),
            ((n' : Int) - n).natAbs < 9007199254740992 :=
  memory_exact_iff 120 1000
    (show parseProcStatus (text "VmRSS:\t4 kB\n") = some ⟨4096, 4096, 0⟩ by decide +kernel)
    (show parseProcStatus (text "VmRSS:\t8 kB\n") = some ⟨8192, 8192, 0⟩ by decide +kernel)
    (by decide)

instance decidableNegatable (x : Int64) : Decidable (Negatable x) :=
  inferInstanceAs (Decidable (_ < _))

/-- A number whose bytes do not fit is reported as none at all, and of two sets that
are `2^63` bytes apart the difference is negated though it is the least integer. -/
theorem memory_wraps :
    parseProcStatus (text "VmRSS:\t18014398509481984 kB\n") = some ⟨0, 0, 0⟩ ∧
      ¬CountExact "VmRSS:" (text "VmRSS:\t18014398509481984 kB\n") ∧
      parseProcStatus (text "VmRSS:\t9007199254740992 kB\n") =
        some ⟨9223372036854775808, 9223372036854775808, 0⟩ ∧
      parseProcStatus (text "VmRSS:\t0 kB\n") = some ⟨0, 0, 0⟩ ∧
      (∃ x ∈ ((new 120 1000).addAll [⟨1, 9223372036854775808⟩, ⟨2, 0⟩]).negations,
        ¬Negatable x) ∧
      ¬((new 120 1000).addAll [⟨1, 0⟩, ⟨2, 9223372036854775808⟩]).DeltaExact ∧
      ∃ x ∈ ((new 120 1000).addAll [⟨1, 0⟩, ⟨2, 9223372036854775808⟩]).summary.negations,
        ¬Negatable x := by
  have hd : ((new 120 1000).addAll [⟨1, 0⟩, ⟨2, 9223372036854775808⟩]).summary.rssDeltaBytes =
      -9223372036854775808 := by rfl
  have hn : numberRead "VmRSS:" (text "VmRSS:\t18014398509481984 kB\n") =
      some 18014398509481984 := by decide +kernel
  refine ⟨by decide +kernel, fun h => ?_, by decide +kernel, by decide +kernel,
    ⟨_, List.mem_singleton_self _, by decide⟩, fun h => ?_, ?_⟩
  · have hlt := (countExact_iff _ _).mp h _ hn
    omega
  · have hh := h _ rfl _ rfl
    rw [hd] at hh
    revert hh
    decide
  · refine ⟨-9223372036854775808, ?_, by decide⟩
    rw [MemoryTrendSummary.negations, hd]
    decide

end Peepbooth
