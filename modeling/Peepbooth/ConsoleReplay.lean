import Peepbooth.ConsoleText
import Peepbooth.TrendWindow
import Mathlib.Tactic.FieldSimp
import Mathlib.Tactic.Ring

/-! The figures on the output as a function of the samples on it. -/

namespace Peepbooth

open FixedPoint Schedule

def ProcessSample.share (ticksPerSecond : ℕ+) (previous sample : ProcessSample) : Option ℚ :=
  if sample.sampledAtNs > previous.sampledAtNs ∧ sample.cpuTicks ≥ previous.cpuTicks then
    let elapsed : ℚ := (sample.sampledAtNs - previous.sampledAtNs).toNat / 1000000000
    some ((sample.cpuTicks - previous.cpuTicks).toNat * 100 / ((ticksPerSecond : ℕ) * elapsed))
  else none

namespace ProcessObservation

def point (o : ProcessObservation) : Option TrendPoint :=
  o.sample.map fun s => ⟨s.sampledAtNs, s.memory.rssBytes⟩

/-- The figures of an observation are those of the samples up to it. -/
structure Follows (ticksPerSecond : ℕ+) (identity : ProcessIdentity)
    (seen : List ProcessObservation) (o : ProcessObservation) : Prop where
  process : o.identity = identity
  sample : ∃ s, o.sample = some s ∧ s.identity = identity ∧
    o.cpuPercent = (seen.getLast?.bind (·.sample)).bind (·.share ticksPerSecond s)
  memory : o.memory = (MemoryTrend.new.addAll ((seen ++ [o]).filterMap point)).summary

/-- Every line gives the figures of the samples on the lines up to it. -/
def Recomputed (ticksPerSecond : ℕ+) (identity : ProcessIdentity)
    (lines : List ProcessObservation) : Prop :=
  ∀ seen o, seen ++ [o] <+: lines → o.Follows ticksPerSecond identity seen

end ProcessObservation

open ProcessObservation

namespace ObservedProcess

theorem conclude_ticks (o : ObservedProcess) (r : PollReads) :
    (o.conclude r).clockTicksPerSecond = o.clockTicksPerSecond := by
  simp only [conclude]
  split
  · cases hs : r.sample with
    | none => rfl
    | some sample =>
      simp only [acceptSample]
      split <;> rfl
  · rfl

theorem poll_ticks (o : ObservedProcess) (w : World) :
    (o.poll w).1.clockTicksPerSecond = o.clockTicksPerSecond := by
  unfold poll
  split
  · exact o.conclude_ticks _
  · rfl

/-- What a poll that counts as sampled leaves for the next. -/
theorem conclude_figures {o : ObservedProcess} {r : PollReads}
    (h : (o.conclude r).latest.status = .sampled) :
    ∃ s, s.identity = o.process.identity ∧ (o.conclude r).latest.identity = o.process.identity ∧
      (o.conclude r).latest.sample = some s ∧
      (o.conclude r).latest.cpuPercent = o.previous.bind (·.share o.clockTicksPerSecond s) ∧
      (o.conclude r).memory = o.memory.add s.sampledAtNs s.memory.rssBytes ∧
      (o.conclude r).latest.memory = (o.conclude r).memory.summary ∧
      (o.conclude r).previous = some s := by
  obtain ⟨ha, s, hs, hid, -⟩ := conclude_sampled h
  have he : o.conclude r = o.acceptSample (some s) r.snapshot r.now := by
    rw [conclude, if_pos ha, hs]
  have hcond : ¬(s.identity.pid ≠ o.process.identity.pid ∨
      s.identity.startTicks ≠ o.process.identity.startTicks) := by
    simp [hid]
  refine ⟨s, hid, ?_⟩
  rw [he]
  unfold acceptSample
  dsimp only
  rw [if_neg hcond]
  exact ⟨rfl, rfl, rfl, rfl, rfl, rfl⟩

end ObservedProcess

def ConsolePhase.ended : ConsolePhase → Bool
  | .closing | .finished _ => true
  | _ => false

namespace Console

variable {options : ConsoleOptions} {uid : UInt32} {c c' : Console} {w : World}
  {ticks : ℕ+} {identity : ProcessIdentity}

def observations (c : Console) : List ProcessObservation := c.printed.map (·.observation)

/-- The observer stands where the samples on the output have taken it. -/
structure Replays (ticks : ℕ+) (identity : ProcessIdentity) (c : Console) : Prop where
  rate : c.observer.clockTicksPerSecond = ticks
  process : c.observer.process.identity = identity
  lines : Recomputed ticks identity c.observations
  memory : c.phase.ended = false →
    c.observer.memory = MemoryTrend.new.addAll (c.observations.filterMap point)
  previous : c.phase.ended = false →
    c.observer.previous = c.observations.getLast?.bind (·.sample)

/-- The observer but for its session and its latest observation. -/
structure SameFigures (o o' : ObservedProcess) : Prop where
  rate : o'.clockTicksPerSecond = o.clockTicksPerSecond
  process : o'.process = o.process
  memory : o'.memory = o.memory
  previous : o'.previous = o.previous

theorem Replays.moved (h : Replays ticks identity c) (ho : SameFigures c.observer c'.observer)
    (hp : c'.printed = c.printed)
    (hover : c'.phase.ended = false → c.phase.ended = false) :
    Replays ticks identity c' := by
  have hobs : c'.observations = c.observations := congrArg (List.map _) hp
  refine ⟨ho.rate.trans h.rate, (congrArg _ ho.process).trans h.process, ?_, fun hc => ?_,
    fun hc => ?_⟩
  · rw [hobs]
    exact h.lines
  · rw [hobs, ho.memory]
    exact h.memory (hover hc)
  · rw [hobs, ho.previous]
    exact h.previous (hover hc)

theorem Replays.settle (h : Replays ticks identity c) (hc : c.phase.ended = false) :
    Replays ticks identity (c.settle options) := by
  unfold Console.settle
  split
  · exact h.moved ⟨rfl, rfl, rfl, rfl⟩ rfl fun _ => hc
  · split
    · exact h.moved ⟨rfl, rfl, rfl, rfl⟩ rfl fun _ => hc
    · exact h.moved ⟨rfl, rfl, rfl, rfl⟩ rfl fun _ => hc

theorem tryAttach_figures (o : ObservedProcess) (uid : UInt32) (w : World) :
    SameFigures o (o.tryAttach uid w).1 := by
  rcases tryAttach_cases o uid w with h | h <;> rw [h] <;> exact ⟨rfl, rfl, rfl, rfl⟩

theorem Replays.attempt (h : Replays ticks identity c) (hc : c.phase.ended = false)
    (n : Nat) (w : World) : Replays ticks identity (c.attempt options uid n w) := by
  unfold Console.attempt
  split
  case isFalse => exact h.settle hc
  have ho := tryAttach_figures c.observer uid w
  dsimp only
  split
  · exact Replays.settle (c := { c.perform uid (c.observer.tryAttach uid w).2 with
      observer := (c.observer.tryAttach uid w).1 }) (h.moved ho rfl fun _ => hc) hc
  · exact h.moved ho rfl fun _ => hc

/-- A line that is printed continues those before it. -/
theorem Replays.report (h : Replays ticks identity c) (hc : c.phase.ended = false)
    {r : PollReads} {seen : List Operation}
    (hs : (c.observer.conclude r).latest.status = .sampled)
    (ho : c'.observer = c.observer.conclude r)
    (hp : c'.printed = c.printed ++ [⟨seen, (c.observer.conclude r).latest⟩]) :
    Replays ticks identity c' := by
  obtain ⟨s, hid, hident, hsample, hcpu, hmem, hsum, hprev⟩ :=
    ObservedProcess.conclude_figures hs
  have hobs : c'.observations = c.observations ++ [(c.observer.conclude r).latest] := by
    rw [observations, hp, List.map_append]
    rfl
  have hpoint : (c.observer.conclude r).latest.point = some ⟨s.sampledAtNs, s.memory.rssBytes⟩ := by
    rw [point, hsample]
    rfl
  have hall : (c.observer.conclude r).memory = MemoryTrend.new.addAll
      ((c.observations ++ [(c.observer.conclude r).latest]).filterMap point) := by
    rw [List.filterMap_append, List.filterMap_cons, hpoint, List.filterMap_nil,
      MemoryTrend.addAll_concat, ← h.memory hc, hmem]
  refine ⟨?_, ?_, fun l o hl => ?_, fun _ => ?_, fun _ => ?_⟩
  · rw [ho, ObservedProcess.conclude_ticks, h.rate]
  · rw [ho, ObservedProcess.conclude_process, h.process]
  · rw [hobs] at hl
    rcases List.prefix_concat_iff.mp hl with he | hl
    · obtain ⟨rfl, hlast⟩ := List.append_inj' he rfl
      obtain rfl := (List.cons.inj hlast).1
      refine ⟨hident.trans h.process, ⟨s, hsample, hid.trans h.process, ?_⟩, ?_⟩
      · rw [hcpu, h.previous hc, h.rate]
      · rw [hsum, hall]
    · exact h.lines l o hl
  · rw [ho, hobs, hall]
  · rw [ho, hobs, hprev, List.getLast?_concat, Option.bind_some, hsample]

theorem Replays.ended (h : Replays ticks identity c)
    (hr : c'.observer.clockTicksPerSecond = c.observer.clockTicksPerSecond)
    (hi : c'.observer.process = c.observer.process) (hp : c'.printed = c.printed)
    (hover : c'.phase.ended = true) : Replays ticks identity c' := by
  refine ⟨hr.trans h.rate, (congrArg _ hi).trans h.process, ?_, fun hn => ?_, fun hn => ?_⟩
  · rw [observations, hp]
    exact h.lines
  · rw [hover] at hn
    cases hn
  · rw [hover] at hn
    cases hn

theorem Replays.conclude (h : Replays ticks identity c) (hc : c.phase.ended = false)
    (r : PollReads) (seen : List Operation) :
    Replays ticks identity (c.conclude options uid r seen) := by
  have hrate := ObservedProcess.conclude_ticks c.observer r
  have hprocess := c.observer.conclude_process r
  unfold Console.conclude
  dsimp only
  split
  · exact h.ended hrate hprocess rfl rfl
  · next hs => exact h.report hc hs rfl rfl
  · exact h.ended hrate hprocess rfl rfl
  · exact h.ended hrate hprocess rfl rfl

theorem Replays.advance (h : Replays ticks identity c) :
    Replays ticks identity (c.advance options uid w) := by
  have hsame : SameFigures c.observer c.observer := ⟨rfl, rfl, rfl, rfl⟩
  unfold Console.advance
  cases hph : c.phase with
  | attaching n => exact h.attempt (by rw [hph]; rfl) n w
  | pausing n =>
    dsimp only
    split
    · exact h.settle (by rw [hph]; rfl)
    · exact h.moved hsame rfl fun _ => by rw [hph]; rfl
  | polling =>
    dsimp only
    split <;> exact h.moved hsame rfl fun _ => by rw [hph]; rfl
  | sampled | snapped | waiting => exact h.moved hsame rfl fun _ => by rw [hph]; rfl
  | judged sample snap seen isAlive => exact h.conclude (by rw [hph]; rfl) _ seen
  | closing =>
    dsimp only [Console.close]
    split
    · exact h.ended rfl rfl rfl rfl
    · exact h.ended (ObservedProcess.poll_ticks c.observer w) (poll_process c.observer w).1 rfl rfl
  | finished code => exact h

theorem Replays.step (h : Replays ticks identity c) (e : ConsoleEvent) :
    Replays ticks identity (c.step options uid e) := by
  cases e with
  | outside op => exact h.moved ⟨rfl, rfl, rfl, rfl⟩ rfl id
  | watch view now => exact h.advance
  | interrupt => exact h.moved ⟨rfl, rfl, rfl, rfl⟩ rfl id

structure Unpolled (c : Console) : Prop where
  printed : c.printed = []
  previous : c.observer.previous = none
  memory : c.observer.memory = .new

/-- In every run each line gives the figures of the samples printed so far: the processor share
from the line before to this one, and the trend of all of them. -/
theorem output_replays (options : ConsoleOptions) (uid : UInt32) (hc : c.Unpolled)
    (es : List ConsoleEvent) :
    Recomputed c.observer.clockTicksPerSecond c.observer.process.identity
      (run (step options uid) c es).observations := by
  have hobs : c.observations = [] := by rw [observations, hc.printed, List.map_nil]
  have hstart : Replays c.observer.clockTicksPerSecond c.observer.process.identity c := by
    refine ⟨rfl, rfl, fun seen o h => ?_, fun _ => ?_, fun _ => ?_⟩
    · rw [hobs, List.prefix_nil] at h
      exact absurd h (by simp)
    · rw [hobs, hc.memory]
      rfl
    · rw [hobs, hc.previous]
      rfl
  exact (invariant_of_step
    (I := Replays c.observer.clockTicksPerSecond c.observer.process.identity)
    (fun _ e h => h.step e) hstart es).lines

end Console

/-- The share from one sample to a later one as the program computes it, every operation
rounded. -/
def ProcessSample.doubleShare (ticksPerSecond : ℕ+) (previous sample : ProcessSample) : ℚ :=
  let elapsed := double (double (sample.sampledAtNs - previous.sampledAtNs).toNat / 1000000000)
  double (double (double (sample.cpuTicks - previous.cpuTicks).toNat * 100) /
    double (double (ticksPerSecond : ℕ) * elapsed))

/-- The processor time, in seconds, that the share of a line stands for since the line before.
`shown` is how the share is read off the two lines. -/
def cpuSecondsBetween (shown : ProcessObservation → ProcessObservation → ℚ)
    (a b : ProcessObservation) : ℚ :=
  match a.sample, b.sample with
  | some p, some s => shown a b / 100 * ((s.sampledAtNs - p.sampledAtNs).toNat / 1000000000)
  | _, _ => 0

def cpuSeconds (shown : ProcessObservation → ProcessObservation → ℚ) :
    List ProcessObservation → ℚ
  | a :: b :: rest => cpuSecondsBetween shown a b + cpuSeconds shown (b :: rest)
  | _ => 0

def exactShare (_ b : ProcessObservation) : ℚ := b.cpuPercent.getD 0

/-- The share that is printed, to the tenth. -/
def printedShare (_ b : ProcessObservation) : ℚ := (fixed 1 (b.cpuPercent.getD 0)).units / 10

/-- The share that is printed when it has been computed with `double`. -/
def printedDouble (ticksPerSecond : ℕ+) (a b : ProcessObservation) : ℚ :=
  match a.sample, b.sample with
  | some p, some s => (fixed 1 (p.doubleShare ticksPerSecond s)).units / 10
  | _, _ => 0

/-- Time passes from one sample to the next, and its processor time has not been lost. -/
def ProcessSample.Precedes (p s : ProcessSample) : Prop :=
  p.sampledAtNs < s.sampledAtNs ∧ p.cpuTicks ≤ s.cpuTicks

instance (p s : ProcessSample) : Decidable (p.Precedes s) := inferInstanceAs (Decidable (_ ∧ _))

section Accounting

variable {ticks : ℕ+} {p s : ProcessSample}

theorem elapsed_pos (h : p.Precedes s) :
    (0 : ℚ) < ((s.sampledAtNs - p.sampledAtNs).toNat : ℚ) := by
  have hlt := UInt64.lt_iff_toNat_lt.mp h.1
  rw [UInt64.toNat_sub_of_le _ _ (UInt64.le_of_lt h.1)]
  exact_mod_cast Nat.sub_pos_of_lt hlt

theorem share_of_precedes (ticks : ℕ+) (h : p.Precedes s) :
    ∃ share, p.share ticks s = some share ∧ 0 ≤ share ∧
      share / 100 * ((s.sampledAtNs - p.sampledAtNs).toNat / 1000000000) =
        ((s.cpuTicks.toNat : ℚ) - p.cpuTicks.toNat) / (ticks : ℕ) := by
  have htime := elapsed_pos h
  have hticks : ((s.cpuTicks - p.cpuTicks).toNat : ℚ) = s.cpuTicks.toNat - p.cpuTicks.toNat := by
    rw [UInt64.toNat_sub_of_le _ _ h.2, Nat.cast_sub (UInt64.le_iff_toNat_le.mp h.2)]
  have hpos : (0 : ℚ) < (ticks : ℕ) := by exact_mod_cast ticks.pos
  refine ⟨_, if_pos ⟨h.1, h.2⟩, by positivity, ?_⟩
  rw [hticks]
  field_simp

variable {shown : ProcessObservation → ProcessObservation → ℚ} {error slack : ℚ}

/-- The share is shown with an error of some hundredths, and of a part of itself. -/
def Shows (shown : ProcessObservation → ProcessObservation → ℚ) (ticks : ℕ+) (error slack : ℚ) :
    Prop :=
  ∀ a b p s share, a.sample = some p → b.sample = some s → p.Precedes s →
    b.cpuPercent = p.share ticks s → p.share ticks s = some share →
    |shown a b - share| ≤ error + slack * share

theorem exactShare_shows (ticks : ℕ+) : Shows exactShare ticks 0 0 := by
  intro a b p s share _ _ _ hcpu hshare
  rw [exactShare, hcpu, hshare, Option.getD_some]
  simp

theorem abs_printed_sub_le {x : ℚ} (hx : 0 ≤ x) : |((fixed 1 x).units : ℚ) / 10 - x| ≤ 1 / 20 := by
  have hunits := abs_units_sub_le (p := 1) hx
  norm_num at hunits
  exact hunits.trans (by norm_num)

theorem printedShare_shows (ticks : ℕ+) : Shows printedShare ticks (1 / 20) 0 := by
  intro a b p s share _ _ h hcpu hshare
  obtain ⟨_, hs, hnonneg, -⟩ := share_of_precedes ticks h
  obtain rfl := Option.some.inj (hshare.symm.trans hs)
  rw [printedShare, hcpu, hshare, Option.getD_some, zero_mul, add_zero]
  exact abs_printed_sub_le hnonneg

/-- Seven operations are rounded on the way to a share. -/
theorem rounded_share (ticks : ℕ+) (h : p.Precedes s) {share : ℚ}
    (hs : p.share ticks s = some share) :
    BinaryFloat.Rounded 52 7 (p.doubleShare ticks s) share := by
  have htime := elapsed_pos h
  have hpos : (0 : ℚ) < (ticks : ℕ) := by exact_mod_cast ticks.pos
  have hnat (n : Nat) : BinaryFloat.Rounded 52 1 (double n) n :=
    (BinaryFloat.Rounded.refl 52 (Nat.cast_nonneg n)).round
  have hticks := ((hnat (s.cpuTicks - p.cpuTicks).toNat).mul
    (.refl 52 (x := 100) (by norm_num))).round
  have helapsed := ((hnat (s.sampledAtNs - p.sampledAtNs).toNat).div
    (.refl 52 (x := 1000000000) (by norm_num)) (by norm_num)).round
  have hwhole := (hticks.div ((hnat ticks).mul helapsed).round (by positivity)).round
  obtain rfl := Option.some.inj (hs.symm.trans (if_pos ⟨h.1, h.2⟩))
  exact hwhole

theorem printedDouble_shows (ticks : ℕ+) :
    Shows (printedDouble ticks) ticks (1 / 20) (1 / 2 ^ 49) := by
  intro a b p s share ha hb h hcpu hshare
  have hround := rounded_share ticks h hshare
  have hprinted := abs_printed_sub_le hround.nonneg
  have hdouble := hround.abs_sub_le (by norm_num)
  have hseven : share * ((7 : ℕ) / 2 ^ 52) ≤ 1 / 2 ^ 49 * share := by
    rw [mul_comm]
    exact mul_le_mul_of_nonneg_right (by norm_num) hround.nonneg_right
  simp only [printedDouble, ha, hb]
  have hboth := abs_sub_le ((fixed 1 (p.doubleShare ticks s)).units / 10 : ℚ)
    (p.doubleShare ticks s) share
  linarith

theorem cpuSeconds_concat (l : List ProcessObservation) (a b : ProcessObservation) :
    cpuSeconds shown (l ++ [a] ++ [b]) =
      cpuSeconds shown (l ++ [a]) + cpuSecondsBetween shown a b := by
  induction l with
  | nil => simp [cpuSeconds]
  | cons c l ih =>
    cases l with
    | nil => simp [cpuSeconds]
    | cons d l =>
      simp only [List.cons_append, cpuSeconds] at ih ⊢
      rw [ih, add_assoc]

/-- A share with an error of some hundredths gives a time with as many for each second. -/
theorem cpuSecondsBetween_near (hshown : Shows shown ticks error slack) (h : p.Precedes s)
    {a b : ProcessObservation} (hp : a.sample = some p) (hs : b.sample = some s)
    (hcpu : b.cpuPercent = p.share ticks s) :
    |cpuSecondsBetween shown a b -
        ((s.cpuTicks.toNat : ℚ) - p.cpuTicks.toNat) / (ticks : ℕ)| ≤
      error / 100 * (((s.sampledAtNs.toNat : ℚ) - p.sampledAtNs.toNat) / 1000000000) +
        slack * (((s.cpuTicks.toNat : ℚ) - p.cpuTicks.toNat) / (ticks : ℕ)) := by
  obtain ⟨share, hshare, -, hamount⟩ := share_of_precedes ticks h
  have htime : ((s.sampledAtNs - p.sampledAtNs).toNat : ℚ) =
      s.sampledAtNs.toNat - p.sampledAtNs.toNat := by
    rw [UInt64.toNat_sub_of_le _ _ (UInt64.le_of_lt h.1),
      Nat.cast_sub (UInt64.lt_iff_toNat_lt.mp h.1).le]
  have helapsed : (0 : ℚ) ≤ ((s.sampledAtNs - p.sampledAtNs).toNat : ℚ) / 1000000000 :=
    (div_pos (elapsed_pos h) (by norm_num)).le
  have herror := div_le_div_of_nonneg_right (hshown a b p s share hp hs h hcpu hshare)
    (by norm_num : (0 : ℚ) ≤ 100)
  rw [← hamount, cpuSecondsBetween, hp, hs, ← sub_mul, ← sub_div, abs_mul,
    abs_of_nonneg helapsed, abs_div]
  rw [htime] at helapsed ⊢
  refine (mul_le_mul_of_nonneg_right herror helapsed).trans (le_of_eq ?_)
  ring

theorem cpuSeconds_near (hshown : Shows shown ticks error slack)
    {lines : List ProcessObservation} {identity : ProcessIdentity}
    (h : Recomputed ticks identity lines)
    (hs : (lines.filterMap (·.sample)).IsChain ProcessSample.Precedes) {first last : ProcessSample}
    (hf : lines.head?.bind (·.sample) = some first)
    (hl : lines.getLast?.bind (·.sample) = some last) :
    |cpuSeconds shown lines - ((last.cpuTicks.toNat : ℚ) - first.cpuTicks.toNat) / (ticks : ℕ)| ≤
      error / 100 * (((last.sampledAtNs.toNat : ℚ) - first.sampledAtNs.toNat) / 1000000000) +
        slack * (((last.cpuTicks.toNat : ℚ) - first.cpuTicks.toNat) / (ticks : ℕ)) := by
  induction lines using List.reverseRecOn generalizing last with
  | nil => cases hf
  | append_singleton lines b ih =>
    obtain ⟨s, hsample, -, hcpu⟩ := (h lines b List.prefix_rfl).sample
    rw [List.getLast?_concat, Option.bind_some, hsample] at hl
    obtain rfl := Option.some.inj hl
    cases lines using List.reverseRecOn with
    | nil =>
      rw [List.nil_append, List.head?_cons, Option.bind_some, hsample] at hf
      obtain rfl := Option.some.inj hf
      simp [cpuSeconds]
    | append_singleton lines a _ =>
      obtain ⟨p, hp, -⟩ := (h lines a (List.prefix_append _ _)).sample
      rw [List.filterMap_append, List.isChain_append] at hs
      have hprec : p.Precedes s := by
        refine hs.2.2 p ?_ s ?_
        · simp [hp]
        · simp [hsample]
      rw [List.getLast?_concat, Option.bind_some, hp, Option.bind_some] at hcpu
      have hbetween := cpuSecondsBetween_near hshown hprec hp hsample hcpu
      have hinit := ih (fun seen o ho => h seen o (ho.trans (List.prefix_append _ _)))
        hs.1 (by simpa using hf) (by rw [List.getLast?_concat, Option.bind_some, hp])
      have hsum := (abs_add_le _ _).trans (add_le_add hinit hbetween)
      rw [cpuSeconds_concat]
      refine (le_of_eq (congrArg _ ?_)).trans (hsum.trans (le_of_eq ?_)) <;> ring

end Accounting

namespace Console

variable {options : ConsoleOptions} {uid : UInt32} {c : Console}

/-- The shares on the output add up: from the first sample to the last, they stand for all the
processor time that the process has used meanwhile, but for half a tenth of a per cent of the
time that has passed, and for a part in 2 ^ 49 where they are computed with `double`. Before
they are rounded they stand for it exactly. -/
theorem cpu_accounted (options : ConsoleOptions) (uid : UInt32) (hc : c.Unpolled)
    (es : List ConsoleEvent) (first last : ProcessSample)
    (hf : (run (step options uid) c es).observations.head?.bind (·.sample) = some first)
    (hl : (run (step options uid) c es).observations.getLast?.bind (·.sample) = some last)
    (hs : ((run (step options uid) c es).observations.filterMap (·.sample)).IsChain
      ProcessSample.Precedes) :
    let ticks := c.observer.clockTicksPerSecond
    let lines := (run (step options uid) c es).observations
    let used := ((last.cpuTicks.toNat : ℚ) - first.cpuTicks.toNat) / (ticks : ℕ)
    let elapsed := ((last.sampledAtNs.toNat : ℚ) - first.sampledAtNs.toNat) / 1000000000
    |cpuSeconds (printedDouble ticks) lines - used| ≤ elapsed / 2000 + used / 2 ^ 49 ∧
      |cpuSeconds printedShare lines - used| ≤ elapsed / 2000 ∧
      cpuSeconds exactShare lines = used := by
  have hlines := output_replays options uid hc es
  have hdouble := cpuSeconds_near (printedDouble_shows _) hlines hs hf hl
  have hprinted := cpuSeconds_near (printedShare_shows _) hlines hs hf hl
  have hexact := cpuSeconds_near (exactShare_shows _) hlines hs hf hl
  refine ⟨hdouble.trans (le_of_eq ?_), hprinted.trans (le_of_eq ?_), ?_⟩
  · ring
  · ring
  · rw [zero_div, zero_mul, zero_mul, add_zero] at hexact
    exact sub_eq_zero.mp (abs_nonpos_iff.mp hexact)

/-- A process that has used `ticks` of processor time. -/
def used (ticks : UInt64) : ProcessView where
  status := some ⟨⟨1, 1⟩, {}⟩
  stat := some ⟨⟨1, 1⟩, ticks, 1⟩
  exitReadable := false
  noSuchProcess := false

def unpolled : Console := start { pid := 1 } 0 ⟨⟨1, 1⟩, true⟩ []

/-- Two polls, three seconds apart, with a third of a per cent between them. -/
def polls : List ConsoleEvent :=
  List.replicate 5 (.watch (used 10) 1000000000) ++ List.replicate 5 (.watch (used 11) 4000000000)

theorem output_replays_polls :
    Recomputed 100 ⟨1, 1⟩ (run (step { pid := 1 } 0) unpolled polls).observations :=
  output_replays { pid := 1 } 0 (c := unpolled) ⟨rfl, rfl, rfl⟩ polls

theorem cpu_accounted_polls :
    let ticks := unpolled.observer.clockTicksPerSecond
    let lines := (run (step { pid := 1 } 0) unpolled polls).observations
    let used := (((11 : UInt64).toNat : ℚ) - (10 : UInt64).toNat) / (ticks : ℕ)
    let elapsed := (((4000000000 : UInt64).toNat : ℚ) - (1000000000 : UInt64).toNat) / 1000000000
    |cpuSeconds (printedDouble ticks) lines - used| ≤ elapsed / 2000 + used / 2 ^ 49 ∧
      |cpuSeconds printedShare lines - used| ≤ elapsed / 2000 ∧
      cpuSeconds exactShare lines = used :=
  cpu_accounted { pid := 1 } 0 (c := unpolled) ⟨rfl, rfl, rfl⟩ polls
    ⟨⟨1, 1⟩, {}, ⟨1, 1⟩, 10, ⟨1, 1⟩, 1000000000⟩ ⟨⟨1, 1⟩, {}, ⟨1, 1⟩, 11, ⟨1, 1⟩, 4000000000⟩
    rfl rfl (by decide)

end Console

end Peepbooth
