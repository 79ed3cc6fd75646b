import Peepbooth.ObservedProcess
import Peepbooth.TrendWindow

/-! The record that the owner of a process keeps over any sequence of samples,
good, foreign or missing, and of polls that find the process gone. -/

namespace Peepbooth

/-- What can happen to an attached owner. -/
inductive OwnerCall
  | accept (sample : Option ProcessSample) (snapshot : WatchdogSnapshot) (observedAtNs : UInt64)
  | exited (sample : Option ProcessSample) (snapshot : WatchdogSnapshot) (now : UInt64)

/-- The sample that a call of an owner of `identity` accepts. -/
def OwnerCall.sampled (identity : ProcessIdentity) : OwnerCall → Option ProcessSample
  | .accept (some sample) _ _ => if sample.identity = identity then some sample else none
  | _ => none

def ProcessSample.point (sample : ProcessSample) : TrendPoint :=
  ⟨sample.sampledAtNs, sample.memory.rssBytes⟩

namespace ObservedProcess

def new (process : ProcessHandle) (staleAfterNs : UInt64) (clockTicksPerSecond : ℕ+) :
    ObservedProcess where
  process := process
  staleAfterNs := staleAfterNs
  clockTicksPerSecond := clockTicksPerSecond
  latest := { identity := process.identity }

def take (o : ObservedProcess) : OwnerCall → ObservedProcess
  | .accept sample snapshot observedAtNs => o.acceptSample sample snapshot observedAtNs
  | .exited sample snapshot now => o.conclude ⟨sample, snapshot, false, now⟩

def taken (process : ProcessHandle) (staleAfterNs : UInt64) (clockTicksPerSecond : ℕ+)
    (calls : List OwnerCall) : ObservedProcess :=
  calls.foldl take { new process staleAfterNs clockTicksPerSecond with attached := true }

/-- The samples accepted so far, as points of a trend. -/
def fed (identity : ProcessIdentity) (calls : List OwnerCall) : List TrendPoint :=
  calls.filterMap fun call => (call.sampled identity).map ProcessSample.point

/-- The share of `later` in the time since `earlier`, where both can be compared. -/
def Share (clockTicksPerSecond : ℕ+) (earlier later : ProcessSample) (cpu : ℚ) : Prop :=
  let divisor : ℚ := (clockTicksPerSecond : ℕ) *
    (((later.sampledAtNs.toNat : ℚ) - earlier.sampledAtNs.toNat) / 1000000000)
  earlier.sampledAtNs < later.sampledAtNs ∧ earlier.cpuTicks ≤ later.cpuTicks ∧ divisor ≠ 0 ∧
    cpu = 100 * ((later.cpuTicks.toNat : ℚ) - earlier.cpuTicks.toNat) / divisor

/-- The record of `o`, which was `before` until its last call, `call`. The trend
has been fed `points`. -/
structure Recorded (before o : ObservedProcess) (call : OwnerCall) (points : List TrendPoint) :
    Prop where
  identity : o.latest.identity = o.process.identity
  sample : o.latest.sample = call.sampled o.process.identity
  sample_iff : o.latest.status = .sampled ↔ o.latest.sample.isSome = true
  responsiveness_iff : o.latest.status = .sampled ↔ o.latest.responsiveness.isSome = true
  own : ∀ sample, o.latest.sample = some sample → sample.identity = o.process.identity
  cpu_iff : ∀ cpu, o.latest.cpuPercent = some cpu ↔
    ∃ earlier later, before.latest.sample = some earlier ∧ o.latest.sample = some later ∧
      Share o.clockTicksPerSecond earlier later cpu
  memory : o.latest.memory = (MemoryTrend.new.addAll points).summary

/-- What the owner keeps for its next call. -/
structure Ready (process : ProcessHandle) (clockTicksPerSecond : ℕ+) (calls : List OwnerCall)
    (o : ObservedProcess) : Prop where
  own : o.process = process
  ticks : o.clockTicksPerSecond = clockTicksPerSecond
  previous : o.previous = o.latest.sample
  memory : o.memory = MemoryTrend.new.addAll (fed process.identity calls)

variable {process : ProcessHandle} {clockTicksPerSecond : ℕ+} {calls : List OwnerCall}
  {o : ObservedProcess}

theorem cpuPercent_iff (o : ObservedProcess) (later : ProcessSample) (cpu : ℚ) :
    o.cpuPercent later = some cpu ↔
      ∃ earlier, o.previous = some earlier ∧ Share o.clockTicksPerSecond earlier later cpu := by
  rw [cpuPercent, Option.bind_eq_some_iff]
  refine exists_congr fun earlier => and_congr_right fun _ => ?_
  have hsub : ∀ {a b : UInt64}, a ≤ b → ((b - a).toNat : ℚ) = b.toNat - a.toNat := by
    intro a b hab
    rw [UInt64.toNat_sub_of_le _ _ hab, Nat.cast_sub (UInt64.le_iff_toNat_le.mp hab)]
  have hne : earlier.sampledAtNs < later.sampledAtNs →
      (o.clockTicksPerSecond : ℚ) *
        (((later.sampledAtNs.toNat : ℚ) - earlier.sampledAtNs.toNat) / 1000000000) ≠ 0 := by
    intro h
    have hlt : (earlier.sampledAtNs.toNat : ℚ) < later.sampledAtNs.toNat :=
      Nat.cast_lt.mpr (UInt64.lt_iff_toNat_lt.mp h)
    have hc : (0 : ℚ) < (o.clockTicksPerSecond : ℕ) := Nat.cast_pos.mpr o.clockTicksPerSecond.pos
    exact (mul_pos hc (div_pos (sub_pos.mpr hlt) (by norm_num))).ne'
  rw [Share]
  split
  · next h =>
    rw [hsub (UInt64.le_of_lt h.1), hsub h.2, Option.some.injEq, mul_comm _ (100 : ℚ)]
    exact ⟨fun he => ⟨h.1, h.2, hne h.1, he.symm⟩, fun he => he.2.2.2.symm⟩
  · next h =>
    exact iff_of_false (by simp) fun hn => h ⟨hn.1, hn.2.1⟩

theorem Ready.new (process : ProcessHandle) (staleAfterNs : UInt64) (clockTicksPerSecond : ℕ+) :
    Ready process clockTicksPerSecond [] (taken process staleAfterNs clockTicksPerSecond []) :=
  ⟨rfl, rfl, rfl, rfl⟩

theorem fed_concat (identity : ProcessIdentity) (calls : List OwnerCall) (call : OwnerCall) :
    fed identity (calls ++ [call]) =
      fed identity calls ++ ((call.sampled identity).map ProcessSample.point).toList := by
  rw [fed, List.filterMap_append]
  cases hc : call.sampled identity <;> simp [fed, hc]

theorem Ready.missed (h : Ready process clockTicksPerSecond calls o) {call : OwnerCall}
    {status : ObservationStatus} {snapshot : WatchdogSnapshot} {now : UInt64}
    (hc : call.sampled process.identity = none) (hs : status ≠ .sampled)
    (ho : o.take call = { o with
      previous := none
      latest := {
        identity := o.process.identity
        observedAtNs := now
        status := status
        watchdog := snapshot
        memory := o.memory.summary } }) :
    Recorded o (o.take call) call (fed process.identity (calls ++ [call])) ∧
      Ready process clockTicksPerSecond (calls ++ [call]) (o.take call) := by
  have hfed : fed process.identity (calls ++ [call]) = fed process.identity calls := by
    rw [fed_concat, hc, Option.map_none, Option.toList_none, List.append_nil]
  rw [ho, hfed]
  refine ⟨⟨rfl, ?_, ?_, ?_, ?_, ?_, ?_⟩, h.own, h.ticks, rfl, ?_⟩
  · rw [h.own, hc]
  · simp [hs]
  · simp [hs]
  · simp
  · simp
  · rw [h.memory]
  · rw [h.memory, hfed]

theorem Ready.sampled (h : Ready process clockTicksPerSecond calls o) {sample : ProcessSample}
    (hid : sample.identity = process.identity) (snapshot : WatchdogSnapshot) (now : UInt64) :
    let call := OwnerCall.accept (some sample) snapshot now
    Recorded o (o.take call) call (fed process.identity (calls ++ [call])) ∧
      Ready process clockTicksPerSecond (calls ++ [call]) (o.take call) := by
  intro call
  have hc : call.sampled process.identity = some sample := if_pos hid
  have hfed : MemoryTrend.new.addAll (fed process.identity (calls ++ [call])) =
      o.memory.add sample.sampledAtNs sample.memory.rssBytes := by
    rw [fed_concat, hc, Option.map_some, Option.toList_some, MemoryTrend.addAll_concat, h.memory]
    rfl
  have hacc : ¬(sample.identity.pid ≠ o.process.identity.pid ∨
      sample.identity.startTicks ≠ o.process.identity.startTicks) := by
    rw [hid, h.own, not_or, not_not, not_not]
    exact ⟨rfl, rfl⟩
  have ho : o.take call = { o with
      memory := o.memory.add sample.sampledAtNs sample.memory.rssBytes
      previous := some sample
      latest := {
        identity := o.process.identity
        observedAtNs := now
        status := .sampled
        watchdog := snapshot
        sample := some sample
        cpuPercent := o.cpuPercent sample
        memory := (o.memory.add sample.sampledAtNs sample.memory.rssBytes).summary
        responsiveness := some
          (classifyHealth snapshot now o.staleAfterNs ((o.cpuPercent sample).getD 0)) } } :=
    if_neg hacc
  rw [ho]
  refine ⟨⟨rfl, ?_, ?_, ?_, ?_, fun cpu => ?_, ?_⟩, h.own, h.ticks, rfl, hfed.symm⟩
  · rw [h.own, hc]
  · simp
  · simp
  · rintro _ ⟨⟩
    rw [hid, h.own]
  · rw [cpuPercent_iff, h.previous]
    simp
  · rw [hfed]

theorem Ready.take (h : Ready process clockTicksPerSecond calls o) (call : OwnerCall) :
    Recorded o (o.take call) call (fed process.identity (calls ++ [call])) ∧
      Ready process clockTicksPerSecond (calls ++ [call]) (o.take call) := by
  rcases call with ⟨sample, snapshot, now⟩ | ⟨sample, snapshot, now⟩
  · rcases sample with _ | sample
    · exact h.missed rfl (by simp) rfl
    by_cases hid : sample.identity = process.identity
    · exact h.sampled hid snapshot now
    · have hchanged : ObservationStatus.identityChanged ≠ .sampled := by simp
      refine h.missed (if_neg hid) hchanged (if_pos ?_)
      rw [h.own]
      by_contra hn
      rw [not_or, not_not, not_not] at hn
      exact hid (ProcessIdentity.ext hn.1 hn.2)
  · exact h.missed rfl (by simp) rfl

theorem taken_concat (process : ProcessHandle) (staleAfterNs : UInt64)
    (clockTicksPerSecond : ℕ+) (calls : List OwnerCall) (call : OwnerCall) :
    taken process staleAfterNs clockTicksPerSecond (calls ++ [call]) =
      (taken process staleAfterNs clockTicksPerSecond calls).take call := by
  simp [taken]

theorem Ready.taken (process : ProcessHandle) (staleAfterNs : UInt64)
    (clockTicksPerSecond : ℕ+) (calls : List OwnerCall) :
    Ready process clockTicksPerSecond calls
      (taken process staleAfterNs clockTicksPerSecond calls) := by
  induction calls using List.reverseRecOn with
  | nil => exact Ready.new process staleAfterNs clockTicksPerSecond
  | append_singleton calls call ih =>
    rw [taken_concat]
    exact (ih.take call).2

/-- After every call, whatever the calls before it were, the record is of this
process, and its trend has been fed the accepted samples of the whole run. -/
theorem record_of_run (process : ProcessHandle) (staleAfterNs : UInt64)
    (clockTicksPerSecond : ℕ+) (calls : List OwnerCall) (call : OwnerCall) :
    let before := ObservedProcess.taken process staleAfterNs clockTicksPerSecond calls
    let o := ObservedProcess.taken process staleAfterNs clockTicksPerSecond (calls ++ [call])
    o.process = process ∧ o.clockTicksPerSecond = clockTicksPerSecond ∧
      Recorded before o call (fed process.identity (calls ++ [call])) := by
  intro before o
  have hstep := (Ready.taken process staleAfterNs clockTicksPerSecond calls).take call
  rw [← taken_concat] at hstep
  exact ⟨hstep.2.own, hstep.2.ticks, hstep.1⟩

end ObservedProcess

end Peepbooth
