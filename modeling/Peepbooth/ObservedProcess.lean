import Peepbooth.Watchdog
import Peepbooth.MemoryTrend
import Mathlib.Data.PNat.Basic

/-! The watcher's owner of one process: what it reads in a poll and what it
makes of it. -/

namespace Peepbooth

inductive ObservationStatus
  | notAttached
  | sampled
  | sampleUnavailable
  | identityChanged
  | exited
  deriving DecidableEq, Repr

structure ProcessObservation where
  identity : ProcessIdentity := {}
  observedAtNs : UInt64 := 0
  status : ObservationStatus := .notAttached
  watchdog : WatchdogSnapshot := {}
  sample : Option ProcessSample := none
  cpuPercent : Option ℚ := none
  memory : MemoryTrendSummary := {}
  responsiveness : Option Health := none

/-- What `clock_ticks_per_second` falls back on. -/
def fallbackClockTicksPerSecond : ℕ+ := 100

/-- `attached`: `session_` holds a mapping. -/
structure ObservedProcess where
  process : ProcessHandle
  attached : Bool := false
  staleAfterNs : UInt64 := 3000000000
  clockTicksPerSecond : ℕ+ := fallbackClockTicksPerSecond
  previous : Option ProcessSample := none
  memory : MemoryTrend := MemoryTrend.new
  latest : ProcessObservation := {}

/-- What a poll has read once it knows its time of observation. -/
structure PollReads where
  sample : Option ProcessSample
  snapshot : WatchdogSnapshot
  isAlive : Bool
  now : UInt64

def pollReads (process : ProcessHandle) : Reads PollReads := do
  let sample ← sampleProcess process.identity.pid
  let snapshot ← snapshot
  let isAlive ← process.alive
  let now ← .read .observedAt (·.clock)
  pure ⟨sample, snapshot, isAlive, now⟩

theorem pollReads_eq (process : ProcessHandle) :
    pollReads process = (sampleProcess process.identity.pid).bind fun sample =>
      snapshot.bind fun snapshot => process.alive.bind fun isAlive =>
        .load .observedAt fun w => .done ⟨sample, snapshot, isAlive, w.clock⟩ := rfl

namespace ObservedProcess

/-- The CPU share between two samples that can be compared. -/
def cpuPercent (o : ObservedProcess) (sample : ProcessSample) : Option ℚ :=
  o.previous.bind fun previous =>
    if sample.sampledAtNs > previous.sampledAtNs ∧ sample.cpuTicks ≥ previous.cpuTicks then
      let elapsed : ℚ := (sample.sampledAtNs - previous.sampledAtNs).toNat / 1000000000
      some ((sample.cpuTicks - previous.cpuTicks).toNat * 100 /
        ((o.clockTicksPerSecond : ℕ) * elapsed))
    else none

def acceptSample (o : ObservedProcess) (sample : Option ProcessSample)
    (snapshot : WatchdogSnapshot) (observedAtNs : UInt64) : ObservedProcess :=
  let latest : ProcessObservation :=
    { identity := o.process.identity
      observedAtNs := observedAtNs
      watchdog := snapshot
      memory := o.memory.summary }
  match sample with
  | none => { o with latest := { latest with status := .sampleUnavailable }, previous := none }
  | some sample =>
    if sample.identity.pid ≠ latest.identity.pid ∨
        sample.identity.startTicks ≠ latest.identity.startTicks then
      { o with latest := { latest with status := .identityChanged }, previous := none }
    else
      let cpuPercent := o.cpuPercent sample
      let memory := o.memory.add sample.sampledAtNs sample.memory.rssBytes
      { o with
        memory := memory
        previous := some sample
        latest := { latest with
          status := .sampled
          sample := some sample
          cpuPercent := cpuPercent
          memory := memory.summary
          responsiveness := some
            (classifyHealth snapshot observedAtNs o.staleAfterNs (cpuPercent.getD 0)) } }

/-- What `poll` records once it has read everything. -/
def conclude (o : ObservedProcess) (r : PollReads) : ObservedProcess :=
  if r.isAlive then o.acceptSample r.sample r.snapshot r.now
  else
    let o := o.acceptSample none r.snapshot r.now
    { o with latest := { o.latest with status := .exited } }

theorem acceptSample_process (o : ObservedProcess) (sample : Option ProcessSample)
    (w : WatchdogSnapshot) (now : UInt64) :
    (o.acceptSample sample w now).process = o.process := by
  cases sample with
  | none => rfl
  | some sample => simp only [acceptSample]; split <;> rfl

theorem conclude_process (o : ObservedProcess) (r : PollReads) :
    (o.conclude r).process = o.process := by
  simp only [conclude]
  split <;> exact acceptSample_process _ _ _ _

theorem acceptSample_watchdog (o : ObservedProcess) (sample : Option ProcessSample)
    (w : WatchdogSnapshot) (now : UInt64) :
    (o.acceptSample sample w now).latest.watchdog = w := by
  cases sample with
  | none => rfl
  | some sample => simp only [acceptSample]; split <;> rfl

theorem acceptSample_status (o : ObservedProcess) (sample : Option ProcessSample)
    (w : WatchdogSnapshot) (now : UInt64) :
    (o.acceptSample sample w now).latest.status ≠ .exited := by
  cases sample with
  | none => simp [acceptSample]
  | some sample => simp only [acceptSample]; split <;> simp

theorem conclude_watchdog (o : ObservedProcess) (r : PollReads) :
    (o.conclude r).latest.watchdog = r.snapshot := by
  simp only [conclude]
  split <;> exact acceptSample_watchdog _ _ _ _

theorem conclude_status (o : ObservedProcess) (r : PollReads) :
    (o.conclude r).latest.status = .exited ↔ r.isAlive = false := by
  cases hr : r.isAlive with
  | false => simp [conclude, hr]
  | true => simpa [conclude, hr] using acceptSample_status _ _ _ _

theorem conclude_of_sample {o : ObservedProcess} {r : PollReads} {sample : ProcessSample}
    (ha : r.isAlive = true) (hs : r.sample = some sample)
    (hi : sample.identity = o.process.identity) : (o.conclude r).latest.status = .sampled := by
  simp [conclude, acceptSample, ha, hs, hi]

theorem conclude_of_no_sample {o : ObservedProcess} {r : PollReads} (ha : r.isAlive = true)
    (hs : r.sample = none) : (o.conclude r).latest.status = .sampleUnavailable := by
  simp [conclude, acceptSample, ha, hs]

theorem acceptSample_staleAfterNs (o : ObservedProcess) (sample : Option ProcessSample)
    (w : WatchdogSnapshot) (now : UInt64) :
    (o.acceptSample sample w now).staleAfterNs = o.staleAfterNs := by
  cases sample with
  | none => rfl
  | some sample => simp only [acceptSample]; split <;> rfl

theorem conclude_staleAfterNs (o : ObservedProcess) (r : PollReads) :
    (o.conclude r).staleAfterNs = o.staleAfterNs := by
  simp only [conclude]
  split <;> exact acceptSample_staleAfterNs _ _ _ _

theorem acceptSample_observedAtNs (o : ObservedProcess) (sample : Option ProcessSample)
    (w : WatchdogSnapshot) (now : UInt64) :
    (o.acceptSample sample w now).latest.observedAtNs = now := by
  cases sample with
  | none => rfl
  | some sample => simp only [acceptSample]; split <;> rfl

theorem conclude_observedAtNs (o : ObservedProcess) (r : PollReads) :
    (o.conclude r).latest.observedAtNs = r.now := by
  simp only [conclude]
  split <;> exact acceptSample_observedAtNs _ _ _ _

/-- What a poll that counts as sampled has found. -/
theorem conclude_sampled {o : ObservedProcess} {r : PollReads}
    (h : (o.conclude r).latest.status = .sampled) :
    r.isAlive = true ∧ ∃ sample, r.sample = some sample ∧ sample.identity = o.process.identity ∧
      (o.conclude r).latest.sample = some sample ∧
      ∃ cpu, (o.conclude r).latest.responsiveness =
        some (classifyHealth r.snapshot r.now o.staleAfterNs cpu) := by
  cases hr : r.isAlive with
  | false => simp [conclude, hr] at h
  | true =>
    simp only [conclude, hr, if_true, acceptSample] at h ⊢
    split at h
    · cases h
    · next sample hs =>
      split at h
      · cases h
      · next hid =>
        rw [not_or, not_not, not_not] at hid
        rw [hs]
        simp only [hid, ne_eq, not_true, or_self, if_false]
        exact ⟨trivial, sample, rfl, ProcessIdentity.ext hid.1 hid.2, rfl, _, rfl⟩

/-- `observed_process::poll`, run alone: the owner and the shared state it leaves. -/
def poll (o : ObservedProcess) (w : World) : ObservedProcess × SharedState :=
  if o.attached then
    let r := (pollReads o.process).run w
    (o.conclude r, if r.isAlive then w.mem.renewLease r.now else w.mem)
  else
    ({ o with latest := { identity := o.process.identity, observedAtNs := w.clock } }, w.mem)

end ObservedProcess

end Peepbooth
