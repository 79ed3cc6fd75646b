import Peepbooth.ConsoleWatch
import Peepbooth.Health

/-! What the console watcher calls a process, in terms of what the history of the
mapping let the process publish. -/

namespace Peepbooth

open Schedule

def guiIndex : Fin heartbeatChannelCount := 1

/-- The snapshot of a channel, as a ledger tells it. -/
def Ledger.heartbeat (l : Ledger) (sequence : Fin heartbeatChannelCount → UInt64)
    (i : Fin heartbeatChannelCount) : HeartbeatSnapshot :=
  ⟨⟨i.val.toUInt8 + 1⟩, l.active i, (l.published i).getD 0, sequence i⟩

def Ledger.Recent (l : Ledger) (i : Fin heartbeatChannelCount) (now staleAfter : UInt64) : Prop :=
  ∃ t, l.published i = some t ∧ t ≠ 0 ∧ now.toNat ≤ t.toNat + staleAfter.toNat

/-- Some active channel was published recently, and so was the gui channel if it
is active. -/
def Ledger.Prompt (l : Ledger) (now staleAfter : UInt64) : Prop :=
  (∃ i, l.active i = true ∧ l.Recent i now staleAfter) ∧
    (l.active guiIndex = true → l.Recent guiIndex now staleAfter)

variable {l : Ledger} {sequence : Fin heartbeatChannelCount → UInt64} {now staleAfter : UInt64}
  {i : Fin heartbeatChannelCount} {process : ProcessHandle} {uid : UInt32} {name : List UInt8}
  {seen : List Operation} {w : WatchdogSnapshot}

theorem heartbeat_stale :
    (l.heartbeat sequence i).stale now staleAfter = false ↔ l.Recent i now staleAfter := by
  have hs : ∀ t : UInt64, (⟨⟨i.val.toUInt8 + 1⟩, l.active i, t, sequence i⟩ :
      HeartbeatSnapshot).stale now staleAfter = false ↔
        t ≠ 0 ∧ now.toNat ≤ t.toNat + staleAfter.toNat := by
    intro t
    by_cases hle : t ≤ now
    · rw [stale_eq_false hle]
      refine and_congr_right fun _ => ?_
      have hn := UInt64.le_iff_toNat_le.mp hle
      rw [UInt64.le_iff_toNat_le, UInt64.toNat_sub_of_le _ _ hle]
      exact Nat.sub_le_iff_le_add'
    · have hn := UInt64.lt_iff_toNat_lt.mp (UInt64.not_le.mp hle)
      have hd : decide (now ≥ t) = false := decide_eq_false hle
      simp only [HeartbeatSnapshot.stale, hd, Bool.false_and, Bool.or_false, beq_eq_false_iff_ne]
      exact (and_iff_left (by omega)).symm
  rw [Ledger.heartbeat, hs, Ledger.Recent]
  cases l.published i <;> simp

theorem ledger_heartbeats (h : TakenAfter process uid name seen w)
    (hc : (seen.filterMap Operation.clock).Pairwise (· ≤ ·)) :
    ∃ sequence, w.heartbeats =
      (List.finRange heartbeatChannelCount).map ((ledgerOf seen).heartbeat sequence) := by
  obtain ⟨v, hv, rfl⟩ := h
  obtain ⟨m, -, hk⟩ := keeps_clientAfter process.identity uid name hc
  have hm : m = v.mem := Option.some.inj (hk.mapping.symm.trans hv)
  refine ⟨fun i => (m.heartbeats i).sequence, ?_⟩
  rw [run_snapshot_heartbeats, ← hm]
  refine List.map_congr_left fun i _ => ?_
  rw [Ledger.heartbeat, hk.active i, hk.timestampNs i]
  cases (ledgerOf seen).active i <;> rfl

theorem mem_heartbeats {P : HeartbeatSnapshot → Prop}
    (hw : w.heartbeats = (List.finRange heartbeatChannelCount).map (l.heartbeat sequence)) :
    (∃ h ∈ w.heartbeats, P h) ↔ ∃ i, P (l.heartbeat sequence i) := by
  rw [hw]
  simp

theorem heartbeat_id : (l.heartbeat sequence i).id = Channel.gui ↔ i = guiIndex :=
  (by decide : ∀ i : Fin heartbeatChannelCount,
    (⟨i.val.toUInt8 + 1⟩ : Channel) = Channel.gui ↔ i = guiIndex) i

theorem classifyHealth_spared
    (hw : w.heartbeats = (List.finRange heartbeatChannelCount).map (l.heartbeat sequence))
    (cpu : ℚ) :
    (classifyHealth w now staleAfter cpu).stalled = false ↔
      (∀ i, l.active i = false) ∨ l.Prompt now staleAfter := by
  have hsplit : w.heartbeats = [l.heartbeat sequence 0] ++ l.heartbeat sequence guiIndex ::
      [l.heartbeat sequence 2, l.heartbeat sequence 3] := hw
  have hne : ∀ i, i ≠ guiIndex → (l.heartbeat sequence i).id ≠ Channel.gui :=
    fun i => mt heartbeat_id.mp
  rw [classifyHealth_stalled hsplit rfl
    (List.forall_mem_singleton.mpr (hne 0 (by decide)))
    (List.forall_mem_cons.mpr
      ⟨hne 2 (by decide), List.forall_mem_singleton.mpr (hne 3 (by decide))⟩),
    mem_heartbeats hw, heartbeat_stale]
  refine or_congr ?_ (and_congr_left' ?_)
  · rw [hw]
    simp [Ledger.heartbeat]
  · exact exists_congr fun i => and_congr_right fun _ => heartbeat_stale

section FirstObservation

variable (options : ConsoleOptions) (uid : UInt32) (process : ProcessHandle) (name : List UInt8)

def watch (es : List ConsoleEvent) : Console :=
  run (Console.step options uid) (.start options uid process name) es

variable {options uid process name} {es : List ConsoleEvent} {p : Printed}

theorem printed_clocks (hc : (es.filterMap ConsoleEvent.callClock).Pairwise (· ≤ ·))
    (hp : p.seen <+: (watch options uid process name es).history) :
    (p.seen.filterMap Operation.clock).Pairwise (· ≤ ·) := by
  have hh := Console.run_history options uid (.start options uid process name) es
  have hpre := hp.filterMap Operation.clock
  rw [watch, hh] at hpre
  exact hc.sublist hpre.sublist

/-- An observation spares the process exactly when no channel is active or the
history of the mapping has let it publish its heartbeats promptly. -/
theorem printed_spares (hc : (es.filterMap ConsoleEvent.callClock).Pairwise (· ≤ ·))
    (hp : p ∈ (watch options uid process name es).printed) :
    (∃ health, p.observation.responsiveness = some health ∧ health.stalled = false) ↔
      (∀ i, (ledgerOf p.seen).active i = false) ∨
        (ledgerOf p.seen).Prompt p.observation.observedAtNs (Console.staleAfterNs options) := by
  obtain ⟨hpre, hv⟩ := (Console.backed_run options uid process name es).printed p hp
  obtain ⟨cpu, hcpu⟩ := hv.responsiveness
  obtain ⟨sequence, hw⟩ := ledger_heartbeats hv.taken (printed_clocks hc hpre)
  rw [hcpu, ← classifyHealth_spared hw cpu]
  simp

theorem first_observation_spares
    (hc : (es.filterMap ConsoleEvent.callClock).Pairwise (· ≤ ·))
    (hp : (watch options uid process name es).printed.head? = some p) :
    (∃ health, p.observation.responsiveness = some health ∧ health.stalled = false) ↔
      (∀ i, (ledgerOf p.seen).active i = false) ∨
        (ledgerOf p.seen).Prompt p.observation.observedAtNs (Console.staleAfterNs options) :=
  printed_spares hc (List.mem_of_mem_head? hp)

def running : ProcessView where
  status := some ⟨⟨7, 100⟩, {}⟩
  stat := some ⟨⟨7, 100⟩, 5, 100⟩
  exitReadable := false
  noSuchProcess := false

/-- Another watcher has let channel main publish 200 ms before this one attaches. -/
theorem first_observation_spares_watched :
    ∃ p, (watch { pid := 7 } 1000 ⟨⟨7, 100⟩, true⟩ []
        ([.outside (.attach 1000000000), .outside (.call 1100000000 (.setChannelActive .main true)),
          .outside .release] ++ List.replicate 5 (.watch running 1300000000))).printed.head? =
        some p ∧
      ((∃ health, p.observation.responsiveness = some health ∧ health.stalled = false) ↔
        (∀ i, (ledgerOf p.seen).active i = false) ∨
          (ledgerOf p.seen).Prompt p.observation.observedAtNs
            (Console.staleAfterNs { pid := 7 })) := by
  obtain ⟨p, hp⟩ := Option.isSome_iff_exists.mp
    (by decide +kernel : (watch { pid := 7 } 1000 ⟨⟨7, 100⟩, true⟩ []
      ([.outside (.attach 1000000000), .outside (.call 1100000000 (.setChannelActive .main true)),
        .outside .release] ++ List.replicate 5 (.watch running 1300000000))).printed.head?.isSome)
  exact ⟨p, hp, first_observation_spares (by decide) hp⟩

/-- Whenever something happens, no channel marked active has been silent for
longer than `gap`. -/
def Responsive (gap : Nat) (c : Console) (e : ConsoleEvent) : Prop :=
  e.clock.all (fun now => (beatsOf (fun _ => none) c.history).Within gap now) = true

instance (gap : Nat) (c : Console) (e : ConsoleEvent) : Decidable (Responsive gap c e) :=
  inferInstanceAs (Decidable (_ = true))

/-- Channel main is marked active at 1 s and beaten every 400 ms. The watcher
attaches at 2.3 s and polls at once. -/
def neverWatched : List ConsoleEvent :=
  [.outside (.call 1000000000 (.setChannelActive .main true)),
    .outside (.call 1400000000 (.heartbeat .main)), .outside (.call 1800000000 (.heartbeat .main)),
    .outside (.call 2200000000 (.heartbeat .main))] ++
    List.replicate 5 (.watch running 2300000000)

theorem first_observation_stalls :
    Permits (Console.step { pid := 7, once := true } 1000) (Responsive 500000000)
        (.start { pid := 7, once := true } 1000 ⟨⟨7, 100⟩, true⟩ []) neverWatched ∧
      (watch { pid := 7, once := true } 1000 ⟨⟨7, 100⟩, true⟩ [] neverWatched).printed.map
        (·.observation.responsiveness) = [some .globallyStalledIdle] := by
  decide +kernel

end FirstObservation

end Peepbooth
