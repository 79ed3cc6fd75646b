import Peepbooth.ProcessWatch
import Mathlib.Data.Rat.Defs
import Mathlib.Data.List.FinRange
import Mathlib.Data.List.ReduceOption

/-! The watcher's session on a shared state: its lease, its snapshot, and the
verdict on a snapshot. -/

namespace Peepbooth

def defaultWatcherLeaseNs : UInt64 := 3000000000

/-- The deadline that `renew_lease` stores. -/
def leaseDeadline (now duration : UInt64) : UInt64 :=
  let maximum : UInt64 := 0xffffffffffffffff
  if duration > maximum - now then maximum else now + duration

theorem toNat_leaseDeadline (now duration : UInt64) :
    (leaseDeadline now duration).toNat = min (now.toNat + duration.toNat) (2 ^ 64 - 1) := by
  have hn := now.toNat_lt
  have hd := duration.toNat_lt
  have hm : (0xffffffffffffffff : UInt64).toNat = 2 ^ 64 - 1 := by decide
  have hs : ((0xffffffffffffffff : UInt64) - now).toNat = 2 ^ 64 - 1 - now.toNat := by
    rw [UInt64.toNat_sub_of_le _ _ (UInt64.le_iff_toNat_le.mpr (by omega)), hm]
  simp only [leaseDeadline, gt_iff_lt, UInt64.lt_iff_toNat_lt, hs]
  split
  · omega
  · rw [UInt64.toNat_add]
    omega

namespace SharedState

/-- `valid_state`; `uid` is the watcher's own. -/
def validState (m : SharedState) (identity : ProcessIdentity) (uid : UInt32) : Bool :=
  m.magic = sharedStateMagic && m.version = sharedStateVersion &&
    m.headerSize = Peepbooth.headerSize && m.totalSize = Peepbooth.totalSize &&
    m.pid = identity.pid && m.uid = uid && m.processStartTicks = identity.startTicks

theorem validState_createProcessMapping (identity : ProcessIdentity) (uid : UInt32)
    (name : List UInt8) :
    (createProcessMapping identity.pid uid (some identity.startTicks) name).validState identity
      uid = true := by
  simp [validState, createProcessMapping]

/-- `watchdog_session::renew_lease` -/
def renewLease (m : SharedState) (now : UInt64) (duration : UInt64 := defaultWatcherLeaseNs) :
    SharedState :=
  { m with watcherLeaseUntilNs := leaseDeadline now duration, watcherPresent := 1 }

/-- `watchdog_session::release` -/
def release (m : SharedState) : SharedState :=
  { m with watcherPresent := 0, watcherLeaseUntilNs := 0 }

end SharedState

structure HeartbeatSnapshot where
  id : Channel := Channel.main
  active : Bool := false
  timestampNs : UInt64 := 0
  sequence : UInt64 := 0
  deriving DecidableEq, Repr

/-- Each breadcrumb stands with the ticket it was read for, which the source drops. -/
structure WatchdogSnapshot where
  processName : List UInt8 := []
  processLifecycle : UInt32 := Lifecycle.starting
  heartbeats : List HeartbeatSnapshot := List.replicate heartbeatChannelCount {}
  breadcrumbs : List (UInt64 × Breadcrumb) := []
  deriving DecidableEq, Repr

/-- The attempts of `read_heartbeat` that are left, after one that gave `result`. -/
def readHeartbeatAttempts (index : Fin heartbeatChannelCount) (id : Channel) :
    Nat → HeartbeatSnapshot → Reads HeartbeatSnapshot
  | 0, result => pure result
  | attempts + 1, _ => do
    let before ← .read (.heartbeat index .before) (·.mem.heartbeats index |>.sequence)
    let active ← .read (.heartbeat index .active) (·.mem.heartbeats index |>.active)
    let timestampNs ← .read (.heartbeat index .timestampNs) (·.mem.heartbeats index |>.timestampNs)
    let after ← .read (.heartbeat index .after) (·.mem.heartbeats index |>.sequence)
    let result : HeartbeatSnapshot := ⟨id, active != 0, timestampNs, after⟩
    if before = after then pure result else readHeartbeatAttempts index id attempts result

def readHeartbeat (index : Fin heartbeatChannelCount) : Reads HeartbeatSnapshot :=
  let id : Channel := ⟨index.val.toUInt8 + 1⟩
  readHeartbeatAttempts index id 3 { id := id }

def readBreadcrumb (ticket : UInt64) : Reads (Option Breadcrumb) := do
  let slot (w : World) : BreadcrumbSlot := w.mem.breadcrumbs (slotIndex ticket)
  let expected := closedWord ticket
  let before ← .read (.breadcrumb ticket .before) fun w => (slot w).commit
  if before ≠ expected then
    pure none
  else
    let stored ← .read (.breadcrumb ticket .ticket) fun w => (slot w).ticket
    if stored ≠ ticket then
      pure none
    else
      let packed ← .read (.breadcrumb ticket .eventAndFlags) fun w => (slot w).eventAndFlags
      let timestampNs ← .read (.breadcrumb ticket .timestampNs) fun w => (slot w).timestampNs
      let sourceId ← .read (.breadcrumb ticket .sourceId) fun w => (slot w).sourceId
      let arg0 ← .read (.breadcrumb ticket .arg0) fun w => (slot w).arg0
      let arg1 ← .read (.breadcrumb ticket .arg1) fun w => (slot w).arg1
      let result : Breadcrumb :=
        { timestampNs := timestampNs
          eventId := (packed &&& 0xffff).toUInt16
          flags := (packed >>> 16).toUInt16
          sourceId := sourceId
          arg0 := arg0
          arg1 := arg1 }
      let after ← .read (.breadcrumb ticket .after) fun w => (slot w).commit
      pure (if after = expected then some result else none)

theorem readBreadcrumb_eq (ticket : UInt64) :
    readBreadcrumb ticket =
      .load (.breadcrumb ticket .before) fun w₀ =>
      if (w₀.mem.breadcrumbs (slotIndex ticket)).commit ≠ closedWord ticket then .done none
      else .load (.breadcrumb ticket .ticket) fun w₁ =>
      if (w₁.mem.breadcrumbs (slotIndex ticket)).ticket ≠ ticket then .done none
      else .load (.breadcrumb ticket .eventAndFlags) fun w₂ =>
      .load (.breadcrumb ticket .timestampNs) fun w₃ =>
      .load (.breadcrumb ticket .sourceId) fun w₄ =>
      .load (.breadcrumb ticket .arg0) fun w₅ =>
      .load (.breadcrumb ticket .arg1) fun w₆ =>
      .load (.breadcrumb ticket .after) fun w₇ =>
      .done (if (w₇.mem.breadcrumbs (slotIndex ticket)).commit = closedWord ticket then
        some {
          timestampNs := (w₃.mem.breadcrumbs (slotIndex ticket)).timestampNs
          eventId :=
            ((w₂.mem.breadcrumbs (slotIndex ticket)).eventAndFlags &&& 0xffff).toUInt16
          flags := ((w₂.mem.breadcrumbs (slotIndex ticket)).eventAndFlags >>> 16).toUInt16
          sourceId := (w₄.mem.breadcrumbs (slotIndex ticket)).sourceId
          arg0 := (w₅.mem.breadcrumbs (slotIndex ticket)).arg0
          arg1 := (w₆.mem.breadcrumbs (slotIndex ticket)).arg1 }
      else none) := rfl

def ringOldest (newest : UInt64) : UInt64 :=
  if newest > 128 then newest - 128 + 1 else 1

/-- The tickets the loop of `snapshot` visits from `ticket` on, in at most
`fuel` iterations. -/
def ringTicketsFrom (newest : UInt64) : Nat → UInt64 → List UInt64
  | 0, _ => []
  | fuel + 1, ticket =>
    if ticket ≤ newest ∧ ticket ≠ 0 then ticket :: ringTicketsFrom newest fuel (ticket + 1)
    else []

def ringTickets (newest : UInt64) : List UInt64 :=
  ringTicketsFrom newest breadcrumbCapacity (ringOldest newest)

theorem ne_zero_of_mem_ringTickets {newest ticket : UInt64} (h : ticket ∈ ringTickets newest) :
    ticket ≠ 0 := by
  have hh : ∀ fuel first, ticket ∈ ringTicketsFrom newest fuel first → ticket ≠ 0 := by
    intro fuel
    induction fuel with
    | zero => simp [ringTicketsFrom]
    | succ fuel ih =>
      intro first hm
      simp only [ringTicketsFrom] at hm
      split at hm
      · next hf =>
        rcases List.mem_cons.mp hm with rfl | hm
        · exact hf.2
        · exact ih _ hm
      · simp at hm
  exact hh _ _ h

/-- One iteration of the loop of `snapshot`. -/
def readTicket (ticket : UInt64) : Reads (Option (UInt64 × Breadcrumb)) := do
  let item ← readBreadcrumb ticket
  pure (item.map (ticket, ·))

def readRing : Reads (List (UInt64 × Breadcrumb)) := do
  let newest ← .read .breadcrumbTicket (·.mem.breadcrumbTicket)
  let items ← ReadProgram.traverse readTicket (ringTickets newest)
  pure items.reduceOption

theorem readTicket_eq (ticket : UInt64) :
    readTicket ticket = (readBreadcrumb ticket).bind fun item => .done (item.map (ticket, ·)) := rfl

theorem readRing_eq :
    readRing = .load .breadcrumbTicket fun w =>
      (ReadProgram.traverse readTicket (ringTickets w.mem.breadcrumbTicket)).bind
        fun items => .done items.reduceOption := rfl

/-- `watchdog_session::snapshot` -/
def snapshot : Reads WatchdogSnapshot := do
  let processName ← .read .processName (·.mem.processName.takeWhile (· ≠ 0))
  let processLifecycle ← .read .processLifecycle (·.mem.processLifecycle)
  let heartbeats ← ReadProgram.traverse readHeartbeat (List.finRange heartbeatChannelCount)
  let breadcrumbs ← readRing
  pure ⟨processName, processLifecycle, heartbeats, breadcrumbs⟩

theorem snapshot_eq :
    snapshot = .load .processName fun w₀ => .load .processLifecycle fun w₁ =>
      (ReadProgram.traverse readHeartbeat (List.finRange heartbeatChannelCount)).bind
        fun heartbeats => readRing.bind fun breadcrumbs =>
          .done ⟨w₀.mem.processName.takeWhile (· ≠ 0), w₁.mem.processLifecycle, heartbeats,
            breadcrumbs⟩ := rfl

inductive Health
  | awaitingHeartbeat
  | healthy
  | degraded
  | guiStalled
  | globallyStalledIdle
  | globallyStalledBusy
  deriving DecidableEq, Repr

def HeartbeatSnapshot.stale (h : HeartbeatSnapshot) (now staleAfter : UInt64) : Bool :=
  h.timestampNs == 0 || (now ≥ h.timestampNs && now - h.timestampNs > staleAfter)

/-- The flags of `classify_health`. -/
structure Evidence where
  anyActive : Bool := false
  anyCurrent : Bool := false
  anyStale : Bool := false
  guiActive : Bool := false
  guiStale : Bool := false
  nonGuiCurrent : Bool := false
  deriving DecidableEq, Repr

/-- One iteration of the loop of `classify_health`. -/
def Evidence.add (now staleAfter : UInt64) (e : Evidence) (h : HeartbeatSnapshot) : Evidence :=
  if !h.active then e
  else
    let stale := h.stale now staleAfter
    let e := { e with
      anyActive := true, anyCurrent := e.anyCurrent || !stale, anyStale := e.anyStale || stale }
    if h.id = Channel.gui then { e with guiActive := true, guiStale := stale }
    else { e with nonGuiCurrent := e.nonGuiCurrent || !stale }

def Evidence.verdict (e : Evidence) (cpuPercent : ℚ) : Health :=
  if !e.anyActive then .awaitingHeartbeat
  else if e.guiActive && e.guiStale && e.nonGuiCurrent then .guiStalled
  else if !e.anyCurrent then
    if cpuPercent ≥ 20 then .globallyStalledBusy else .globallyStalledIdle
  else if e.anyStale then .degraded
  else .healthy

/-- `classify_health`, with its percentage read as an exact rational. -/
def classifyHealth (s : WatchdogSnapshot) (now staleAfter : UInt64) (cpuPercent : ℚ) : Health :=
  (s.heartbeats.foldl (Evidence.add now staleAfter) {}).verdict cpuPercent

end Peepbooth
