import Peepbooth.Client

/-! The client's calls cut into their atomic accesses, so that threads of the
producer can be interleaved. A `Pc` names the access a thread makes next and
carries the local variables it still needs. -/

namespace Peepbooth

/-- What the threads of one client share. `state` says that `state_` is not
null, `mapped` that the region is mapped, `mutex` which caller holds the lock. -/
structure Shared where
  state : Bool
  mapped : Bool
  mutex : Option Nat
  mem : SharedState
  nextHeartbeatNs : Fin heartbeatChannelCount → UInt64
  clock : UInt64

def Shared.setMem (s : Shared) (m : SharedState) : Shared := { s with mem := m }

/-- The calls that ask `active_state` before they publish. -/
inductive Work
  | heartbeat (value : Channel)
  | breadcrumb (args : BreadcrumbArgs)
  deriving DecidableEq, Repr

inductive Pc
  | idle
  | setLoadState (value : Channel) (active : Bool)
  | setStoreActive (index : Fin heartbeatChannelCount) (value : Channel) (active : Bool)
  | loadState (work : Work)
  | loadPresent (work : Work)
  | readClock (work : Work)
  | reloadState (work : Work) (now : UInt64)
  | reloadPresent (work : Work) (now : UInt64)
  | loadLease (work : Work) (now : UInt64)
  | clearPresent
  | loadNext (index : Fin heartbeatChannelCount) (now : UInt64)
  | exchangeNext (index : Fin heartbeatChannelCount) (now next : UInt64)
  | storeActive (index : Fin heartbeatChannelCount) (now : UInt64)
  | storeTimestamp (index : Fin heartbeatChannelCount) (now : UInt64)
  | addSequence (index : Fin heartbeatChannelCount) (now : UInt64)
  | drawTicket (args : BreadcrumbArgs) (now : UInt64)
  | store (store : SlotStore) (d : RingWrite)
  deriving DecidableEq, Repr

namespace Pc

def start : Call → Pc
  | .heartbeat value => loadState (.heartbeat value)
  | .setChannelActive value active => setLoadState value active
  | .breadcrumb args => loadState (.breadcrumb args)

/-- Where a call goes on once `active_state` has returned the state. -/
def admitted (now : UInt64) : Work → Pc
  | .heartbeat value =>
    if h : channelIndex value < heartbeatChannelCount then loadNext ⟨channelIndex value, h⟩ now
    else idle
  | .breadcrumb args => drawTicket args now

/-- The head of the loop of `heartbeat`, with `next` the deadline last loaded. -/
def tryNext (index : Fin heartbeatChannelCount) (now next : UInt64) : Pc :=
  if now < next then idle else exchangeNext index now next

/-- The next access of a thread. `spurious` makes a weak exchange fail. -/
def step (spurious : Bool) (s : Shared) : Pc → Pc × Shared
  | idle => (idle, s)
  | setLoadState value active =>
    (if h : s.state ∧ channelIndex value < heartbeatChannelCount then
      setStoreActive ⟨channelIndex value, h.2⟩ value active
    else idle, s)
  | setStoreActive index value active =>
    (if active then loadState (.heartbeat value) else idle,
      s.setMem (s.mem.setHeartbeat index
        { s.mem.heartbeats index with active := if active then 1 else 0 }))
  | loadState work => (if s.state then loadPresent work else idle, s)
  | loadPresent work => (if s.mem.watcherPresent = 0 then idle else readClock work, s)
  | readClock work => (reloadState work s.clock, s)
  | reloadState work now => (if s.state then reloadPresent work now else idle, s)
  | reloadPresent work now =>
    (if s.mem.watcherPresent = 0 then idle else loadLease work now, s)
  | loadLease work now =>
    (if s.mem.watcherLeaseUntilNs < now then clearPresent else admitted now work, s)
  | clearPresent => (idle, s.setMem { s.mem with watcherPresent := 0 })
  | loadNext index now => (tryNext index now (s.nextHeartbeatNs index), s)
  | exchangeNext index now next =>
    if s.nextHeartbeatNs index = next ∧ spurious = false then
      (storeActive index now, { s with
        nextHeartbeatNs := Function.update s.nextHeartbeatNs index (now + minimumIntervalNs) })
    else (tryNext index now (s.nextHeartbeatNs index), s)
  | storeActive index now =>
    (storeTimestamp index now,
      s.setMem (s.mem.setHeartbeat index { s.mem.heartbeats index with active := 1 }))
  | storeTimestamp index now =>
    (addSequence index now,
      s.setMem (s.mem.setHeartbeat index { s.mem.heartbeats index with timestampNs := now }))
  | addSequence index _ =>
    (idle,
      s.setMem (s.mem.setHeartbeat index
        { s.mem.heartbeats index with sequence := (s.mem.heartbeats index).sequence + 1 }))
  | drawTicket args now =>
    (store .opening ⟨s.mem.breadcrumbTicket + 1, now, args⟩,
      s.setMem { s.mem with breadcrumbTicket := s.mem.breadcrumbTicket + 1 })
  | store w d =>
    (match w.next with
      | some w' => store w' d
      | none => idle,
      s.setMem (s.mem.setBreadcrumb d.index (w.apply d (s.mem.breadcrumbs d.index))))

/-- The next access goes through the `shared_state` pointer. -/
def touches : Pc → Bool
  | setStoreActive .. | loadPresent _ | reloadPresent .. | loadLease .. | clearPresent
  | storeActive .. | storeTimestamp .. | addSequence .. | drawTicket .. | store .. => true
  | _ => false

end Pc

/-- The steps of `client::start` and `client::stop`. -/
inductive ControlPc
  | idle
  | startLock
  | startLoad
  | startCreate
  | startStore
  | stopLock
  | stopExchange
  | stopStoreLifecycle
  | stopReset
  | unlock
  deriving DecidableEq, Repr

namespace ControlPc

/-- The next step of the caller `j`. `created` is the outcome of
`create_process_mapping`. -/
def step (j : Nat) (created : Option SharedState) (s : Shared) : ControlPc → ControlPc × Shared
  | idle => (idle, s)
  | startLock => if s.mutex = none then (startLoad, { s with mutex := some j }) else (startLock, s)
  | startLoad => (if s.state then unlock else startCreate, s)
  | startCreate =>
    match created with
    | none => (unlock, s)
    | some m => (startStore, { s with mapped := true, mem := m })
  | startStore => (unlock, { s with state := true })
  | stopLock =>
    if s.mutex = none then (stopExchange, { s with mutex := some j }) else (stopLock, s)
  | stopExchange => (if s.state then stopStoreLifecycle else stopReset, { s with state := false })
  | stopStoreLifecycle =>
    (stopReset, s.setMem { s.mem with processLifecycle := Lifecycle.cleanExit })
  | stopReset => (unlock, { s with mapped := false })
  | unlock => (idle, { s with mutex := none })

/-- The next step goes through the `shared_state` pointer. -/
def touches : ControlPc → Bool
  | stopStoreLifecycle => true
  | _ => false

end ControlPc

end Peepbooth
