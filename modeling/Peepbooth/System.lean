import Peepbooth.Schedule
import Peepbooth.Producer
import Peepbooth.ObservedProcess

/-! One shared state from its creation to the end of its process: the threads
of the producer, its `stop()`, its exit, and one watcher, interleaved one atomic
access at a time. -/

namespace Peepbooth

/-- The phases of a process that exits. -/
inductive Phase
  | running
  | exiting
  | zombie
  | reaped
  deriving DecidableEq, Repr

def Phase.rank : Phase → Nat
  | running => 0
  | exiting => 1
  | zombie => 2
  | reaped => 3

/-- Where the watcher is. A lease that a poll renews carries what the poll read. -/
inductive Watcher
  | idle
  | snapshotting (p : Reads WatchdogSnapshot)
  | polling (p : Reads PollReads)
  | storeLease (deadline : UInt64) (poll : Option PollReads)
  | storePresent (poll : Option PollReads)
  | clearPresent
  | clearLease

/-- The history of a run. No step depends on it. -/
structure Log where
  /-- the calls that have drawn a ticket, in the order of their draws -/
  calls : List RingWrite := []
  /-- the calls that have made their last store -/
  closed : List RingWrite := []
  /-- the thread that opened the slot last, until it closes it -/
  owner : Fin breadcrumbCapacity → Option Nat := fun _ => none
  /-- the clock readings of the heartbeat calls on each channel -/
  readings : Fin heartbeatChannelCount → List UInt64 := fun _ => []
  /-- the deadline of the renewal begun last, unless a release has begun since -/
  renewed : Option UInt64 := none
  /-- the lifecycle has been stored since the watcher last loaded it -/
  lifecycleStored : Bool := false
  /-- the ring has been stored to since the watcher last loaded its ticket -/
  ringStored : Bool := false

structure System extends Shared where
  thread : Nat → Pc
  control : ControlPc
  phase : Phase
  memory : Option ProcessMemory
  cpuTicks : UInt64
  observer : ObservedProcess
  watcher : Watcher
  log : Log

inductive Event
  | call (thread : Nat) (call : Call)
  | thread (thread : Nat) (spurious : Bool)
  | stop
  | control
  | exit (phase : Phase)
  | usage (memory : Option ProcessMemory) (cpuTicks : UInt64)
  | tick (now : UInt64)
  | renew (now duration : UInt64)
  | release
  | snapshot
  | poll
  | watcher

def Log.access (log : Log) (i : Nat) (s : Shared) : Pc → Log
  | .readClock (.heartbeat value) =>
    if h : channelIndex value < heartbeatChannelCount then
      { log with
        readings := Function.update log.readings ⟨channelIndex value, h⟩
          (s.clock :: log.readings ⟨channelIndex value, h⟩) }
    else log
  | .drawTicket args now =>
    { log with
      calls := log.calls ++ [⟨s.mem.breadcrumbTicket + 1, now, args⟩], ringStored := true }
  | .store .opening d =>
    { log with owner := Function.update log.owner d.index (some i), ringStored := true }
  | .store .closing d =>
    { log with
      owner := Function.update log.owner d.index none
      closed := d :: log.closed
      ringStored := true }
  | .store _ _ => { log with ringStored := true }
  | _ => log

def Log.load (log : Log) : Place → Log
  | .processLifecycle => { log with lifecycleStored := false }
  | .breadcrumbTicket => { log with ringStored := false }
  | _ => log

namespace System

/-- What the process table shows. The status file loses its memory lines as
soon as the process exits, the other files stay until it is reaped. -/
def process (s : System) : ProcessView where
  status := if s.phase = .running then s.memory.map (⟨s.observer.process.identity, ·⟩) else none
  stat :=
    if s.phase = .reaped then none
    else
      some ⟨s.observer.process.identity, s.cpuTicks, s.observer.process.identity.startTicks⟩
  exitReadable := s.phase = .zombie ∨ s.phase = .reaped
  noSuchProcess := s.phase = .reaped

def world (s : System) : World := ⟨s.mem, s.clock, s.process⟩

@[simp] theorem world_mem (s : System) : s.world.mem = s.mem := rfl

def stepWatcher (s : System) : System :=
  match s.watcher with
  | .idle => s
  | .snapshotting (.done _) => { s with watcher := .idle }
  | .snapshotting (.load place next) =>
    { s with watcher := .snapshotting (next s.world), log := s.log.load place }
  | .polling (.done r) =>
    if r.isAlive then
      { s with
        watcher := .storeLease (leaseDeadline r.now defaultWatcherLeaseNs) (some r)
        log := { s.log with renewed := some (leaseDeadline r.now defaultWatcherLeaseNs) } }
    else { s with watcher := .idle, observer := s.observer.conclude r }
  | .polling (.load place next) =>
    { s with watcher := .polling (next s.world), log := s.log.load place }
  | .storeLease deadline poll =>
    { s with watcher := .storePresent poll, mem := { s.mem with watcherLeaseUntilNs := deadline } }
  | .storePresent poll =>
    { s with
      watcher := .idle
      mem := { s.mem with watcherPresent := 1 }
      observer := match poll with
        | some r => s.observer.conclude r
        | none => s.observer }
  | .clearPresent => { s with watcher := .clearLease, mem := { s.mem with watcherPresent := 0 } }
  | .clearLease => { s with watcher := .idle, mem := { s.mem with watcherLeaseUntilNs := 0 } }

def stepThread (s : System) (i : Nat) (spurious : Bool) : System :=
  let r := (s.thread i).step spurious s.toShared
  { s with
    toShared := r.2
    thread := Function.update s.thread i r.1
    log := s.log.access i s.toShared (s.thread i) }

def stepControl (s : System) : System :=
  let r := s.control.step 0 none s.toShared
  { s with
    toShared := r.2
    control := r.1
    log := { s.log with lifecycleStored := s.log.lifecycleStored || s.control.touches } }

/-- An event that is not enabled leaves the state as it is. The watcher may
begin any operation while it is idle; attaching is a renewal by a new session. -/
def step (s : System) : Event → System
  | .call i call =>
    if s.phase = .running ∧ s.thread i = .idle then
      { s with thread := Function.update s.thread i (Pc.start call) }
    else s
  | .thread i spurious => if s.phase = .running then s.stepThread i spurious else s
  | .stop =>
    if s.phase = .running ∧ s.control = .idle then { s with control := .stopLock } else s
  | .control => if s.phase = .running then s.stepControl else s
  | .exit phase => if s.phase.rank < phase.rank then { s with phase := phase } else s
  | .usage memory cpuTicks => { s with memory := memory, cpuTicks := cpuTicks }
  | .tick now => if s.clock ≤ now then { s with clock := now } else s
  | .renew now duration =>
    match s.watcher with
    | .idle =>
      { s with
        watcher := .storeLease (leaseDeadline now duration) none
        log := { s.log with renewed := some (leaseDeadline now duration) } }
    | _ => s
  | .release =>
    match s.watcher with
    | .idle => { s with watcher := .clearPresent, log := { s.log with renewed := none } }
    | _ => s
  | .snapshot =>
    match s.watcher with
    | .idle => { s with watcher := .snapshotting Peepbooth.snapshot }
    | _ => s
  | .poll =>
    match s.watcher with
    | .idle => { s with watcher := .polling (pollReads s.observer.process) }
    | _ => s
  | .watcher => s.stepWatcher

theorem step_watcher_keeps (s : System) :
    (s.step .watcher).thread = s.thread ∧ (s.step .watcher).clock = s.clock := by
  rcases hw : s.watcher with _ | (r | _) | (r | _) | _ | _ | _ | _ <;>
    simp only [step, stepWatcher, hw, and_self]
  split <;> simp

/-- Where a run starts: the mapping has just been created and published, nobody
is in a call, and the watcher has not yet done anything. -/
structure Initial (s : System) : Prop where
  fresh : s.mem.Fresh
  state : s.state = true
  thread : ∀ i, s.thread i = .idle
  control : s.control = .idle
  phase : s.phase = .running
  watcher : s.watcher = .idle
  latest : s.observer.latest.status = .notAttached
  log : s.log = {}

def Reachable (s : System) : Prop := ∃ s₀ es, s₀.Initial ∧ s = Schedule.run step s₀ es

def published (process : ProcessHandle) (mem : SharedState) (clock : UInt64) : System where
  state := true
  mapped := true
  mutex := none
  mem := mem
  nextHeartbeatNs := fun _ => 0
  clock := clock
  thread := fun _ => .idle
  control := .idle
  phase := .running
  memory := some {}
  cpuTicks := 0
  observer := { process := process, attached := true }
  watcher := .idle
  log := {}

theorem initial_published {mem : SharedState} (h : mem.Fresh) (process : ProcessHandle)
    (clock : UInt64) : (published process mem clock).Initial :=
  ⟨h, rfl, fun _ => rfl, rfl, rfl, rfl, rfl, rfl⟩

def sample : System := published ⟨⟨1, 1⟩, true⟩ (.createProcessMapping 1 0 (some 1) []) 0

theorem initial_sample : sample.Initial :=
  initial_published (SharedState.createProcessMapping_fresh _ _ _ _) _ _

end System

end Peepbooth
