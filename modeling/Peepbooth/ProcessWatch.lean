import Peepbooth.SharedState
import Peepbooth.ReadProgram

/-! What a watcher can see of a process at one instant, and the reads it makes
of the process table. The contents of `/proc/<pid>/status` and
`/proc/<pid>/stat` stand for what the parsers make of them. -/

namespace Peepbooth

@[ext] structure ProcessIdentity where
  pid : UInt32 := 0
  startTicks : UInt64 := 0
  deriving DecidableEq, Repr

structure ProcessMemory where
  rssBytes : UInt64 := 0
  highWaterBytes : UInt64 := 0
  swapBytes : UInt64 := 0
  deriving DecidableEq, Repr

/-- `owner` is the process whose file was read. It is no part of the text. -/
structure StatusFile where
  owner : ProcessIdentity
  memory : ProcessMemory
  deriving DecidableEq, Repr

/-- `owner` as for the status file. -/
structure StatValues where
  owner : ProcessIdentity
  cpuTicks : UInt64
  startTicks : UInt64
  deriving DecidableEq, Repr

/-- `memoryOwner` and `cpuOwner` record whose files gave `memory` and `cpuTicks`;
the source keeps no such fields. -/
structure ProcessSample where
  identity : ProcessIdentity
  memory : ProcessMemory
  memoryOwner : ProcessIdentity
  cpuTicks : UInt64
  cpuOwner : ProcessIdentity
  sampledAtNs : UInt64
  deriving DecidableEq, Repr

/-- `exitReadable`: the process descriptor polls readable. `noSuchProcess`:
`kill(pid, 0)` fails with `ESRCH`. `stateOpens`: there is a shared state under the
name of the process, and it can be mapped. -/
structure ProcessView where
  status : Option StatusFile
  stat : Option StatValues
  exitReadable : Bool
  noSuchProcess : Bool
  stateOpens : Bool := true

/-- Everything the loads of one poll can see. -/
structure World where
  mem : SharedState
  clock : UInt64
  process : ProcessView

inductive HeartbeatLoad
  | before
  | active
  | timestampNs
  | after
  deriving DecidableEq, Repr

inductive BreadcrumbLoad
  | before
  | ticket
  | eventAndFlags
  | timestampNs
  | sourceId
  | arg0
  | arg1
  | after
  deriving DecidableEq, Repr

/-- The places of the loads of a poll, in the order it makes them. -/
inductive Place
  | status
  | stat
  | sampledAt
  | processName
  | processLifecycle
  | heartbeat (index : Fin heartbeatChannelCount) (load : HeartbeatLoad)
  | breadcrumbTicket
  | breadcrumb (ticket : UInt64) (load : BreadcrumbLoad)
  | exitSignal
  | identity
  | observedAt
  deriving DecidableEq, Repr

abbrev Reads := ReadProgram Place World

/-- `sample_process` -/
def sampleProcess (pid : UInt32) : Reads (Option ProcessSample) := do
  let status ← .read .status (·.process.status)
  let stat ← .read .stat (·.process.stat)
  match status, stat with
  | some file, some values =>
    let now ← .read .sampledAt (·.clock)
    pure (some {
      identity := ⟨pid, values.startTicks⟩
      memory := file.memory
      memoryOwner := file.owner
      cpuTicks := values.cpuTicks
      cpuOwner := values.owner
      sampledAtNs := now })
  | _, _ => pure none

/-- `hasDescriptor`: `pid_descriptor_` is open. -/
structure ProcessHandle where
  identity : ProcessIdentity
  hasDescriptor : Bool
  deriving DecidableEq, Repr

/-- What the descriptor, or without one the signal, says. -/
def ProcessHandle.signalled (h : ProcessHandle) (v : ProcessView) : Bool :=
  if h.hasDescriptor then v.exitReadable else v.noSuchProcess

/-- `process_handle::alive` -/
def ProcessHandle.alive (h : ProcessHandle) : Reads Bool := do
  let gone ← .read .exitSignal fun w => h.signalled w.process
  if gone then
    pure false
  else
    let current ← .read .identity (·.process.stat)
    pure (current.any (·.startTicks = h.identity.startTicks))

theorem ProcessHandle.alive_eq (h : ProcessHandle) :
    h.alive = .load .exitSignal fun w =>
      if h.signalled w.process = true then .done false
      else .load .identity fun w' =>
        .done (w'.process.stat.any (·.startTicks = h.identity.startTicks)) := rfl

end Peepbooth
