import Peepbooth.PollLength
import Peepbooth.System

/-! The loop of `run_console_watch` on a process that exits, one load at a time,
without `--once` and as long as nobody asks it to stop. Its three views of the
process change at different moments of the exit. -/

namespace Peepbooth

open Schedule ReadProgram

/-- Where the loop stands: in a poll, in `wait_for_exit`, in the liveness check after
the loop, in the poll after that. -/
inductive LoopPc
  | polling (p : Reads PollReads)
  | waiting (p : Reads Bool)
  | leaving (p : Reads Bool)
  | lastPoll (p : Reads PollReads)
  | returned (code : Nat)

def LoopPc.place : LoopPc → Option Place
  | .polling p | .lastPoll p => p.place
  | .waiting p | .leaving p => p.place
  | .returned _ => none

/-- `statuses` are those of all polls, `lifecycle` is what the line about the exit
says. `late` and `missed` are history: the status file was last read when the process
was no longer running, and after that it still passed for alive. -/
structure ExitRun where
  mem : SharedState
  clock : UInt64
  phase : Phase
  memory : ProcessMemory
  cpuTicks : UInt64
  observer : ObservedProcess
  pc : LoopPc
  statuses : List ObservationStatus := []
  lifecycle : Option UInt32 := none
  error : Option ConsoleError := none
  late : Bool := false
  missed : Bool := false

/-- `outside` is the producer or another watcher. -/
inductive ExitEvent
  | watch
  | exit (phase : Phase)
  | usage (memory : ProcessMemory) (cpuTicks : UInt64)
  | tick (now : UInt64)
  | outside (mem : SharedState)

def ExitEvent.isWatch : ExitEvent → Bool
  | .watch => true
  | _ => false

namespace ExitRun

variable (process : ProcessHandle)

/-- The status file loses its memory lines as soon as the process exits, the other
files stay until it is reaped. -/
def view (s : ExitRun) : ProcessView where
  status := if s.phase = .running then some ⟨process.identity, s.memory⟩ else none
  stat :=
    if s.phase = .reaped then none
    else some ⟨process.identity, s.cpuTicks, process.identity.startTicks⟩
  exitReadable := s.phase = .zombie ∨ s.phase = .reaped
  noSuchProcess := s.phase = .reaped

def world (s : ExitRun) : World := ⟨s.mem, s.clock, s.view process⟩

def mark (s : ExitRun) : Place → ExitRun
  | .status => { s with late := s.phase ≠ .running }
  | .identity => { s with missed := s.missed || (s.late && s.phase ≠ .reaped) }
  | _ => s

def fail (s : ExitRun) (e : ConsoleError) : ExitRun :=
  { s with pc := .returned 1, error := some e }

/-- The end of `observed_process::poll`. -/
def observe (s : ExitRun) (r : PollReads) : ExitRun :=
  { s with
    observer := s.observer.conclude r
    mem := if r.isAlive then s.mem.renewLease r.now else s.mem
    statuses := s.statuses ++ [(s.observer.conclude r).latest.status] }

def conclude (s : ExitRun) (r : PollReads) : ExitRun :=
  let s := s.observe r
  match s.observer.latest.status with
  | .exited => { s with pc := .leaving process.alive }
  | .sampled => { s with pc := .waiting process.waitForExit }
  | .identityChanged => s.fail .identityChanged
  | _ => s.fail .sampleUnavailable

def watch (s : ExitRun) : ExitRun :=
  match s.pc with
  | .polling (.load place next) => { s.mark place with pc := .polling (next (s.world process)) }
  | .polling (.done r) => s.conclude process r
  | .waiting (.load place next) => { s.mark place with pc := .waiting (next (s.world process)) }
  | .waiting (.done exited) =>
    { s with
      pc := if exited then .leaving process.alive else .polling (pollReads process) }
  | .leaving (.load place next) => { s.mark place with pc := .leaving (next (s.world process)) }
  | .leaving (.done isAlive) =>
    { s with pc := if isAlive then .returned 0 else .lastPoll (pollReads process) }
  | .lastPoll (.load place next) => { s.mark place with pc := .lastPoll (next (s.world process)) }
  | .lastPoll (.done r) =>
    let s := s.observe r
    { s with
      pc := .returned 0, lifecycle := some s.observer.latest.watchdog.processLifecycle }
  | .returned _ => s

def step (s : ExitRun) : ExitEvent → ExitRun
  | .watch => s.watch process
  | .exit phase => if s.phase.rank < phase.rank then { s with phase := phase } else s
  | .usage memory cpuTicks => { s with memory := memory, cpuTicks := cpuTicks }
  | .tick now => if s.clock ≤ now then { s with clock := now } else s
  | .outside mem => { s with mem := mem }

/-- The loop is entered with an owner that is attached, in whatever phase the process is. -/
def entered (mem : SharedState) (clock : UInt64) (phase : Phase) (memory : ProcessMemory)
    (cpuTicks staleAfterNs : UInt64) : ExitRun where
  mem := mem
  clock := clock
  phase := phase
  memory := memory
  cpuTicks := cpuTicks
  observer :=
    { process := process
      attached := true
      staleAfterNs := staleAfterNs
      latest := { identity := process.identity } }
  pc := .polling (pollReads process)

/-- Every poll was sampled or exited, and where the loop has ended it has returned 0
and printed the line about the exit. -/
structure Reported (s : ExitRun) : Prop where
  statuses : ∀ status ∈ s.statuses, status = .sampled ∨ status = .exited
  error : s.error = none
  returned : ∀ code, s.pc = .returned code → code = 0 ∧ s.lifecycle.isSome = true

/-- Where a poll has read the status file of a process that was no longer running,
its liveness check does not reach the stat entry before that is gone. -/
def Noticed (s : ExitRun) : ExitEvent → Prop
  | .watch => s.pc.place = some .identity → s.late = true → s.phase = .reaped
  | _ => True

instance (s : ExitRun) : ∀ e, Decidable (s.Noticed e)
  | .watch => inferInstanceAs (Decidable (_ → _ → _))
  | .exit _ | .usage _ _ | .tick _ | .outside _ => isTrue trivial

/-- The exit shows, in the descriptor or else in the process table. -/
def Gone (s : ExitRun) : Prop := process.signalled (s.view process) = true

end ExitRun

end Peepbooth
