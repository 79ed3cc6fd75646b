import Peepbooth.CallHistory
import Mathlib.Logic.Function.Iterate

/-! A thread that runs alone. Its accesses, made one after the other, add up to
the call of the client. -/

namespace Peepbooth

open Schedule

def Shared.client (s : Shared) : Client :=
  ⟨if s.state then some s.mem else none, s.nextHeartbeatNs⟩

namespace Pc

variable {pc : Pc} {s t : Shared} {work : Work} {now : UInt64}
  {index : Fin heartbeatChannelCount}

end Pc

namespace System

variable {s : System} {i : Nat}

def drawEvents (i : Nat) (args : BreadcrumbArgs) : List Event :=
  .call i (.breadcrumb args) :: List.replicate 7 (.thread i false)

theorem run_drawEvents {s : System} {i : Nat} (args : BreadcrumbArgs) (hp : s.phase = .running)
    (hi : s.thread i = .idle) (hs : s.state = true) (hw : s.mem.watcherPresent ≠ 0)
    (hl : ¬s.mem.watcherLeaseUntilNs < s.clock) :
    run System.step s (drawEvents i args) =
      { s with
        thread := Function.update s.thread i
          (.store .opening ⟨s.mem.breadcrumbTicket + 1, s.clock, args⟩)
        mem := { s.mem with breadcrumbTicket := s.mem.breadcrumbTicket + 1 }
        log := { s.log with
          calls := s.log.calls ++ [⟨s.mem.breadcrumbTicket + 1, s.clock, args⟩]
          ringStored := true } } := by
  simp [drawEvents, List.replicate, System.step, System.stepThread, hp, hi, Pc.start, Pc.step, hs,
    hw, hl, Log.access, Pc.admitted, Shared.setMem]

end System

end Peepbooth
