import Peepbooth.RingWrite

/-! The client as the instrumented process runs it: its publishing calls, each
run alone from its first load to its last store. -/

namespace Peepbooth

/-- `minimum_interval_ns` of `client::heartbeat`, 500 ms -/
def minimumIntervalNs : UInt64 := 500000000

/-- `mapping` is what `state_` points at. -/
structure Client where
  mapping : Option SharedState := none
  nextHeartbeatNs : Fin heartbeatChannelCount → UInt64 := fun _ => 0

namespace SharedState

/-- `client::active_state`: the state it leaves, and whether it returns it. -/
def activeState (m : SharedState) (now : UInt64) : SharedState × Bool :=
  if m.watcherPresent = 0 then (m, false)
  else if m.watcherLeaseUntilNs < now then ({ m with watcherPresent := 0 }, false)
  else (m, true)

/-- The slot of a heartbeat that is published. -/
def beat (m : SharedState) (index : Fin heartbeatChannelCount) (now : UInt64) : SharedState :=
  m.setHeartbeat index
    { m.heartbeats index with
      active := 1, timestampNs := now, sequence := (m.heartbeats index).sequence + 1 }

/-- The draw of a ticket and the stores in its slot. -/
def crumb (m : SharedState) (args : BreadcrumbArgs) (now : UInt64) : SharedState :=
  let d : RingWrite := ⟨m.breadcrumbTicket + 1, now, args⟩
  { m with breadcrumbTicket := m.breadcrumbTicket + 1 }.setBreadcrumb d.index
    (SlotStore.inOrder.foldl (SlotStore.apply d) (m.breadcrumbs d.index))

end SharedState

namespace Client

def available (c : Client) : Bool := c.mapping.isSome

/-- `client::heartbeat` at clock reading `now` -/
def heartbeat (c : Client) (value : Channel) (now : UInt64) : Client :=
  match c.mapping with
  | none => c
  | some unchecked =>
    if unchecked.watcherPresent = 0 then c
    else
      let (state, active) := unchecked.activeState now
      if h : active ∧ channelIndex value < heartbeatChannelCount then
        let index : Fin heartbeatChannelCount := ⟨channelIndex value, h.2⟩
        if now < c.nextHeartbeatNs index then { c with mapping := some state }
        else
          { mapping := some (state.beat index now)
            nextHeartbeatNs :=
              Function.update c.nextHeartbeatNs index (now + minimumIntervalNs) }
      else { c with mapping := some state }

/-- `client::set_channel_active` -/
def setChannelActive (c : Client) (value : Channel) (active : Bool) (now : UInt64) : Client :=
  match c.mapping with
  | none => c
  | some state =>
    if h : channelIndex value < heartbeatChannelCount then
      let index : Fin heartbeatChannelCount := ⟨channelIndex value, h⟩
      let c' : Client :=
        { c with
          mapping := some (state.setHeartbeat index
            { state.heartbeats index with active := if active then 1 else 0 }) }
      if active then c'.heartbeat value now else c'
    else c

/-- `client::breadcrumb` -/
def breadcrumb (c : Client) (args : BreadcrumbArgs) (now : UInt64) : Client :=
  match c.mapping with
  | none => c
  | some unchecked =>
    if unchecked.watcherPresent = 0 then c
    else
      let (state, active) := unchecked.activeState now
      if active then { c with mapping := some (state.crumb args now) }
      else { c with mapping := some state }

end Client

inductive Call
  | heartbeat (value : Channel)
  | setChannelActive (value : Channel) (active : Bool)
  | breadcrumb (args : BreadcrumbArgs)
  deriving DecidableEq, Repr

def Client.call (c : Client) (now : UInt64) : Call → Client
  | .heartbeat value => c.heartbeat value now
  | .setChannelActive value active => c.setChannelActive value active now
  | .breadcrumb args => c.breadcrumb args now

end Peepbooth
