import Peepbooth.FirstObservation
import Peepbooth.Restarts

/-! The heartbeat objects of a graphical application: each marks the gui channel active, beats
on it while its timer runs, and marks it inactive when it goes. -/

namespace Peepbooth

open Schedule

/-- `timerActive` is `timer_.isActive()`. -/
structure GuiHeartbeat where
  timerActive : Bool
  deriving DecidableEq, Repr

/-- `widget` holds the objects that exist. -/
structure Application (W : Type*) where
  client : Client := {}
  widget : W → Option GuiHeartbeat := fun _ => none

/-- `timerStarts` is whether the timer takes the interval it is given. `lease` is what a watcher
stores in the lease words, `call` a call made elsewhere in the application. -/
inductive ApplicationEvent (W : Type*)
  | start (created : Option { m : SharedState // m.Fresh })
  | stop
  | lease (present : UInt32) (untilNs : UInt64)
  | call (now : UInt64) (call : Call)
  | construct (w : W) (timerStarts : Bool) (now : UInt64)
  | timeout (w : W) (now : UInt64)
  | destroy (w : W) (now : UInt64)

def Call.onGui : Call → Bool
  | .heartbeat value | .setChannelActive value _ => value = Channel.gui
  | .breadcrumb _ => false

namespace ApplicationEvent

variable {W : Type*}

def clock : ApplicationEvent W → Option UInt64
  | .call now _ | .construct _ _ now | .timeout _ now | .destroy _ now => some now
  | _ => none

/-- The gui channel is left to the objects, and their timers do start. -/
def Ordinary : ApplicationEvent W → Prop
  | .call _ c => c.onGui = false
  | .construct _ timerStarts _ => timerStarts = true
  | _ => True

instance (e : ApplicationEvent W) : Decidable e.Ordinary := by
  cases e <;> unfold Ordinary <;> infer_instance

def stops : ApplicationEvent W → Bool
  | .stop => true
  | _ => false

end ApplicationEvent

namespace Application

variable {W : Type*} [DecidableEq W]

/-- The constructor; without a mapping the timer is left alone. -/
def construct (s : Application W) (w : W) (timerStarts : Bool) (now : UInt64) : Application W :=
  if !s.client.available then { s with widget := Function.update s.widget w (some ⟨false⟩) }
  else
    { client := s.client.setChannelActive .gui true now
      widget := Function.update s.widget w (some ⟨timerStarts⟩) }

/-- The destructor -/
def destroy (s : Application W) (w : W) (g : GuiHeartbeat) (now : UInt64) : Application W where
  client := if g.timerActive then s.client.setChannelActive .gui false now else s.client
  widget := Function.update s.widget w none

def step (s : Application W) : ApplicationEvent W → Application W
  | .start created => { s with client := s.client.start (created.map Subtype.val) }
  | .stop => { s with client := s.client.stop }
  | .lease present untilNs =>
    { s with client := { s.client with
        mapping := s.client.mapping.map fun m =>
          { m with watcherPresent := present, watcherLeaseUntilNs := untilNs } } }
  | .call now call => { s with client := s.client.call now call }
  | .construct w timerStarts now =>
    match s.widget w with
    | none => s.construct w timerStarts now
    | some _ => s
  | .timeout w now =>
    match s.widget w with
    | some ⟨true⟩ => { s with client := s.client.heartbeat .gui now }
    | _ => s
  | .destroy w now =>
    match s.widget w with
    | none => s
    | some g => s.destroy w g now

end Application

/-- All that a client keeps of the gui channel: its slot in the mapping in use, and the limiter. -/
def Client.gui (c : Client) : Option HeartbeatSlot × UInt64 :=
  (c.mapping.map (·.heartbeats guiIndex), c.nextHeartbeatNs guiIndex)

section Calls

variable {c : Client} {m : SharedState} {now : UInt64}

theorem channelIndex_gui {value : Channel} (h : channelIndex value = guiIndex.val) :
    value = Channel.gui := by
  have hall : ∀ raw : UInt8, channelIndex ⟨raw⟩ = 1 → raw = 2 := by
    intro raw hr
    apply UInt8.toNat_inj.mp
    unfold channelIndex at hr
    dsimp only at hr
    split at hr
    · exact absurd hr (by decide)
    · show raw.toNat = 2
      omega
  exact congrArg Channel.mk (hall value.raw h)

theorem expired_heartbeats (m : SharedState) (now : UInt64) :
    (m.expired now).heartbeats = m.heartbeats := by
  rw [SharedState.expired]
  split <;> rfl

theorem gui_heartbeat (hm : c.mapping = some m) :
    (c.heartbeat .gui now).gui =
      if m.Open now ∧ ¬now < c.gui.2 then
        (some {
          active := 1, timestampNs := now, sequence := (m.heartbeats guiIndex).sequence + 1 },
          now + minimumIntervalNs)
      else c.gui := by
  have hv : channelIndex Channel.gui < heartbeatChannelCount := by decide
  have hi : (⟨channelIndex .gui, hv⟩ : Fin heartbeatChannelCount) = guiIndex := rfl
  rw [heartbeat_mapping hm hv, hi]
  by_cases hd : m.Open now ∧ ¬now < c.gui.2
  · rw [if_pos hd, if_pos (show c.Due m guiIndex now from hd)]
    simp [Client.gui, SharedState.beat, SharedState.setHeartbeat]
  · rw [if_neg hd, if_neg (show ¬c.Due m guiIndex now from hd)]
    simp [Client.gui, hm, expired_heartbeats]

theorem gui_heartbeat_none (hm : c.mapping = none) : c.heartbeat .gui now = c := by
  rw [Client.heartbeat, hm]

theorem gui_setChannelActive (hm : c.mapping = some m) (active : Bool) :
    c.setChannelActive .gui active now =
      if active then Client.heartbeat { c with mapping := some (m.marked guiIndex true) } .gui now
      else { c with mapping := some (m.marked guiIndex false) } :=
  setChannelActive_eq now hm (by decide) active

theorem marked_gui (m : SharedState) (active : Bool) :
    (m.marked guiIndex active).heartbeats guiIndex =
      { m.heartbeats guiIndex with active := if active then 1 else 0 } := by
  simp [SharedState.marked, SharedState.setHeartbeat]

theorem gui_of_ne {value : Channel} (hv : value ≠ Channel.gui) : (c.heartbeat value now).gui =
    c.gui := by
  cases hm : c.mapping with
  | none => rw [Client.heartbeat, hm]
  | some m =>
    by_cases hn : channelIndex value < heartbeatChannelCount
    · have hi : guiIndex ≠ ⟨channelIndex value, hn⟩ := fun h =>
        hv (channelIndex_gui (congrArg Fin.val h).symm)
      rw [heartbeat_mapping hm hn]
      split
      · simp [Client.gui, hm, SharedState.beat, SharedState.setHeartbeat, hi]
      · simp [Client.gui, hm, expired_heartbeats]
    · rw [heartbeat_unnamed hm hn]
      simp [Client.gui, hm, expired_heartbeats]

/-- A call on another channel. -/
theorem gui_call {call : Call} (h : call.onGui = false) : (c.call now call).gui = c.gui := by
  cases call with
  | heartbeat value => exact gui_of_ne (of_decide_eq_false h)
  | breadcrumb args =>
    have hnext : (c.breadcrumb args now).nextHeartbeatNs = c.nextHeartbeatNs := by
      unfold Client.breadcrumb
      split
      · rfl
      · dsimp only
        split <;> [rfl; split <;> rfl]
    cases hm : c.mapping with
    | none => rw [Client.call, Client.breadcrumb, hm]
    | some m =>
      rw [Client.gui, Client.gui, Client.call, hnext, breadcrumb_mapping hm, hm]
      split
      · rfl
      · rw [Option.map_some, expired_heartbeats]
        rfl
  | setChannelActive value active =>
    have hv : value ≠ Channel.gui := of_decide_eq_false h
    cases hm : c.mapping with
    | none => rw [Client.call, Client.setChannelActive, hm]
    | some m =>
      by_cases hn : channelIndex value < heartbeatChannelCount
      · have hi : guiIndex ≠ ⟨channelIndex value, hn⟩ := fun h =>
          hv (channelIndex_gui (congrArg Fin.val h).symm)
        have hmarked (active : Bool) :
            (m.marked ⟨channelIndex value, hn⟩ active).heartbeats guiIndex =
              m.heartbeats guiIndex := by
          simp [SharedState.marked, SharedState.setHeartbeat, hi]
        rw [Client.call, setChannelActive_eq now hm hn]
        split
        · rw [gui_of_ne hv]
          simp [Client.gui, hm, hmarked]
        · simp [Client.gui, hm, hmarked]
      · rw [Client.call, Client.setChannelActive, hm]
        simp [hn]

end Calls

namespace Application

variable {W : Type*} [DecidableEq W] {s : Application W} {w : W} {now : UInt64}

/-- When the gui channel was last published in the mapping in use, and its limiter. -/
def beat (s : Application W) : Option UInt64 × UInt64 :=
  (s.client.gui.1.map (·.timestampNs), s.client.gui.2)

omit [DecidableEq W] in
theorem beat_eq {s t : Application W} (h : t.client.gui = s.client.gui) : t.beat = s.beat := by
  rw [beat, beat, h]

/-- What an event that does not stop the client does to the beats. -/
inductive Moves (clock : Option UInt64) (before : Option UInt64 × UInt64) :
    Option UInt64 × UInt64 → Prop
  | keep : Moves clock before before
  | create (h : before.1 = none) : Moves clock before (some 0, before.2)
  | publish (t : UInt64) (ht : clock = some t) (h : before.1.isSome = true) :
    Moves clock before (some t, t + minimumIntervalNs)

theorem moves_heartbeat {c c' : Client} {m : SharedState} {clock : Option UInt64}
    (hm : c'.mapping = some m) (hc : clock = some now)
    (hb : c'.gui.1.map (·.timestampNs) = c.gui.1.map (·.timestampNs)) (hn : c'.gui.2 = c.gui.2) :
    Moves clock (c.gui.1.map (·.timestampNs), c.gui.2)
      ((c'.heartbeat .gui now).gui.1.map (·.timestampNs), (c'.heartbeat .gui now).gui.2) := by
  rw [gui_heartbeat hm, ← hb, ← hn]
  split
  · exact .publish now hc (by simp [Client.gui, hm])
  · exact .keep

theorem moves_step {e : ApplicationEvent W} (he : e.Ordinary) (hstop : e.stops = false) :
    Moves e.clock s.beat (s.step e).beat := by
  have hkeep {t : Application W} {clock : Option UInt64} (h : t.client.gui = s.client.gui) :
      Moves clock s.beat t.beat := by
    rw [beat_eq h]
    exact .keep
  cases e with
  | stop => cases hstop
  | start created =>
    cases hm : s.client.mapping with
    | some m => exact hkeep (by simp [step, Client.start, Client.available, hm])
    | none =>
      cases created with
      | none => exact hkeep (by simp [step, Client.start, Client.available, hm])
      | some m =>
        have hnone : s.beat.1 = none := by simp [beat, Client.gui, hm]
        have hcreated : (s.step (.start (some m))).beat = (some 0, s.beat.2) := by
          simp [step, beat, Client.gui, Client.start, Client.available, hm, m.2.heartbeats]
        rw [hcreated]
        exact .create hnone
  | lease present untilNs =>
    refine hkeep ?_
    simp [step, Client.gui, Option.map_map, Function.comp_def]
  | call now call => exact hkeep (gui_call he)
  | construct w timerStarts now =>
    simp only [step]
    cases s.widget w with
    | some g => exact .keep
    | none =>
      cases hm : s.client.mapping with
      | none => exact hkeep (by simp [construct, Client.available, hm])
      | some m =>
        simp only [construct, Client.available, hm, Option.isSome_some, Bool.not_true,
          Bool.false_eq_true, if_false, beat, gui_setChannelActive hm, if_true]
        exact moves_heartbeat rfl rfl (by simp [Client.gui, hm, marked_gui]) rfl
  | timeout w now =>
    simp only [step]
    split
    · cases hm : s.client.mapping with
      | none => exact hkeep (by rw [gui_heartbeat_none hm])
      | some m => exact moves_heartbeat hm rfl rfl rfl
    · exact .keep
  | destroy w now =>
    simp only [step]
    cases s.widget w with
    | none => exact .keep
    | some g =>
      cases hm : s.client.mapping with
      | none => exact hkeep (by simp [destroy, Client.setChannelActive, hm])
      | some m =>
        cases hg : g.timerActive with
        | false => exact hkeep (by simp [destroy, hg])
        | true =>
          have hbeat : (s.destroy w g now).beat = s.beat := by
            simp only [destroy, hg, if_true, beat, gui_setChannelActive hm]
            simp [Client.gui, hm, marked_gui]
          rw [hbeat]
          exact .keep

/-- The limiter stands one interval after the last publication. -/
def Paced (g : Option UInt64 × UInt64) : Prop :=
  match g.1 with
  | none => g.2 = 0
  | some t => g.2 = 0 ∨ t ≠ 0 ∧ g.2.toNat = t.toNat + 500000000

variable {clock : Option UInt64} {before after : Option UInt64 × UInt64} {c : UInt64}

end Application

namespace Application

variable {W : Type*} [DecidableEq W]

/-- The memory of a process that has just started. -/
def created : Option { m : SharedState // m.Fresh } :=
  some ⟨.createProcessMapping 12 1000 (some 250) [],
    SharedState.createProcessMapping_fresh 12 1000 (some 250) []⟩

/-- A window that opens under a lease. -/
def opened : List (ApplicationEvent Unit) :=
  [.start created, .lease 1 9000000000, .construct () true 1000000000]

def memory (es : List (ApplicationEvent Unit)) : SharedState :=
  ((run step ({} : Application Unit) es).client.mapping).getD {}

end Application

end Peepbooth
