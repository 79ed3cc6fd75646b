import Mathlib.Logic.Function.Basic
import Mathlib.Algebra.Ring.Nat

/-! The memory one producer shares with its watcher, and the words that the
breadcrumb ring stores in it. -/

namespace Peepbooth

def sharedStateMagic : UInt64 := 0x4350505257444f47
def sharedStateVersion : UInt16 := 1
/-- `offsetof(shared_state, heartbeats)` -/
def headerSize : UInt16 := 88
/-- `sizeof(shared_state)` -/
def totalSize : UInt32 := 6328

abbrev heartbeatChannelCount : Nat := 4
abbrev breadcrumbCapacity : Nat := 128

/-- `enum class channel` has a fixed underlying type, so every byte is a value of it. -/
structure Channel where
  raw : UInt8
  deriving DecidableEq, Repr

def Channel.main : Channel := ⟨1⟩
def Channel.gui : Channel := ⟨2⟩
def Channel.core : Channel := ⟨3⟩
def Channel.worker : Channel := ⟨4⟩

/-- The index of a channel, or `heartbeatChannelCount` for a value that names none. -/
def channelIndex (value : Channel) : Nat :=
  if value.raw = 0 ∨ value.raw.toNat > heartbeatChannelCount then heartbeatChannelCount
  else value.raw.toNat - 1

namespace Lifecycle

def starting : UInt32 := 1
def running : UInt32 := 2
def stopping : UInt32 := 3
def cleanExit : UInt32 := 4

end Lifecycle

structure Breadcrumb where
  timestampNs : UInt64 := 0
  eventId : UInt16 := 0
  flags : UInt16 := 0
  sourceId : UInt32 := 0
  arg0 : UInt64 := 0
  arg1 : UInt64 := 0
  deriving DecidableEq, Repr

@[ext] structure HeartbeatSlot where
  timestampNs : UInt64 := 0
  sequence : UInt64 := 0
  active : UInt32 := 0
  deriving DecidableEq, Repr

structure BreadcrumbSlot where
  commit : UInt64 := 0
  ticket : UInt64 := 0
  timestampNs : UInt64 := 0
  arg0 : UInt64 := 0
  arg1 : UInt64 := 0
  sourceId : UInt32 := 0
  eventAndFlags : UInt32 := 0
  deriving DecidableEq, Repr

structure SharedState where
  magic : UInt64 := sharedStateMagic
  version : UInt16 := sharedStateVersion
  headerSize : UInt16 := 0
  totalSize : UInt32 := 0
  pid : UInt32 := 0
  uid : UInt32 := 0
  processStartTicks : UInt64 := 0
  processName : List UInt8 := List.replicate 32 0
  processLifecycle : UInt32 := Lifecycle.starting
  watcherPresent : UInt32 := 0
  watcherLeaseUntilNs : UInt64 := 0
  breadcrumbTicket : UInt64 := 0
  heartbeats : Fin heartbeatChannelCount → HeartbeatSlot := fun _ => {}
  breadcrumbs : Fin breadcrumbCapacity → BreadcrumbSlot := fun _ => {}

namespace SharedState

def setHeartbeat (m : SharedState) (index : Fin heartbeatChannelCount)
    (slot : HeartbeatSlot) : SharedState :=
  { m with heartbeats := Function.update m.heartbeats index slot }

def setBreadcrumb (m : SharedState) (index : Fin breadcrumbCapacity)
    (slot : BreadcrumbSlot) : SharedState :=
  { m with breadcrumbs := Function.update m.breadcrumbs index slot }

/-- A state right after `create_process_mapping`: nobody has watched it and
nothing has been published in it. -/
structure Fresh (m : SharedState) : Prop where
  watcherPresent : m.watcherPresent = 0
  watcherLeaseUntilNs : m.watcherLeaseUntilNs = 0
  breadcrumbTicket : m.breadcrumbTicket = 0
  heartbeats : ∀ i, m.heartbeats i = {}
  breadcrumbs : ∀ k, m.breadcrumbs k = {}

/-- The state `create_process_mapping` publishes. `startTicks` is what it could
read of its own identity. -/
def createProcessMapping (pid uid : UInt32) (startTicks : Option UInt64)
    (processName : List UInt8) : SharedState where
  headerSize := Peepbooth.headerSize
  totalSize := Peepbooth.totalSize
  pid := pid
  uid := uid
  processStartTicks := startTicks.getD 0
  processName := processName.take 31 ++ List.replicate (32 - (processName.take 31).length) 0
  processLifecycle := Lifecycle.running

theorem createProcessMapping_fresh (pid uid : UInt32) (startTicks : Option UInt64)
    (processName : List UInt8) : (createProcessMapping pid uid startTicks processName).Fresh :=
  ⟨rfl, rfl, rfl, fun _ => rfl, fun _ => rfl⟩

end SharedState

/-- The slot of a ticket, `(ticket - 1) % breadcrumb_capacity`. -/
def slotIndex (ticket : UInt64) : Fin breadcrumbCapacity :=
  ⟨((ticket - 1) % 128).toNat, by simpa using Nat.mod_lt _ (by decide)⟩

/-- The commit word of a finished slot. -/
def closedWord (ticket : UInt64) : UInt64 := ticket <<< 1
/-- The commit word of a slot that is being written. -/
def openWord (ticket : UInt64) : UInt64 := ticket <<< 1 ||| 1

def packEvent (eventId flags : UInt16) : UInt32 := eventId.toUInt32 ||| flags.toUInt32 <<< 16

theorem toNat_closedWord (t : UInt64) : (closedWord t).toNat = 2 * t.toNat % 2 ^ 64 := by
  simp [closedWord, UInt64.toNat_shiftLeft, Nat.shiftLeft_eq, Nat.mul_comm]

theorem openWord_ne_closedWord (t u : UInt64) : openWord t ≠ closedWord u := by
  intro h
  have ho : (openWord t).toNat % 2 = 1 := by
    simp [openWord, UInt64.toNat_or, Nat.or_mod_two_eq_one]
  have hc : (closedWord u).toNat % 2 = 0 := by
    rw [toNat_closedWord]
    omega
  rw [h, hc] at ho
  exact absurd ho (by decide)

theorem closedWord_inj {t u : UInt64} (ht : t.toNat < 2 ^ 63) (hu : u.toNat < 2 ^ 63)
    (h : closedWord t = closedWord u) : t = u := by
  have hh := congrArg UInt64.toNat h
  simp only [toNat_closedWord] at hh
  exact UInt64.toNat_inj.mp (by omega)

theorem packEvent_event (e f : UInt16) : (packEvent e f &&& 0xffff).toUInt16 = e := by
  apply UInt16.toNat_inj.mp
  have he := e.toNat_lt
  have hf := f.toNat_lt
  simp only [packEvent, UInt32.toNat_toUInt16, UInt32.toNat_and, UInt32.toNat_or,
    UInt16.toNat_toUInt32, UInt32.toNat_shiftLeft]
  have hm : (0xffff : UInt32).toNat = 2 ^ 16 - 1 := by decide
  rw [hm, Nat.and_two_pow_sub_one_eq_mod, Nat.mod_mod_of_dvd _ (by decide), Nat.or_mod_two_pow]
  have hs : (f.toNat <<< ((16 : UInt32).toNat % 32) % 2 ^ 32) % 2 ^ 16 = 0 := by
    have : (16 : UInt32).toNat % 32 = 16 := by decide
    rw [this, Nat.shiftLeft_eq]
    omega
  rw [hs, Nat.or_zero]
  exact Nat.mod_eq_of_lt he

theorem packEvent_flags (e f : UInt16) : (packEvent e f >>> 16).toUInt16 = f := by
  apply UInt16.toNat_inj.mp
  have he := e.toNat_lt
  have hf := f.toNat_lt
  have hs : (16 : UInt32).toNat % 32 = 16 := by decide
  have hb : f.toNat <<< 16 % 2 ^ 32 = f.toNat <<< 16 := by
    rw [Nat.shiftLeft_eq]
    omega
  simp only [packEvent, UInt32.toNat_toUInt16, UInt32.toNat_shiftRight, UInt32.toNat_or,
    UInt16.toNat_toUInt32, UInt32.toNat_shiftLeft, hs, hb, Nat.shiftRight_or_distrib]
  rw [Nat.shiftLeft_shiftRight, Nat.shiftRight_eq_div_pow, Nat.div_eq_of_lt he, Nat.zero_or]
  exact Nat.mod_eq_of_lt hf

end Peepbooth
