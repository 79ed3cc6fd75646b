import Peepbooth.RingLog
import Peepbooth.RingReader
import Peepbooth.Admission
import Peepbooth.Feed

/-! The ring as a log of the breadcrumbs that have been let through, while calls are made one
at a time. -/

namespace Peepbooth

open Schedule

/-- The slot of a breadcrumb that has `k` before it. -/
def Breadcrumb.slot (k : Nat) (b : Breadcrumb) : BreadcrumbSlot where
  commit := closedWord (UInt64.ofNat (k + 1))
  ticket := UInt64.ofNat (k + 1)
  timestampNs := b.timestampNs
  arg0 := b.arg0
  arg1 := b.arg1
  sourceId := b.sourceId
  eventAndFlags := packEvent b.eventId b.flags

theorem slotIndex_ofNat (k : Nat) : slotIndex (UInt64.ofNat (k + 1)) = Fin.ofNat 128 k := by
  apply Fin.ext
  have hsub : (UInt64.ofNat (k + 1) - 1).toNat = k % 2 ^ 64 := by
    rw [UInt64.ofNat_add]
    simp
  have hdvd : 128 ∣ 2 ^ 64 := by decide
  show ((UInt64.ofNat (k + 1) - 1) % 128).toNat = k % 128
  rw [UInt64.toNat_mod, hsub]
  exact Nat.mod_mod_of_dvd k hdvd

namespace SharedState

variable {m : SharedState} {trail : List Breadcrumb}

/-- What an operation adds to the trail of breadcrumbs. -/
def publishes (m : SharedState) : Operation → List Breadcrumb
  | .call now (.breadcrumb args) =>
    if m.Open now then [(⟨m.breadcrumbTicket + 1, now, args⟩ : RingWrite).breadcrumb] else []
  | _ => []

/-- The ring is the end of the trail. -/
structure Trails (m : SharedState) (trail : List Breadcrumb) : Prop where
  ticket : m.breadcrumbTicket = UInt64.ofNat trail.length
  slots : RingLog.Holds Breadcrumb.slot m.breadcrumbs trail

theorem Fresh.trails (h : m.Fresh) : m.Trails [] :=
  ⟨h.breadcrumbTicket, RingLog.holds_nil⟩

def ring (m : SharedState) : UInt64 × (Fin breadcrumbCapacity → BreadcrumbSlot) :=
  (m.breadcrumbTicket, m.breadcrumbs)

theorem Trails.of_ring {m' : SharedState} (h : m.Trails trail) (hr : m'.ring = m.ring) :
    m'.Trails trail := by
  obtain ⟨hticket, hslots⟩ := Prod.mk.inj hr
  exact ⟨hticket ▸ h.ticket, hslots ▸ h.slots⟩

theorem Trails.crumb (h : m.Trails trail) (args : BreadcrumbArgs) (now : UInt64) :
    (m.crumb args now).Trails
      (trail ++ [(⟨m.breadcrumbTicket + 1, now, args⟩ : RingWrite).breadcrumb]) := by
  have hticket : m.breadcrumbTicket + 1 = UInt64.ofNat (trail.length + 1) := by
    rw [h.ticket, UInt64.ofNat_add]
    rfl
  refine ⟨?_, ?_⟩
  · rw [List.length_append, List.length_singleton, ← hticket]
    rfl
  · rw [crumb_breadcrumbs, hticket, slotIndex_ofNat]
    exact h.slots.push _

end SharedState

section Calls

variable {c : Client} {m : SharedState} {now : UInt64}

theorem heartbeat_ring (now : UInt64) (hm : c.mapping = some m) (value : Channel) :
    ∃ m', (c.heartbeat value now).mapping = some m' ∧ m'.ring = m.ring := by
  have hexpired : (m.expired now).ring = m.ring := by
    unfold SharedState.expired
    split <;> rfl
  by_cases hv : channelIndex value < heartbeatChannelCount
  · rw [heartbeat_mapping hm hv]
    split
    · exact ⟨_, rfl, rfl⟩
    · exact ⟨_, rfl, hexpired⟩
  · rw [heartbeat_unnamed hm hv]
    exact ⟨_, rfl, hexpired⟩

theorem setChannelActive_ring (now : UInt64) (hm : c.mapping = some m) (value : Channel)
    (active : Bool) :
    ∃ m', (c.setChannelActive value active now).mapping = some m' ∧ m'.ring = m.ring := by
  by_cases hv : channelIndex value < heartbeatChannelCount
  · rw [setChannelActive_eq now hm hv active]
    cases active with
    | false => exact ⟨_, rfl, rfl⟩
    | true =>
      exact heartbeat_ring now
        (c := { c with mapping := some (m.marked ⟨channelIndex value, hv⟩ true) }) rfl value
  · exact ⟨m, by simp [Client.setChannelActive, hm, hv], rfl⟩

/-- Every operation extends the trail by what it publishes. -/
theorem trails_operate {trail : List Breadcrumb} (h : m.Trails trail) (hm : c.mapping = some m)
    (identity : ProcessIdentity) (uid : UInt32) (op : Operation) :
    ∃ m', (c.operate identity uid op).mapping = some m' ∧ m'.Trails (trail ++ m.publishes op) := by
  have hkept {m' : SharedState} (hr : m'.ring = m.ring) : m'.Trails (trail ++ []) := by
    rw [List.append_nil]
    exact h.of_ring hr
  cases op with
  | attach now =>
    refine ⟨if m.validState identity uid then m.renewLease now else m,
      by simp [Client.operate, hm], hkept ?_⟩
    split <;> rfl
  | renew now duration =>
    exact ⟨m.renewLease now duration, by simp [Client.operate, hm], hkept rfl⟩
  | release => exact ⟨m.release, by simp [Client.operate, hm], hkept rfl⟩
  | call now call =>
    cases call with
    | heartbeat value =>
      obtain ⟨m', hm', hr⟩ := heartbeat_ring now hm value
      exact ⟨m', hm', hkept hr⟩
    | setChannelActive value active =>
      obtain ⟨m', hm', hr⟩ := setChannelActive_ring now hm value active
      exact ⟨m', hm', hkept hr⟩
    | breadcrumb args =>
      refine ⟨_, breadcrumb_mapping hm args, ?_⟩
      unfold SharedState.publishes
      dsimp only
      split
      · exact h.crumb args now
      · refine hkept ?_
        unfold SharedState.expired
        split <;> rfl

end Calls

/-- What `read_breadcrumb` makes of the slot of the ticket after `k`. -/
def BreadcrumbSlot.read (k : Nat) (slot : BreadcrumbSlot) : Option Breadcrumb :=
  if slot.commit = closedWord (UInt64.ofNat (k + 1)) ∧ slot.ticket = UInt64.ofNat (k + 1) then
    some (RingWrite.contents slot)
  else none

theorem BreadcrumbSlot.read_slot (k : Nat) (b : Breadcrumb) :
    (b.slot k).read k = some (id b) := by
  rw [read, if_pos ⟨rfl, rfl⟩]
  simp only [RingWrite.contents, Breadcrumb.slot, packEvent_event, packEvent_flags, id]

/-- A snapshot that nothing disturbs returns the end of the trail. -/
theorem SharedState.Trails.snapshot {w : World} {trail : List Breadcrumb} (h : w.mem.Trails trail)
    (hl : trail.length < 2 ^ 64) :
    (Peepbooth.snapshot.run w).breadcrumbs.map (·.2) = trail.rtake 128 := by
  have hread (k : Nat) : (readBreadcrumb (UInt64.ofNat (k + 1))).run w =
      (w.mem.breadcrumbs (Fin.ofNat 128 k)).read k := by
    rw [run_readBreadcrumb, slotIndex_ofNat]
    rfl
  have hlog := h.slots.filterMap_range' BreadcrumbSlot.read id fun k b _ =>
    BreadcrumbSlot.read_slot k b
  rw [List.map_id] at hlog
  rw [run_snapshot_breadcrumbs, run_readRing, h.ticket, ringTickets_ofNat hl, List.range'_succ_left,
    List.map_map, List.filterMap_map, List.map_filterMap, ← hlog]
  refine List.filterMap_congr fun k _ => ?_
  simp only [Function.comp_apply, hread, Option.map_map]
  exact Option.map_id'

end Peepbooth
