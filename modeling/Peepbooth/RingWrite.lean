import Peepbooth.SharedState

/-! The stores that publish one breadcrumb in its slot of the ring. -/

namespace Peepbooth

/-- The arguments of `client::breadcrumb`. -/
structure BreadcrumbArgs where
  eventId : UInt16
  sourceId : UInt32 := 0
  arg0 : UInt64 := 0
  arg1 : UInt64 := 0
  flags : UInt16 := 0
  deriving DecidableEq, Repr

/-- A `breadcrumb()` call that has drawn its ticket. -/
structure RingWrite where
  ticket : UInt64
  now : UInt64
  args : BreadcrumbArgs
  deriving DecidableEq, Repr

/-- The stores of `client::breadcrumb` after the draw, in program order. -/
inductive SlotStore
  | opening
  | ticket
  | timestampNs
  | arg0
  | arg1
  | sourceId
  | eventAndFlags
  | closing
  deriving DecidableEq, Repr

namespace SlotStore

def next : SlotStore → Option SlotStore
  | opening => some ticket
  | ticket => some timestampNs
  | timestampNs => some arg0
  | arg0 => some arg1
  | arg1 => some sourceId
  | sourceId => some eventAndFlags
  | eventAndFlags => some closing
  | closing => none

def inOrder : List SlotStore :=
  [opening, ticket, timestampNs, arg0, arg1, sourceId, eventAndFlags, closing]

/-- How many stores come before it. -/
def position : SlotStore → Nat
  | opening => 0
  | ticket => 1
  | timestampNs => 2
  | arg0 => 3
  | arg1 => 4
  | sourceId => 5
  | eventAndFlags => 6
  | closing => 7

def apply (d : RingWrite) (slot : BreadcrumbSlot) : SlotStore → BreadcrumbSlot
  | opening => { slot with commit := openWord d.ticket }
  | ticket => { slot with ticket := d.ticket }
  | timestampNs => { slot with timestampNs := d.now }
  | arg0 => { slot with arg0 := d.args.arg0 }
  | arg1 => { slot with arg1 := d.args.arg1 }
  | sourceId => { slot with sourceId := d.args.sourceId }
  | eventAndFlags => { slot with eventAndFlags := packEvent d.args.eventId d.args.flags }
  | closing => { slot with commit := closedWord d.ticket }

theorem next_ne_opening {w w' : SlotStore} (h : w.next = some w') : w' ≠ opening := by
  rintro rfl
  cases w <;> cases h

theorem exists_next {w : SlotStore} (h : w ≠ closing) : ∃ w', w.next = some w' := by
  cases w <;> simp_all [next]

end SlotStore

namespace RingWrite

def index (d : RingWrite) : Fin breadcrumbCapacity := slotIndex d.ticket

/-- The slot as the finished call leaves it. -/
def slot (d : RingWrite) : BreadcrumbSlot where
  commit := closedWord d.ticket
  ticket := d.ticket
  timestampNs := d.now
  arg0 := d.args.arg0
  arg1 := d.args.arg1
  sourceId := d.args.sourceId
  eventAndFlags := packEvent d.args.eventId d.args.flags

def breadcrumb (d : RingWrite) : Breadcrumb where
  timestampNs := d.now
  eventId := d.args.eventId
  flags := d.args.flags
  sourceId := d.args.sourceId
  arg0 := d.args.arg0
  arg1 := d.args.arg1

def contents (slot : BreadcrumbSlot) : Breadcrumb where
  timestampNs := slot.timestampNs
  eventId := (slot.eventAndFlags &&& 0xffff).toUInt16
  flags := (slot.eventAndFlags >>> 16).toUInt16
  sourceId := slot.sourceId
  arg0 := slot.arg0
  arg1 := slot.arg1

@[simp] theorem contents_slot (d : RingWrite) : contents d.slot = d.breadcrumb := by
  simp only [contents, slot, breadcrumb, packEvent_event, packEvent_flags]

/-- The slot once the call has made every store before `w`: open, and with the
fields stored so far. -/
def Written (d : RingWrite) (slot : BreadcrumbSlot) (w : SlotStore) : Prop :=
  (0 < w.position → slot.commit = openWord d.ticket) ∧
  (1 < w.position → slot.ticket = d.ticket) ∧
  (2 < w.position → slot.timestampNs = d.now) ∧
  (3 < w.position → slot.arg0 = d.args.arg0) ∧
  (4 < w.position → slot.arg1 = d.args.arg1) ∧
  (5 < w.position → slot.sourceId = d.args.sourceId) ∧
  (6 < w.position → slot.eventAndFlags = packEvent d.args.eventId d.args.flags)

theorem written_next {d : RingWrite} {slot : BreadcrumbSlot} {w w' : SlotStore}
    (h : d.Written slot w) (hw : w.next = some w') : d.Written (w.apply d slot) w' := by
  cases w <;> cases hw <;> simp_all [Written, SlotStore.apply, SlotStore.position]

theorem apply_closing {d : RingWrite} {slot : BreadcrumbSlot} (h : d.Written slot .closing) :
    SlotStore.closing.apply d slot = d.slot := by
  simp only [Written, SlotStore.position, Nat.reduceLT, forall_const] at h
  simp [SlotStore.apply, RingWrite.slot, h]

theorem written_commit {d : RingWrite} {slot : BreadcrumbSlot} {w : SlotStore}
    (h : d.Written slot w) (hw : w ≠ .opening) : slot.commit = openWord d.ticket := by
  exact h.1 (by cases w <;> simp_all [SlotStore.position])

theorem foldl_inOrder (d : RingWrite) (slot : BreadcrumbSlot) :
    SlotStore.inOrder.foldl (SlotStore.apply d) slot = d.slot := by
  simp [SlotStore.inOrder, SlotStore.apply, RingWrite.slot]

end RingWrite

end Peepbooth
