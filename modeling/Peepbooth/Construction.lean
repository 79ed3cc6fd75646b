import Peepbooth.Watchdog

/-! The stores of `create_process_mapping` in the memory that it has mapped, in the order
of the program, and the loads of `valid_state`. The size of the header is stored only
after everything that a watcher and the client share has been constructed. -/

namespace Peepbooth

/-- A store in a shared state while it is set up. -/
inductive InitWrite
  | magic (value : UInt64)
  | version (value : UInt16)
  | headerSize (value : UInt16)
  | totalSize (value : UInt32)
  | pid (value : UInt32)
  | uid (value : UInt32)
  | processStartTicks (value : UInt64)
  | processName (value : List UInt8)
  | copyName (bytes : List UInt8)
  | endName (copied : Nat)
  | processLifecycle (value : UInt32)
  | watcherPresent (value : UInt32)
  | watcherLeaseUntilNs (value : UInt64)
  | breadcrumbTicket (value : UInt64)
  | heartbeat (index : Fin heartbeatChannelCount) (slot : HeartbeatSlot)
  | breadcrumb (index : Fin breadcrumbCapacity) (slot : BreadcrumbSlot)
  deriving DecidableEq

/-- The lease, the ticket counter, the heartbeat slots and the ring are the same. -/
structure SharedState.SameBody (m m' : SharedState) : Prop where
  watcherPresent : m'.watcherPresent = m.watcherPresent
  watcherLeaseUntilNs : m'.watcherLeaseUntilNs = m.watcherLeaseUntilNs
  breadcrumbTicket : m'.breadcrumbTicket = m.breadcrumbTicket
  heartbeats : m'.heartbeats = m.heartbeats
  breadcrumbs : m'.breadcrumbs = m.breadcrumbs

theorem SharedState.SameBody.refl (m : SharedState) : SameBody m m := ⟨rfl, rfl, rfl, rfl, rfl⟩

namespace InitWrite

def apply (m : SharedState) : InitWrite → SharedState
  | magic value => { m with magic := value }
  | version value => { m with version := value }
  | headerSize value => { m with headerSize := value }
  | totalSize value => { m with totalSize := value }
  | pid value => { m with pid := value }
  | uid value => { m with uid := value }
  | processStartTicks value => { m with processStartTicks := value }
  | processName value => { m with processName := value }
  | copyName bytes => { m with processName := bytes ++ m.processName.drop bytes.length }
  | endName copied => { m with processName := m.processName.set copied 0 }
  | processLifecycle value => { m with processLifecycle := value }
  | watcherPresent value => { m with watcherPresent := value }
  | watcherLeaseUntilNs value => { m with watcherLeaseUntilNs := value }
  | breadcrumbTicket value => { m with breadcrumbTicket := value }
  | heartbeat index slot => m.setHeartbeat index slot
  | breadcrumb index slot => m.setBreadcrumb index slot

/-- The store is to a word of the lease, the ticket counter, a heartbeat slot or the ring. -/
def isBody : InitWrite → Bool
  | watcherPresent _ | watcherLeaseUntilNs _ | breadcrumbTicket _ | heartbeat .. | breadcrumb .. =>
    true
  | _ => false

/-- `new (address) shared_state {}`, member by member -/
def construction : List InitWrite :=
  [magic sharedStateMagic, version sharedStateVersion, headerSize 0, totalSize 0, pid 0, uid 0,
    processStartTicks 0, processName (List.replicate 32 0), processLifecycle Lifecycle.starting,
    watcherPresent 0, watcherLeaseUntilNs 0, breadcrumbTicket 0] ++
  (List.finRange heartbeatChannelCount).map (heartbeat · {}) ++
  (List.finRange breadcrumbCapacity).map (breadcrumb · {})

def header (ownPid ownUid : UInt32) : List InitWrite :=
  [headerSize Peepbooth.headerSize, totalSize Peepbooth.totalSize, pid ownPid, uid ownUid]

/-- What is stored once the identity of the process has been read. -/
def publication (startTicks : Option UInt64) (name : List UInt8) : List InitWrite :=
  (startTicks.map processStartTicks).toList ++
    [copyName (name.take 31), endName (min name.length 31), processLifecycle Lifecycle.running]

variable {m : SharedState} {w : InitWrite} {value : UInt16} {ownPid ownUid : UInt32}
  {startTicks : Option UInt64} {name : List UInt8}

theorem foldl_heartbeat (slots : List (Fin heartbeatChannelCount)) (m : SharedState) :
    (slots.map (heartbeat · {})).foldl apply m =
      { m with heartbeats := fun i => if i ∈ slots then {} else m.heartbeats i } := by
  induction slots generalizing m with
  | nil => simp
  | cons i slots ih =>
    rw [List.map_cons, List.foldl_cons, ih]
    simp only [apply, SharedState.setHeartbeat, List.mem_cons]
    congr 1
    funext j
    by_cases hj : j = i <;> by_cases hs : j ∈ slots <;> simp [hj, hs]

theorem foldl_breadcrumb (slots : List (Fin breadcrumbCapacity)) (m : SharedState) :
    (slots.map (breadcrumb · {})).foldl apply m =
      { m with breadcrumbs := fun k => if k ∈ slots then {} else m.breadcrumbs k } := by
  induction slots generalizing m with
  | nil => simp
  | cons k slots ih =>
    rw [List.map_cons, List.foldl_cons, ih]
    simp only [apply, SharedState.setBreadcrumb, List.mem_cons]
    congr 1
    funext j
    by_cases hj : j = k <;> by_cases hs : j ∈ slots <;> simp [hj, hs]

/-- Whatever the memory held, it is left as a new `shared_state`. -/
theorem foldl_construction (m : SharedState) : construction.foldl apply m = {} := by
  rw [construction, List.foldl_append, List.foldl_append, foldl_heartbeat, foldl_breadcrumb]
  simp [apply]

/-- All the stores together make the state that a client publishes. -/
theorem foldl_create (m : SharedState) (ownPid ownUid : UInt32) (startTicks : Option UInt64)
    (name : List UInt8) :
    (construction ++ header ownPid ownUid ++ publication startTicks name).foldl apply m =
      SharedState.createProcessMapping ownPid ownUid startTicks name := by
  have hname : ((name.take 31 ++ (List.replicate 32 (0 : UInt8)).drop (name.take 31).length).set
      (min name.length 31) 0) =
        name.take 31 ++ List.replicate (32 - (name.take 31).length) 0 := by
    have hlen : (name.take 31).length = min name.length 31 := by
      rw [List.length_take, Nat.min_comm]
    rw [← hlen, List.set_append_right _ _ le_rfl, Nat.sub_self, List.drop_replicate]
    cases h : 32 - (name.take 31).length with
    | zero => omega
    | succ k => rfl
  have hwhole := congrArg (fun n =>
    { SharedState.createProcessMapping ownPid ownUid startTicks name with processName := n }) hname
  rw [List.foldl_append, List.foldl_append, foldl_construction]
  cases startTicks <;> exact hwhole

/-- Until the construction is complete the size of the header stays zero. -/
theorem headerSize_of_mem_construction (h : headerSize value ∈ construction) : value = 0 := by
  simpa [construction] using h

theorem isBody_of_mem_header (h : w ∈ header ownPid ownUid) : w.isBody = false := by
  simp only [header, List.mem_cons, List.not_mem_nil, or_false] at h
  rcases h with rfl | rfl | rfl | rfl <;> rfl

theorem isBody_of_mem_publication (h : w ∈ publication startTicks name) : w.isBody = false := by
  simp only [publication, List.mem_append, List.mem_cons, List.not_mem_nil, or_false] at h
  rcases h with h | rfl | rfl | rfl
  · cases startTicks with
    | none => cases h
    | some value =>
      rw [List.mem_singleton.mp h]
      rfl
  all_goals rfl

theorem apply_headerSize (h : (w.apply m).headerSize ≠ 0) :
    m.headerSize ≠ 0 ∨ ∃ value, value ≠ 0 ∧ w = headerSize value := by
  cases w with
  | headerSize value => exact .inr ⟨value, h, rfl⟩
  | _ => exact .inl h

theorem apply_of_not_body (h : w.isBody = false) : m.SameBody (w.apply m) := by
  cases w with
  | watcherPresent | watcherLeaseUntilNs | breadcrumbTicket | heartbeat | breadcrumb => cases h
  | _ => exact ⟨rfl, rfl, rfl, rfl, rfl⟩

end InitWrite

/-- The loads of `valid_state`, in the order of the source. -/
inductive HeaderField
  | magic
  | version
  | headerSize
  | totalSize
  | pid
  | uid
  | processStartTicks
  deriving DecidableEq, Repr

namespace HeaderField

def inOrder : List HeaderField :=
  [magic, version, headerSize, totalSize, pid, uid, processStartTicks]

def next : HeaderField → Option HeaderField
  | magic => some version
  | version => some headerSize
  | headerSize => some totalSize
  | totalSize => some pid
  | pid => some uid
  | uid => some processStartTicks
  | processStartTicks => none

/-- One comparison of `valid_state`; `own` is the watcher's user. -/
def holds (field : HeaderField) (m : SharedState) (identity : ProcessIdentity) (own : UInt32) :
    Bool :=
  match field with
  | magic => m.magic = sharedStateMagic
  | version => m.version = sharedStateVersion
  | headerSize => m.headerSize = Peepbooth.headerSize
  | totalSize => m.totalSize = Peepbooth.totalSize
  | pid => m.pid = identity.pid
  | uid => m.uid = own
  | processStartTicks => m.processStartTicks = identity.startTicks

theorem validState_eq (m : SharedState) (identity : ProcessIdentity) (own : UInt32) :
    m.validState identity own = inOrder.all (·.holds m identity own) := by
  simp [SharedState.validState, inOrder, holds, Bool.and_assoc]

end HeaderField

end Peepbooth
