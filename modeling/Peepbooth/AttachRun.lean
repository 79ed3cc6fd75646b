import Peepbooth.Construction
import Peepbooth.Startup

/-! A client that creates its shared memory among the steps of any number of watchers.
An object can be opened by its name as soon as it exists, long before it is set up. -/

namespace Peepbooth

open Schedule InitWrite

/-- A shared memory object. -/
structure ShmObject where
  size : Nat := 0
  owner : UInt32
  mem : SharedState

/-- What the kernel gives out when an object grows. -/
def SharedState.zeros : SharedState where
  magic := 0
  version := 0
  processLifecycle := 0

/-- Where `create_process_mapping` stands. -/
inductive CreatePc
  | idle
  | unlink
  | shmOpen
  | ftruncate (object : Nat)
  | fchmod (object : Nat)
  | mmap (object : Nat)
  | setUp (object : Nat) (rest : List InitWrite)
  | readIdentity (object : Nat)
  | publish (object : Nat) (rest : List InitWrite)
  | unlinkFailed

/-- Where a watcher stands: in `attach`, or in a call on the session that it got. -/
inductive AttachPc
  | idle
  | shmOpen (uid : UInt32) (identity : ProcessIdentity)
  | fstat (uid : UInt32) (identity : ProcessIdentity) (object : Nat)
  | mmap (uid : UInt32) (identity : ProcessIdentity) (object : Nat)
  | check (uid : UInt32) (identity : ProcessIdentity) (object : Nat) (field : HeaderField)
  | readClock (object : Nat)
  | storeLease (object : Nat) (deadline : UInt64)
  | storePresent (object : Nat)
  | attached (object : Nat)
  | snapshotting (object : Nat) (p : Reads WatchdogSnapshot)
  | clearPresent (object : Nat)
  | clearLease (object : Nat)

namespace AttachPc

def object : AttachPc → Option Nat
  | idle | shmOpen .. => none
  | fstat _ _ o | mmap _ _ o | check _ _ o _ | readClock o | storeLease o _ | storePresent o
  | attached o | snapshotting o _ | clearPresent o | clearLease o => some o

def session : AttachPc → Option Nat
  | idle | shmOpen .. | fstat .. | mmap .. | check .. => none
  | readClock o | storeLease o _ | storePresent o | attached o | snapshotting o _
  | clearPresent o | clearLease o => some o

/-- The object whose size of the header a watcher has compared. -/
def compared : AttachPc → Option Nat
  | check _ _ o .totalSize | check _ _ o .pid | check _ _ o .uid
  | check _ _ o .processStartTicks => some o
  | pc => pc.session

end AttachPc

/-- `written` are the stores that the client has made in an object, `attached` the
watchers whose `valid_state` has held, with the object. -/
structure AttachLog (ι : Type*) where
  written : Nat → List InitWrite := fun _ => []
  attached : List (ι × Nat) := []

/-- `next` numbers the objects. -/
structure AttachRun (ι : Type*) where
  pid : UInt32
  uid : UInt32
  names : Text → Option Nat
  object : Nat → ShmObject
  next : Nat
  processName : Text := []
  client : CreatePc := .idle
  watcher : ι → AttachPc := fun _ => .idle
  log : AttachLog ι := {}

/-- `ok` is the outcome of a system call, `identity` that of `read_process_identity`,
where `none` is a throw, and `now` what the clock shows. -/
inductive AttachEvent (ι : Type*)
  | create (processName : Text)
  | client (ok : Bool) (identity : Option (Option UInt64))
  | attach (i : ι) (uid : UInt32) (identity : ProcessIdentity)
  | renewLease (i : ι) (now duration : UInt64)
  | snapshot (i : ι)
  | release (i : ι)
  | watcher (i : ι) (ok : Bool) (now : UInt64)

namespace AttachRun

variable {ι : Type*} [DecidableEq ι]

def ownName (s : AttachRun ι) : Text := sharedMemoryName s.uid s.pid

def link (s : AttachRun ι) (object : Option Nat) : AttachRun ι :=
  { s with names := Function.update s.names s.ownName object }

def change (s : AttachRun ι) (o : Nat) (f : SharedState → SharedState) : AttachRun ι :=
  { s with
    object := Function.update s.object o { s.object o with mem := f (s.object o).mem } }

def store (s : AttachRun ι) (o : Nat) (w : InitWrite) : AttachRun ι :=
  { s.change o (InitWrite.apply · w) with
    log := { s.log with
      written := Function.update s.log.written o (s.log.written o ++ [w]) } }

def move (s : AttachRun ι) (i : ι) (pc : AttachPc) : AttachRun ι :=
  { s with watcher := Function.update s.watcher i pc }

/-- The next step of `create_process_mapping`. -/
def stepClient (s : AttachRun ι) (ok : Bool) (identity : Option (Option UInt64)) : AttachRun ι :=
  match s.client with
  | .idle => s
  | .unlink => { s.link none with client := .shmOpen }
  | .shmOpen =>
    if ok ∧ s.names s.ownName = none then
      { s.link (some s.next) with
        object := Function.update s.object s.next { owner := s.uid, mem := .zeros }
        next := s.next + 1
        client := .ftruncate s.next }
    else { s with client := .idle }
  | .ftruncate o =>
    if ok then
      { s with
        object := Function.update s.object o { s.object o with size := totalSize.toNat }
        client := .fchmod o }
    else { s with client := .unlinkFailed }
  | .fchmod o => { s with client := if ok then .mmap o else .unlinkFailed }
  | .mmap o =>
    { s with client := if ok then .setUp o (construction ++ header s.pid s.uid) else .unlinkFailed }
  | .setUp o [] => { s with client := .readIdentity o }
  | .setUp o (w :: rest) => { s.store o w with client := .setUp o rest }
  | .readIdentity o =>
    match identity with
    | none => { s with client := .idle }
    | some startTicks => { s with client := .publish o (publication startTicks s.processName) }
  | .publish _ [] => { s with client := .idle }
  | .publish o (w :: rest) => { s.store o w with client := .publish o rest }
  | .unlinkFailed => { s.link none with client := .idle }

def stepWatcher (s : AttachRun ι) (i : ι) (ok : Bool) (now : UInt64) : AttachRun ι :=
  match s.watcher i with
  | .idle | .attached _ => s
  | .shmOpen uid identity =>
    match s.names (sharedMemoryName uid identity.pid) with
    | none => s.move i .idle
    | some o => s.move i (if ok then .fstat uid identity o else .idle)
  | .fstat uid identity o =>
    s.move i (if ok ∧ (s.object o).size = totalSize.toNat ∧ (s.object o).owner = uid then
      .mmap uid identity o else .idle)
  | .mmap uid identity o => s.move i (if ok then .check uid identity o .magic else .idle)
  | .check uid identity o field =>
    if field.holds (s.object o).mem identity uid then
      match field.next with
      | some other => s.move i (.check uid identity o other)
      | none =>
        { s.move i (.readClock o) with
          log := { s.log with attached := s.log.attached ++ [(i, o)] } }
    else s.move i .idle
  | .readClock o => s.move i (.storeLease o (leaseDeadline now defaultWatcherLeaseNs))
  | .storeLease o deadline =>
    (s.change o ({ · with watcherLeaseUntilNs := deadline })).move i (.storePresent o)
  | .storePresent o => (s.change o ({ · with watcherPresent := 1 })).move i (.attached o)
  | .snapshotting o (.done _) => s.move i (.attached o)
  | .snapshotting o (.load _ next) =>
    s.move i (.snapshotting o (next ⟨(s.object o).mem, now, ⟨none, none, false, false, false⟩⟩))
  | .clearPresent o => (s.change o ({ · with watcherPresent := 0 })).move i (.clearLease o)
  | .clearLease o => (s.change o ({ · with watcherLeaseUntilNs := 0 })).move i .idle

/-- A call begins where the one before it has ended. -/
def step (s : AttachRun ι) : AttachEvent ι → AttachRun ι
  | .create processName =>
    match s.client with
    | .idle => { s with processName := processName, client := .unlink }
    | _ => s
  | .client ok identity => s.stepClient ok identity
  | .attach i uid identity =>
    match s.watcher i with
    | .idle => s.move i (.shmOpen uid identity)
    | _ => s
  | .renewLease i now duration =>
    match s.watcher i with
    | .attached o => s.move i (.storeLease o (leaseDeadline now duration))
    | _ => s
  | .snapshot i =>
    match s.watcher i with
    | .attached o => s.move i (.snapshotting o Peepbooth.snapshot)
    | _ => s
  | .release i =>
    match s.watcher i with
    | .attached o => s.move i (.clearPresent o)
    | _ => s
  | .watcher i ok now => s.stepWatcher i ok now

/-- The stores that the client has still to make in the object, as far as they are known. -/
def pending (s : AttachRun ι) (o : Nat) : List InitWrite :=
  match s.client with
  | .ftruncate p | .fchmod p | .mmap p =>
    if p = o then construction ++ header s.pid s.uid else []
  | .setUp p rest | .publish p rest => if p = o then rest else []
  | _ => []

end AttachRun

end Peepbooth
