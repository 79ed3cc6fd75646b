import Peepbooth.Holdings
import Peepbooth.Startup
import Peepbooth.Watchdog

/-! The objects of a watcher that own descriptors and mapped regions: process handles,
sessions and observers, as they are attached, moved about and destroyed. -/

namespace Peepbooth

open Schedule

inductive Resource
  | descriptor (number : Nat)
  | region (address : Nat)
  deriving DecidableEq, Repr

inductive File
  | object (object : Nat)
  | process (pid : UInt32)
  | other
  deriving DecidableEq, Repr

/-- The watcher's own process and the shared memory it can reach. The kernel gives out
numbers and addresses that are free, also those that have been given back. `faults` counts
the closes, unmappings and accesses of what is not there. -/
structure WatcherProcess where
  uid : UInt32
  descriptors : Nat → Option File
  regions : Nat → Option Nat
  names : Text → Option Nat
  memory : Nat → SharedState
  clock : UInt64
  faults : Nat := 0

/-- `process_handle`, with the number of its descriptor -/
structure HandleObject where
  identity : ProcessIdentity
  pidDescriptor : Option Nat := none
  deriving DecidableEq, Repr

/-- How the calls that `open_process_mapping` makes turn out. `metadata`: `fstat` succeeds
and finds the size and the owner right. A number or address in use counts as a failure. -/
structure OpenOutcome where
  shmOpen : Option Nat
  metadata : Bool
  mmap : Option Nat

namespace WatcherProcess

def fault (k : WatcherProcess) : WatcherProcess := { k with faults := k.faults + 1 }

def takes (k : WatcherProcess) : Resource → Bool
  | .descriptor n => (k.descriptors n).isSome
  | .region a => (k.regions a).isSome

def openFile (k : WatcherProcess) (number : Option Nat) (file : File) :
    WatcherProcess × Option Nat :=
  match number with
  | some n =>
    if k.takes (.descriptor n) then (k, none)
    else ({ k with descriptors := Function.update k.descriptors n (some file) }, some n)
  | none => (k, none)

def shmOpen (k : WatcherProcess) (name : Text) (number : Option Nat) :
    WatcherProcess × Option Nat :=
  match k.names name with
  | some object => k.openFile number (.object object)
  | none => (k, none)

def close (k : WatcherProcess) (n : Nat) : WatcherProcess :=
  if k.takes (.descriptor n) then { k with descriptors := Function.update k.descriptors n none }
  else k.fault

def mmap (k : WatcherProcess) (n : Nat) (address : Option Nat) : WatcherProcess × Option Nat :=
  match k.descriptors n, address with
  | some (.object object), some a =>
    if k.takes (.region a) then (k, none)
    else ({ k with regions := Function.update k.regions a (some object) }, some a)
  | _, _ => (k, none)

def munmap (k : WatcherProcess) (a : Nat) : WatcherProcess :=
  if k.takes (.region a) then { k with regions := Function.update k.regions a none } else k.fault

def shmUnlink (k : WatcherProcess) (name : Text) : WatcherProcess :=
  { k with names := Function.update k.names name none }

/-- A store through the pointer `a`. -/
def change (k : WatcherProcess) (a : Nat) (f : SharedState → SharedState) : WatcherProcess :=
  match k.regions a with
  | some object => { k with memory := Function.update k.memory object (f (k.memory object)) }
  | none => k.fault

/-- A load through the pointer `a`. -/
def load (k : WatcherProcess) (a : Nat) : WatcherProcess × Option SharedState :=
  match k.regions a with
  | some object => (k, some (k.memory object))
  | none => (k.fault, none)

/-- `shared_mapping::reset` and `~shared_mapping` -/
def reset (k : WatcherProcess) (m : SharedMapping) : WatcherProcess :=
  let k := m.state.elim k k.munmap
  let k := m.descriptor.elim k k.close
  if m.owner ∧ m.name ≠ [] then k.shmUnlink m.name else k

/-- `open_process_mapping` -/
def openProcessMapping (k : WatcherProcess) (pid : UInt32) (o : OpenOutcome) :
    WatcherProcess × Option SharedMapping :=
  let name := sharedMemoryName k.uid pid
  match k.shmOpen name o.shmOpen with
  | (k, none) => (k, none)
  | (k, some descriptor) =>
    if !o.metadata then (k.close descriptor, none)
    else
      match k.mmap descriptor o.mmap with
      | (k, none) => (k.close descriptor, none)
      | (k, some address) =>
        (k, some { state := some address, descriptor := some descriptor, name := name })

/-- `watchdog_session::renew_lease` -/
def renewLease (k : WatcherProcess) (m : SharedMapping) (now : UInt64) : WatcherProcess :=
  m.state.elim k fun a => k.change a (·.renewLease now)

/-- `watchdog_session::snapshot`, as far as it reads through the pointer -/
def snapshot (k : WatcherProcess) (m : SharedMapping) : WatcherProcess :=
  m.state.elim k fun a => (k.load a).1

/-- `watchdog_session::release`; the mapping is left empty. -/
def release (k : WatcherProcess) (m : SharedMapping) : WatcherProcess :=
  (m.state.elim k fun a => k.change a SharedState.release).reset m

/-- `~watchdog_session`: the release, then the mapping that it has left. -/
def destroySession (k : WatcherProcess) (m : SharedMapping) : WatcherProcess :=
  (k.release m).reset {}

/-- `watchdog_session::attach`. The locals that have been moved from are destroyed last. -/
def attachSession (k : WatcherProcess) (identity : ProcessIdentity) (o : OpenOutcome) :
    WatcherProcess × Option SharedMapping :=
  match k.openProcessMapping identity.pid o with
  | (k, none) => (k, none)
  | (k, some mapping) =>
    let (k, state) := mapping.state.elim (k.fault, none) k.load
    if state.any (·.validState identity k.uid) then
      let k := (k.reset {}).renewLease mapping k.clock
      ((k.destroySession {}).reset {}, some mapping)
    else (k.reset mapping, none)

/-- `~process_handle`, and what an assignment to it begins with -/
def closeHandle (k : WatcherProcess) (h : HandleObject) : WatcherProcess :=
  h.pidDescriptor.elim k k.close

/-- `process_handle::attach`; `startTicks` is what `read_process_identity` finds. -/
def attachHandle (k : WatcherProcess) (pid : UInt32) (startTicks : Option UInt64)
    (pidfdOpen : Option Nat) : WatcherProcess × Option HandleObject :=
  match startTicks with
  | none => (k, none)
  | some startTicks =>
    let (k, descriptor) := k.openFile pidfdOpen (.process pid)
    let result : HandleObject := ⟨⟨pid, startTicks⟩, descriptor⟩
    (k.closeHandle { result with pidDescriptor := none }, some result)

/-- The assignment of one `optional<watchdog_session>` to another: what the target and the
source are left with. -/
def assignSession (k : WatcherProcess) (this other : Option SharedMapping) :
    WatcherProcess × Option SharedMapping × Option SharedMapping :=
  match this, other with
  | some m, some m' => (k.release m, some m', some {})
  | some m, none => (k.destroySession m, none, none)
  | none, some m' => (k, some m', some {})
  | none, none => (k, none, none)

end WatcherProcess

/-- What a variable of the watcher may hold. `session` of an observer may hold an empty
mapping: that is what a move leaves. -/
inductive Variable
  | handle (h : HandleObject)
  | session (m : SharedMapping)
  | observer (process : HandleObject) (session : Option SharedMapping)

namespace Variable

/-- What a move leaves in its source. -/
def movedFrom : Variable → Variable
  | handle h => handle { h with pidDescriptor := none }
  | session _ => session {}
  | observer process s => observer { process with pidDescriptor := none } (s.map fun _ => {})

/-- The destructors; the members of an observer go in reverse order. -/
def destroy (k : WatcherProcess) : Variable → WatcherProcess
  | handle h => k.closeHandle h
  | session m => k.destroySession m
  | observer process s => (s.elim k k.destroySession).closeHandle process

/-- The move assignments of two variables of one type: the target and the source after it. -/
def moveAssign (k : WatcherProcess) :
    Variable → Variable → Option (WatcherProcess × Variable × Variable)
  | handle h, handle h' => some (k.closeHandle h, handle h', movedFrom (handle h'))
  | session m, session m' => some (k.release m, session m', movedFrom (session m'))
  | observer process s, observer process' s' =>
    let (k, t, t') := (k.closeHandle process).assignSession s s'
    some (k, observer process' t, observer { process' with pidDescriptor := none } t')
  | _, _ => none

/-- The session that the calls on a variable go through. -/
def mapping : Variable → Option SharedMapping
  | handle _ => none
  | session m => some m
  | observer _ s => s

end Variable

/-- `others` is what the rest of the watcher has opened and mapped, `links` the names as the
producers have linked and unlinked them. No step depends on `links`. -/
structure Watchers (V : Type*) where
  process : WatcherProcess
  var : V → Option Variable
  others : Resource → Bool
  links : Text → Option Nat

/-- What is done to the variables, and what the rest of the world does in between. -/
inductive WatcherCall (V : Type*)
  | attachHandle (dest : V) (pid : UInt32) (startTicks : Option UInt64) (pidfdOpen : Option Nat)
  | constructSession (dest : V)
  | attachSession (dest : V) (identity : ProcessIdentity) (o : OpenOutcome)
  | observe (dest source : V)
  | tryAttach (v : V) (alive : Bool) (o : OpenOutcome)
  | moveConstruct (dest source : V)
  | moveAssign (dest source : V)
  | snapshot (v : V)
  | renewLease (v : V)
  | release (v : V)
  | destroy (v : V)
  | othersOpen (number : Nat)
  | othersMap (address object : Nat)
  | othersGiveBack (r : Resource)
  | store (object : Nat) (m : SharedState)
  | link (name : Text) (object : Option Nat)
  | tick (now : UInt64)

namespace Watchers

variable {V : Type*} [DecidableEq V]

def store (s : Watchers V) (v : V) (k : WatcherProcess) (x : Option Variable) : Watchers V :=
  { s with process := k, var := Function.update s.var v x }

/-- A call that its variables do not allow does nothing. -/
def step (s : Watchers V) : WatcherCall V → Watchers V
  | .attachHandle dest pid startTicks pidfdOpen =>
    if s.var dest = none then
      let (k, h) := s.process.attachHandle pid startTicks pidfdOpen
      s.store dest k (h.map .handle)
    else s
  | .constructSession dest =>
    if s.var dest = none then s.store dest s.process (some (.session {})) else s
  | .attachSession dest identity o =>
    if s.var dest = none then
      let (k, m) := s.process.attachSession identity o
      s.store dest k (m.map .session)
    else s
  | .observe dest source =>
    match s.var dest, s.var source with
    | none, some (.handle h) =>
      (s.store source s.process (some (Variable.handle h).movedFrom)).store dest s.process
        (some (.observer h none))
    | _, _ => s
  | .tryAttach v alive o =>
    match s.var v with
    | some (.observer h t) =>
      if t.any (·.state.isSome) || !alive then s
      else
        let (k, m) := s.process.attachSession h.identity o
        let (k, t, _) := k.assignSession t m
        s.store v k (some (.observer h t))
    | _ => s
  | .moveConstruct dest source =>
    match s.var dest, s.var source with
    | none, some x =>
      (s.store source s.process (some x.movedFrom)).store dest s.process (some x)
    | _, _ => s
  | .moveAssign dest source =>
    match s.var dest, s.var source with
    | some x, some y =>
      if dest = source then s
      else
        match Variable.moveAssign s.process x y with
        | some (k, x, y) => (s.store source k (some y)).store dest k (some x)
        | none => s
    | _, _ => s
  | .snapshot v =>
    match (s.var v).bind Variable.mapping with
    | some m => { s with process := s.process.snapshot m }
    | none => s
  | .renewLease v =>
    match (s.var v).bind Variable.mapping with
    | some m => { s with process := s.process.renewLease m s.process.clock }
    | none => s
  | .release v =>
    match s.var v with
    | some (.session m) => s.store v (s.process.release m) (some (.session {}))
    | _ => s
  | .destroy v =>
    match s.var v with
    | some x => s.store v (x.destroy s.process) none
    | none => s
  | .othersOpen n =>
    match s.process.openFile (some n) .other with
    | (k, some _) =>
      { s with process := k, others := Function.update s.others (.descriptor n) true }
    | (_, none) => s
  | .othersMap a object =>
    if s.process.takes (.region a) then s
    else
      { s with
        process :=
          { s.process with regions := Function.update s.process.regions a (some object) }
        others := Function.update s.others (.region a) true }
  | .othersGiveBack r =>
    if s.others r then
      { s with
        process := match r with
          | .descriptor n => s.process.close n
          | .region a => s.process.munmap a
        others := Function.update s.others r false }
    else s
  | .store object m =>
    { s with process := { s.process with memory := Function.update s.process.memory object m } }
  | .link name object =>
    { s with
      process := { s.process with names := Function.update s.process.names name object }
      links := Function.update s.links name object }
  | .tick now => { s with process := { s.process with clock := now } }

end Watchers

end Peepbooth
