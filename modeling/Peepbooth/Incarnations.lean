import Peepbooth.Machine
import Peepbooth.ObservedProcess
import Peepbooth.Schedule

/-! A watcher that attaches to a pid and polls it, on a machine that may give the
pid to another incarnation between any two of its accesses. -/

namespace Peepbooth

open Schedule ReadProgram

/-- Where the watcher stands: `identified` is `process_handle::attach` before it
opens its descriptor. A lease that a poll renews carries what the poll read. -/
inductive Watching
  | idle
  | identified (identity : ProcessIdentity)
  | ready
  | checking (p : Reads Bool)
  | opening
  | validating (object : Nat)
  | stamping (object : Nat)
  | polling (object : Nat) (p : Reads PollReads)
  | storeLease (object : Nat) (deadline : UInt64) (poll : Option PollReads)
  | storePresent (object : Nat) (poll : Option PollReads)
  | clearPresent (object : Nat)
  | clearLease (object : Nat)

/-- An observation and the object that its snapshot was read from. -/
structure Observed where
  source : Option Nat
  observation : ProcessObservation

/-- `written` are the objects to whose lease words the watcher has stored. -/
structure Watch extends Machine where
  uid : UInt32
  observer : Option ObservedProcess := none
  descriptor : Option ProcessIdentity := none
  session : Option Nat := none
  watching : Watching := .idle
  observed : List Observed := []
  written : List Nat := []

/-- `granted`: a system call that the watcher makes succeeds. -/
inductive WatchEvent
  | machine (e : MachineEvent)
  | attach (pid : UInt32)
  | tryAttach
  | poll
  | release
  | watcher (granted : Bool)

namespace Watch

def world (s : Watch) (process : ProcessHandle) (mem : SharedState) : World :=
  ⟨mem, s.clock, s.view process.identity.pid s.descriptor⟩

def store (s : Watch) (i : Nat) (leaseUntilNs : UInt64) (present : UInt32) : Watch :=
  { s with
    toMachine := s.setObject i ((s.objects i).setLease leaseUntilNs present)
    written := s.written ++ [i] }

def record (s : Watch) (source : Option Nat) (o : ObservedProcess) : Watch :=
  { s with
    observer := some o
    observed := s.observed ++ [⟨source, o.latest⟩]
    watching := .ready }

/-- The watcher's next access, for the owner `o`. -/
def stepOwner (s : Watch) (o : ObservedProcess) (granted : Bool) : Watch :=
  match s.watching with
  | .checking (.load _ next) => { s with watching := .checking (next (s.world o.process {})) }
  | .checking (.done isAlive) => { s with watching := if isAlive then .opening else .ready }
  | .opening =>
    match if granted then s.names o.process.identity.pid else none with
    | none => { s with watching := .ready }
    | some i => { s with watching := .validating i }
  | .validating i =>
    if (s.objects i).mem.validState o.process.identity s.uid then
      { s with watching := .stamping i }
    else { s with watching := .ready }
  | .stamping i =>
    { s with watching := .storeLease i (leaseDeadline s.clock defaultWatcherLeaseNs) none }
  | .polling i (.load _ next) =>
    { s with watching := .polling i (next (s.world o.process (s.objects i).mem)) }
  | .polling i (.done r) =>
    if r.isAlive then
      { s with watching := .storeLease i (leaseDeadline r.now defaultWatcherLeaseNs) (some r) }
    else s.record (some i) (o.conclude r)
  | .storeLease i deadline poll =>
    { s.store i deadline (s.objects i).mem.watcherPresent with watching := .storePresent i poll }
  | .storePresent i none =>
    { s.store i (s.objects i).mem.watcherLeaseUntilNs 1 with
      session := some i
      observer := some { o with attached := true }
      watching := .ready }
  | .storePresent i (some r) =>
    (s.store i (s.objects i).mem.watcherLeaseUntilNs 1).record (some i) (o.conclude r)
  | .clearPresent i =>
    { s.store i (s.objects i).mem.watcherLeaseUntilNs 0 with watching := .clearLease i }
  | .clearLease i =>
    { s.store i 0 (s.objects i).mem.watcherPresent with
      session := none
      observer := some { o with attached := false }
      watching := .ready }
  | _ => s

/-- An operation of a watcher that has a handle and is in no other operation. -/
def begin (s : Watch) (operation : ObservedProcess → Watch) : Watch :=
  match s.watching, s.observer with
  | .ready, some o => operation o
  | _, _ => s

def step (s : Watch) : WatchEvent → Watch
  | .machine e => { s with toMachine := s.toMachine.step e }
  | .attach pid =>
    match s.watching, (s.view pid none).stat with
    | .idle, some values => { s with watching := .identified ⟨pid, values.startTicks⟩ }
    | _, _ => s
  | .tryAttach =>
    s.begin fun o =>
      if s.session.isSome then s else { s with watching := .checking o.process.alive }
  | .poll =>
    s.begin fun o =>
      match s.session with
      | some i => { s with watching := .polling i (pollReads o.process) }
      | none =>
        s.record none
          { o with latest := { identity := o.process.identity, observedAtNs := s.clock } }
  | .release =>
    s.begin fun _ =>
      match s.session with
      | some i => { s with watching := .clearPresent i }
      | none => s
  | .watcher granted =>
    match s.watching, s.observer with
    | .identified x, _ =>
      let descriptor := if granted then (s.holder x.pid).map (⟨x.pid, ·⟩) else none
      { s with
        observer := some { process := ⟨x, descriptor.isSome⟩, latest := { identity := x } }
        descriptor := descriptor
        watching := .ready }
    | _, some o => s.stepOwner o granted
    | _, none => s

def subject (s : Watch) : Option ProcessIdentity := s.observer.map (·.process.identity)

end Watch

/-- What a sample that names the incarnation `x` holds is of `x`. -/
def OfIncarnation (x : ProcessIdentity) (r : PollReads) : Prop :=
  ∀ sample, r.sample = some sample → sample.identity = x →
    sample.memoryOwner = x ∧ sample.cpuOwner = x

def reuse (process : ProcessHandle) (descriptor : Option ProcessIdentity) (i : Nat) :
    Rely Place World Machine where
  view m := ⟨(m.objects i).mem, m.clock, m.view process.identity.pid descriptor⟩
  mark _ m := m
  may _ _ := True
  inv m := m.OneInterval ∧ m.Seen process.identity
  rel _ m m' := ∀ x ∈ m.ended, x ∈ m'.ended
  inv_mark _ _ h := h
  refl _ _ _ _ h := h
  trans h h' x hx := h' x (h x hx)

section Polls

variable {process : ProcessHandle} {descriptor : Option ProcessIdentity} {i : Nat} {m : Machine}

theorem sampleProcess_eq (pid : UInt32) :
    sampleProcess pid = .load .status fun w => .load .stat fun w' =>
      match w.process.status, w'.process.stat with
      | some file, some values =>
        .load .sampledAt fun w'' => .done (some
          ⟨⟨pid, values.startTicks⟩, file.memory, file.owner, values.cpuTicks, values.owner,
            w''.clock⟩)
      | _, _ => .done none := rfl

/-- The status is read first. If it is another's, the incarnation is gone by then,
and the stat cannot be its own. -/
theorem sampleProcess_ofIncarnation :
    Safe (reuse process descriptor i)
      (fun sample _ => ∀ x, sample = some x → x.identity = process.identity →
        x.memoryOwner = process.identity ∧ x.cpuOwner = process.identity)
      (sampleProcess process.identity.pid) m := by
  rw [sampleProcess_eq]
  intro t ht _ _ u hu htu _
  dsimp only [reuse]
  split
  · next file values hf hv =>
    intro v _ _ _ w _ _ x hx hid
    obtain rfl := Option.some.inj hx
    obtain ⟨hnow, hcpu⟩ :=
      Machine.holds_of_stat hv (congrArg ProcessIdentity.startTicks hid)
    rcases ht.2 with hholds | hended
    · exact ⟨Machine.owner_of_status hf hholds, hcpu⟩
    · exact absurd (htu _ hended) (hu.1 _ hnow)
  · exact fun _ _ _ _ hx => (nomatch hx)

theorem pollReads_ofIncarnation (h : (reuse process descriptor i).inv m) :
    Safe (reuse process descriptor i) (fun r _ => OfIncarnation process.identity r)
      (pollReads process) m := by
  rw [pollReads_eq]
  refine Safe.bind h sampleProcess_ofIncarnation fun sample t ht hs => ?_
  have htrue {α : Type} {p : Reads α} {n : Machine} :
      Safe (reuse process descriptor i) (fun _ _ => True) p n :=
    safe_of_forall fun _ _ _ => trivial
  refine Safe.bind ht htrue fun w u hu _ => ?_
  refine Safe.bind hu htrue fun b v _ _ => ?_
  exact fun _ _ _ _ _ _ _ => hs

end Polls

end Peepbooth
