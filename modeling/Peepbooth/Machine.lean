import Peepbooth.Watchdog

/-! A machine that gives its pids out again. An incarnation of a process is a pid
and a start time; it holds the pid for one interval of time. -/

namespace Peepbooth

/-- What `/proc` shows of an incarnation that holds its pid. -/
structure ProcFiles where
  memory : Option ProcessMemory
  cpuTicks : Option UInt64

/-- A shared-memory object. Its words are valid for no incarnation but the one
that fills it in. -/
structure SharedObject where
  filler : ProcessIdentity
  mem : SharedState
  carries : ∀ identity uid, mem.validState identity uid = true → identity = filler

/-- `exited` are the incarnations whose descriptor polls readable, `ended` those
that have given up their pid. `names` is what the name of a pid's shared state
is linked to. -/
structure Machine where
  holder : UInt32 → Option UInt64
  exited : List ProcessIdentity
  ended : List ProcessIdentity
  files : ProcessIdentity → ProcFiles
  objects : Nat → SharedObject
  names : UInt32 → Option Nat
  clock : UInt64

inductive MachineEvent
  | spawn (pid : UInt32) (startTicks : UInt64)
  | exit (identity : ProcessIdentity)
  | reap (pid : UInt32)
  | usage (identity : ProcessIdentity) (files : ProcFiles)
  | fill (object : Nat) (mem : SharedObject)
  | otherLease (object : Nat) (leaseUntilNs : UInt64) (present : UInt32)
  | link (pid : UInt32) (object : Option Nat)
  | tick (now : UInt64)

namespace SharedObject

def setLease (o : SharedObject) (leaseUntilNs : UInt64) (present : UInt32) : SharedObject where
  filler := o.filler
  mem := { o.mem with watcherLeaseUntilNs := leaseUntilNs, watcherPresent := present }
  carries := o.carries

def created (x : ProcessIdentity) (uid : UInt32) (processName : List UInt8) : SharedObject where
  filler := x
  mem := .createProcessMapping x.pid uid (some x.startTicks) processName
  carries identity uid' h := by
    have hh : (x.pid = identity.pid ∧ uid = uid') ∧ x.startTicks = identity.startTicks := by
      simpa [SharedState.validState, SharedState.createProcessMapping] using h
    exact ProcessIdentity.ext hh.1.1.symm hh.2.symm

end SharedObject

namespace Machine

variable {m : Machine} {x : ProcessIdentity}

def Holds (m : Machine) (x : ProcessIdentity) : Prop := m.holder x.pid = some x.startTicks

instance (m : Machine) (x : ProcessIdentity) : Decidable (m.Holds x) :=
  inferInstanceAs (Decidable (_ = _))

def setObject (m : Machine) (i : Nat) (o : SharedObject) : Machine :=
  { m with objects := Function.update m.objects i o }

/-- An event that is not enabled leaves the machine as it is: an incarnation can
not come back, and only the filler that holds its pid writes its object. -/
def step (m : Machine) : MachineEvent → Machine
  | .spawn pid startTicks =>
    if m.holder pid = none ∧ ⟨pid, startTicks⟩ ∉ m.ended then
      { m with holder := Function.update m.holder pid (some startTicks) }
    else m
  | .exit x => if m.Holds x then { m with exited := x :: m.exited } else m
  | .reap pid =>
    match m.holder pid with
    | none => m
    | some startTicks =>
      { m with
        holder := Function.update m.holder pid none
        exited := ⟨pid, startTicks⟩ :: m.exited
        ended := ⟨pid, startTicks⟩ :: m.ended }
  | .usage x files => { m with files := Function.update m.files x files }
  | .fill i o =>
    if o.filler = (m.objects i).filler ∧ m.Holds o.filler then m.setObject i o else m
  | .otherLease i leaseUntilNs present =>
    m.setObject i ((m.objects i).setLease leaseUntilNs present)
  | .link pid object => { m with names := Function.update m.names pid object }
  | .tick now => if m.clock ≤ now then { m with clock := now } else m

/-- What a watcher sees of a pid, with a descriptor of `descriptor`. -/
def view (m : Machine) (pid : UInt32) (descriptor : Option ProcessIdentity) : ProcessView where
  status := (m.holder pid).bind fun startTicks =>
    (m.files ⟨pid, startTicks⟩).memory.map (⟨⟨pid, startTicks⟩, ·⟩)
  stat := (m.holder pid).bind fun startTicks =>
    (m.files ⟨pid, startTicks⟩).cpuTicks.map (⟨⟨pid, startTicks⟩, ·, startTicks⟩)
  exitReadable := descriptor.any (· ∈ m.exited)
  noSuchProcess := (m.holder pid).isNone

/-- Who has given up a pid does not hold it. -/
def OneInterval (m : Machine) : Prop := ∀ x, m.Holds x → x ∉ m.ended

/-- The incarnation has held its pid since some time, or has given it up for good. -/
def Seen (m : Machine) (x : ProcessIdentity) : Prop := m.Holds x ∨ x ∈ m.ended

theorem step_filler (m : Machine) (e : MachineEvent) (i : Nat) :
    ((m.step e).objects i).filler = (m.objects i).filler := by
  cases e with
  | fill j o =>
    simp only [step]
    split
    · next h => by_cases hi : i = j <;> simp [setObject, hi, h.1]
    · rfl
  | otherLease j leaseUntilNs present =>
    by_cases hi : i = j <;> simp [step, setObject, SharedObject.setLease, hi]
  | reap pid => simp only [step]; split <;> rfl
  | spawn pid startTicks => simp only [step]; split <;> rfl
  | exit x => simp only [step]; split <;> rfl
  | tick now => simp only [step]; split <;> rfl
  | usage x files => rfl
  | link pid object => rfl

theorem step_holder (m : Machine) (e : MachineEvent) :
    ((m.step e).holder = m.holder ∧ (m.step e).ended = m.ended) ∨
    (∃ pid startTicks, m.holder pid = none ∧ ⟨pid, startTicks⟩ ∉ m.ended ∧
      (m.step e).holder = Function.update m.holder pid (some startTicks) ∧
        (m.step e).ended = m.ended) ∨
    ∃ pid startTicks, m.holder pid = some startTicks ∧
      (m.step e).holder = Function.update m.holder pid none ∧
        (m.step e).ended = ⟨pid, startTicks⟩ :: m.ended := by
  cases e with
  | spawn pid startTicks =>
    simp only [step]
    split
    · next h => exact .inr (.inl ⟨pid, startTicks, h.1, h.2, rfl, rfl⟩)
    · exact .inl ⟨rfl, rfl⟩
  | reap pid =>
    cases hp : m.holder pid with
    | none => exact .inl (by simp [step, hp])
    | some startTicks =>
      exact .inr (.inr ⟨pid, startTicks, hp, by simp [step, hp], by simp [step, hp]⟩)
  | exit x => simp only [step]; split <;> exact .inl ⟨rfl, rfl⟩
  | fill i o => simp only [step]; split <;> exact .inl ⟨rfl, rfl⟩
  | tick now => simp only [step]; split <;> exact .inl ⟨rfl, rfl⟩
  | usage x files => exact .inl ⟨rfl, rfl⟩
  | otherLease i leaseUntilNs present => exact .inl ⟨rfl, rfl⟩
  | link pid object => exact .inl ⟨rfl, rfl⟩

theorem step_ended (e : MachineEvent) (h : x ∈ m.ended) : x ∈ (m.step e).ended := by
  rcases m.step_holder e with ⟨-, he⟩ | ⟨_, _, -, -, -, he⟩ | ⟨_, _, -, -, he⟩ <;> rw [he]
  · exact h
  · exact h
  · exact List.mem_cons_of_mem _ h

theorem OneInterval.step (h : m.OneInterval) (e : MachineEvent) : (m.step e).OneInterval := by
  intro x hx
  rcases m.step_holder e with ⟨hh, he⟩ | ⟨pid, t, -, hnew, hh, he⟩ | ⟨pid, t, hp, hh, he⟩ <;>
    rw [Holds, hh] at hx <;> rw [he]
  · exact h x hx
  · by_cases hpid : x.pid = pid
    · rw [hpid, Function.update_self] at hx
      rwa [show x = ⟨pid, t⟩ from ProcessIdentity.ext hpid (Option.some.inj hx).symm]
    · rw [Function.update_of_ne hpid] at hx
      exact h x hx
  · by_cases hpid : x.pid = pid
    · rw [hpid, Function.update_self] at hx
      cases hx
    · rw [Function.update_of_ne hpid] at hx
      rw [List.mem_cons, not_or]
      exact ⟨fun hxe => hpid (congrArg ProcessIdentity.pid hxe), h x hx⟩

theorem Seen.step (h : m.Seen x) (e : MachineEvent) : (m.step e).Seen x := by
  rcases h with h | h
  case inr => exact .inr (step_ended e h)
  rcases m.step_holder e with ⟨hh, -⟩ | ⟨pid, t, hnone, -, hh, -⟩ | ⟨pid, t, hp, hh, he⟩
  · exact .inl (by rw [Holds, hh]; exact h)
  · have hpid : x.pid ≠ pid := fun hpid => by rw [Holds, hpid, hnone] at h; cases h
    exact .inl (by rw [Holds, hh, Function.update_of_ne hpid]; exact h)
  · by_cases hpid : x.pid = pid
    · rw [Holds, hpid, hp] at h
      refine .inr ?_
      rw [he, show x = ⟨pid, t⟩ from ProcessIdentity.ext hpid (Option.some.inj h).symm]
      exact List.mem_cons_self
    · exact .inl (by rw [Holds, hh, Function.update_of_ne hpid]; exact h)

/-- A stat file under an identity is that incarnation's, and it holds the pid. -/
theorem holds_of_stat {descriptor : Option ProcessIdentity} {values : StatValues}
    (h : (m.view x.pid descriptor).stat = some values) (ht : values.startTicks = x.startTicks) :
    m.Holds x ∧ values.owner = x := by
  obtain ⟨t, hh, hv⟩ := Option.bind_eq_some_iff.mp h
  obtain ⟨ticks, -, rfl⟩ := Option.map_eq_some_iff.mp hv
  exact ⟨by rw [Holds, hh, ← ht], ProcessIdentity.ext rfl ht⟩

theorem owner_of_status {descriptor : Option ProcessIdentity} {file : StatusFile}
    (h : (m.view x.pid descriptor).status = some file) (hx : m.Holds x) : file.owner = x := by
  obtain ⟨t, hh, hf⟩ := Option.bind_eq_some_iff.mp h
  obtain ⟨memory, -, rfl⟩ := Option.map_eq_some_iff.mp hf
  exact ProcessIdentity.ext rfl (Option.some.inj (hh.symm.trans hx))

end Machine

end Peepbooth
