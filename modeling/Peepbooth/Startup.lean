import Peepbooth.CommandLine
import Peepbooth.SharedState
import Peepbooth.Schedule
import Mathlib.Data.Finset.Basic

/-! What a client takes from the operating system when it starts, gives back when
it stops, and leaves behind when something throws in between. -/

namespace Peepbooth

open Schedule

def sharedMemoryName (uid pid : UInt32) : Text :=
  text "/cppr-watchdog-" ++ text (toString uid.toNat) ++ text "-" ++ text (toString pid.toNat)

/-- What the calls of one client have opened and mapped and not given back, and the
objects that are linked. `next` numbers everything that is made; an object has the
number of the descriptor that made it. -/
structure Kernel where
  pid : UInt32
  uid : UInt32
  descriptors : Finset Nat := ∅
  regions : Finset Nat := ∅
  names : Text → Option Nat
  memory : Nat → SharedState
  next : Nat

/-- How the calls that `create_process_mapping` makes turn out. `none` for `identity`
is a throw; what it reads may still be missing. -/
structure Outcome where
  nameBuilt : Bool
  shmOpen : Bool
  ftruncate : Bool
  fchmod : Bool
  mmap : Bool
  identity : Option (Option UInt64)
  nameCopied : Bool

/-- `shared_mapping` -/
structure SharedMapping where
  state : Option Nat := none
  descriptor : Option Nat := none
  owner : Bool := false
  name : Text := []

namespace Kernel

variable {k : Kernel} {o : Outcome} {name : Text}

/-- `shared_memory_name(current_process_id())` -/
def ownName (k : Kernel) : Text := sharedMemoryName k.uid k.pid

def shmUnlink (k : Kernel) (name : Text) : Kernel :=
  { k with names := Function.update k.names name none }

def shmOpen (k : Kernel) (name : Text) : Kernel :=
  { k with
    descriptors := insert k.next k.descriptors
    names := Function.update k.names name (some k.next)
    next := k.next + 1 }

def close (k : Kernel) (descriptor : Nat) : Kernel :=
  { k with descriptors := k.descriptors.erase descriptor }

def mmap (k : Kernel) : Kernel :=
  { k with regions := insert k.next k.regions, next := k.next + 1 }

def munmap (k : Kernel) (region : Nat) : Kernel :=
  { k with regions := k.regions.erase region }

def write (k : Kernel) (region : Nat) (m : SharedState) : Kernel :=
  { k with memory := Function.update k.memory region m }

/-- `shared_mapping::reset`, what it does to the system. -/
def reset (k : Kernel) (mapping : SharedMapping) : Kernel :=
  let k := mapping.state.elim k k.munmap
  let k := mapping.descriptor.elim k k.close
  if mapping.owner ∧ mapping.name ≠ [] then k.shmUnlink mapping.name else k

/-- `create_process_mapping`; `error` is a throw. -/
def createProcessMapping (k : Kernel) (processName : Text) (o : Outcome) :
    Kernel × Except Unit (Option SharedMapping) :=
  if !o.nameBuilt then (k, .error ())
  else
    let name := k.ownName
    let k := k.shmUnlink name
    if !o.shmOpen then (k, .ok none)
    else
      let descriptor := k.next
      let k := k.shmOpen name
      if !o.ftruncate || !o.fchmod then ((k.close descriptor).shmUnlink name, .ok none)
      else if !o.mmap then ((k.close descriptor).shmUnlink name, .ok none)
      else
        let address := k.next
        let k := k.mmap.write address
          { headerSize := headerSize, totalSize := totalSize, pid := k.pid, uid := k.uid }
        match o.identity with
        | none => (k, .error ())
        | some startTicks =>
          let k := k.write address
            (SharedState.createProcessMapping k.pid k.uid startTicks processName)
          let mapping : SharedMapping :=
            { state := some address, descriptor := some descriptor, owner := true }
          if !o.nameCopied then (k.reset mapping, .error ())
          else (k, .ok (some { mapping with name := name }))

end Kernel

namespace Outcome

def Acquires (o : Outcome) : Prop :=
  o.nameBuilt = true ∧ o.shmOpen = true ∧ o.ftruncate = true ∧ o.fchmod = true ∧ o.mmap = true

/-- Something throws between the last acquisition and the owning object. -/
def LateThrow (o : Outcome) : Prop := o.Acquires ∧ (o.identity = none ∨ o.nameCopied = false)

end Outcome

/-- A client and the system it runs on: `state` is `state_`, `mapping` is that of
its implementation. -/
structure Host where
  kernel : Kernel
  state : Option Nat := none
  mapping : SharedMapping := {}

inductive HostCall
  | start (processName : Text) (outcome : Outcome)
  | stop

namespace Host

variable {s : Host} {o : Outcome} {processName : Text}

def available (s : Host) : Bool := s.state.isSome

/-- `client::start` -/
def start (s : Host) (processName : Text) (o : Outcome) : Host × Bool :=
  if s.state ≠ none then (s, true)
  else
    match s.kernel.createProcessMapping processName o with
    | (k, .ok (some mapping)) =>
      ({ kernel := k.reset s.mapping, mapping := mapping, state := mapping.state }, true)
    | (k, _) => ({ s with kernel := k }, false)

/-- `client::stop` -/
def stop (s : Host) : Host :=
  let k := s.state.elim s.kernel fun region =>
    s.kernel.write region
      { s.kernel.memory region with processLifecycle := Lifecycle.cleanExit }
  { kernel := k.reset s.mapping, state := none, mapping := {} }

def step (s : Host) : HostCall → Host
  | .start processName o => (s.start processName o).1
  | .stop => s.stop

/-- The client owns one descriptor, one region and the linked name, and nothing
else of what it acquired is left. -/
def Owns (s : Host) : Prop :=
  ∃ descriptor region, s.state = some region ∧
    s.mapping = ⟨some region, some descriptor, true, s.kernel.ownName⟩ ∧
    s.kernel.descriptors = {descriptor} ∧ s.kernel.regions = {region} ∧
    s.kernel.names s.kernel.ownName = some descriptor

/-- A start that returns true leaves the client in possession, and one that returns
false leaves nothing of what it acquired. -/
def AllOrNothing (s : Host) : HostCall → Prop
  | .start processName o =>
    let after := (s.start processName o).1
    if (s.start processName o).2 then after.Owns
    else
      after.available = false ∧ after.kernel.descriptors ⊆ s.kernel.descriptors ∧
        after.kernel.regions ⊆ s.kernel.regions ∧
        ∀ object ∈ after.kernel.names s.kernel.ownName,
          ¬(s.kernel.next ≤ object ∧ object < after.kernel.next)
  | .stop => True

def NoLateThrow (s : Host) : HostCall → Prop
  | .start _ o => s.state = none → ¬o.LateThrow
  | .stop => True

end Host

namespace Kernel

variable {k : Kernel} {o : Outcome} {processName : Text}

theorem ownName_ne_nil (k : Kernel) : k.ownName ≠ [] := by
  have h : text "/cppr-watchdog-" ≠ [] := by decide
  rw [ownName, sharedMemoryName, List.append_assoc, List.append_assoc]
  exact List.append_ne_nil_of_left_ne_nil h _

theorem create_fails (k : Kernel) (processName : Text) (h : ¬o.Acquires) :
    let r := k.createProcessMapping processName o
    (∀ mapping, r.2 ≠ .ok (some mapping)) ∧ r.1.descriptors ⊆ k.descriptors ∧
      r.1.regions = k.regions ∧
      ∀ object ∈ r.1.names k.ownName, ¬(k.next ≤ object ∧ object < r.1.next) := by
  intro r
  have hr : r = k.createProcessMapping processName o := rfl
  unfold createProcessMapping at hr
  dsimp only at hr
  split at hr
  · rw [hr]
    refine ⟨by simp, subset_rfl, rfl, fun object _ hb => absurd hb.2 (not_lt.mpr hb.1)⟩
  · next hname =>
    split at hr
    · rw [hr]
      exact ⟨by simp, subset_rfl, rfl, by simp [shmUnlink]⟩
    · next hopen =>
      have hback : ∀ result : Except Unit (Option SharedMapping), (∀ m, result ≠ .ok (some m)) →
          r = ((((k.shmUnlink k.ownName).shmOpen k.ownName).close
            (k.shmUnlink k.ownName).next).shmUnlink k.ownName, result) →
          (∀ m, r.2 ≠ .ok (some m)) ∧ r.1.descriptors ⊆ k.descriptors ∧
            r.1.regions = k.regions ∧
            ∀ object ∈ r.1.names k.ownName, ¬(k.next ≤ object ∧ object < r.1.next) := by
        intro result hresult he
        rw [he]
        exact ⟨hresult, Finset.erase_insert_subset _ _, rfl, by simp [shmUnlink]⟩
      split at hr
      · exact hback (.ok none) (by simp) hr
      · next hsize =>
        split at hr
        · exact hback (.ok none) (by simp) hr
        · next hmap =>
          have hfiles : o.ftruncate = true ∧ o.fchmod = true := by simpa using hsize
          exact absurd ⟨by simpa using hname, by simpa using hopen, hfiles.1, hfiles.2,
            by simpa using hmap⟩ h

def acquired (k : Kernel) : Kernel :=
  let k := ((k.shmUnlink k.ownName).shmOpen k.ownName)
  k.mmap.write k.next
    { headerSize := headerSize, totalSize := totalSize, pid := k.pid, uid := k.uid }

theorem create_of_acquires (k : Kernel) (processName : Text) (h : o.Acquires) :
    k.createProcessMapping processName o =
      match o.identity with
      | none => (k.acquired, .error ())
      | some startTicks =>
        let k' := k.acquired.write (k.next + 1)
          (SharedState.createProcessMapping k.pid k.uid startTicks processName)
        let mapping : SharedMapping := ⟨some (k.next + 1), some k.next, true, []⟩
        if !o.nameCopied then (k'.reset mapping, .error ())
        else (k', .ok (some { mapping with name := k.ownName })) := by
  obtain ⟨hname, hopen, htrunc, hmode, hmap⟩ := h
  simp only [createProcessMapping, hname, hopen, htrunc, hmode, hmap, Bool.not_true, Bool.or_self,
    Bool.false_eq_true, if_false]
  rfl

theorem acquired_names (k : Kernel) : k.acquired.names k.ownName = some k.next := by
  have h : k.acquired.names =
      Function.update (k.shmUnlink k.ownName).names k.ownName (some k.next) := rfl
  rw [h, Function.update_self]

theorem reset_unnamed (k : Kernel) (region descriptor : Nat) :
    k.reset ⟨some region, some descriptor, true, []⟩ = (k.munmap region).close descriptor := by
  simp [reset]

@[simp] theorem write_names (k : Kernel) (region : Nat) (m : SharedState) :
    (k.write region m).names = k.names := rfl

@[simp] theorem close_names (k : Kernel) (descriptor : Nat) :
    (k.close descriptor).names = k.names := rfl

@[simp] theorem munmap_names (k : Kernel) (region : Nat) :
    (k.munmap region).names = k.names := rfl

theorem create_throws (k : Kernel) (processName : Text) (h : o.LateThrow) :
    let r := k.createProcessMapping processName o
    r.2 = .error () ∧ r.1.names k.ownName = some k.next ∧ k.next < r.1.next := by
  intro r
  have hr : r = _ := create_of_acquires k processName h.1
  cases hi : o.identity with
  | none =>
    rw [hi] at hr
    rw [hr]
    exact ⟨rfl, k.acquired_names, Nat.lt_add_of_pos_right (Nat.succ_pos 1)⟩
  | some startTicks =>
    have hc : o.nameCopied = false := h.2.resolve_left (by simp [hi])
    simp only [hi, hc, Bool.not_false, if_true, reset_unnamed] at hr
    rw [hr]
    refine ⟨rfl, ?_, Nat.lt_add_of_pos_right (Nat.succ_pos 1)⟩
    simp only [close_names, munmap_names, write_names, acquired_names]

theorem create_succeeds (k : Kernel) (processName : Text) (h : o.Acquires) (hl : ¬o.LateThrow) :
    ∃ k', k.createProcessMapping processName o =
        (k', .ok (some ⟨some (k.next + 1), some k.next, true, k.ownName⟩)) ∧
      k'.ownName = k.ownName ∧ k'.descriptors = insert k.next k.descriptors ∧
      k'.regions = insert (k.next + 1) k.regions ∧ k'.names k.ownName = some k.next := by
  cases hi : o.identity with
  | none => exact absurd ⟨h, .inl hi⟩ hl
  | some startTicks =>
    cases hc : o.nameCopied with
    | false => exact absurd ⟨h, .inr hc⟩ hl
    | true =>
      have hr := create_of_acquires k processName h
      simp only [hi, hc, Bool.not_true, Bool.false_eq_true, if_false] at hr
      refine ⟨_, hr, rfl, rfl, rfl, ?_⟩
      rw [write_names, acquired_names]

end Kernel

namespace Host

variable {s : Host} {o : Outcome} {processName : Text}

/-- Nothing of what the client ever acquired is left. -/
structure Idle (s : Host) : Prop where
  state : s.state = none
  mapping : s.mapping = {}
  descriptors : s.kernel.descriptors = ∅
  regions : s.kernel.regions = ∅

theorem Idle.start (processName : Text) (h : s.Idle) (hl : ¬o.LateThrow) :
    (s.start processName o).2 = true ∧ (s.start processName o).1.Owns ∨
      (s.start processName o).2 = false ∧ (s.start processName o).1.Idle ∧
        ∀ object ∈ (s.start processName o).1.kernel.names s.kernel.ownName,
          ¬(s.kernel.next ≤ object ∧ object < (s.start processName o).1.kernel.next) := by
  have hn : ¬(s.state ≠ none) := not_not.mpr h.state
  rw [Host.start, if_neg hn]
  by_cases ha : o.Acquires
  · obtain ⟨k', hr, hown, hd, hm, hname⟩ :=
      Kernel.create_succeeds s.kernel processName ha hl
    refine .inl ?_
    rw [hr, h.mapping]
    refine ⟨rfl, s.kernel.next, s.kernel.next + 1, rfl, ?_, ?_, ?_, ?_⟩
    · exact congrArg _ hown.symm
    · exact hd.trans (by rw [h.descriptors]; rfl)
    · exact hm.trans (by rw [h.regions]; rfl)
    · exact (congrArg k'.names hown).trans hname
  · obtain ⟨hres, hd, hm, hname⟩ :=
      Kernel.create_fails s.kernel processName ha
    refine .inr ?_
    generalize s.kernel.createProcessMapping processName o = r at *
    obtain ⟨k', result⟩ := r
    have hidle : Idle { s with kernel := k' } :=
      ⟨h.state, h.mapping, Finset.subset_empty.mp (h.descriptors ▸ hd), hm.trans h.regions⟩
    rcases result with _ | _ | mapping
    · exact ⟨rfl, hidle, hname⟩
    · exact ⟨rfl, hidle, hname⟩
    · exact absurd rfl (hres mapping)

theorem Owns.start (h : s.Owns) : s.start processName o = (s, true) := by
  obtain ⟨descriptor, region, hs, -⟩ := h
  exact if_pos (by simp [hs])

theorem Idle.stop (h : s.Idle) : s.stop.Idle := by
  have hk : s.stop.kernel = s.kernel := by simp [Host.stop, h.state, h.mapping, Kernel.reset]
  exact ⟨rfl, rfl, by rw [hk, h.descriptors], by rw [hk, h.regions]⟩

theorem Owns.stop (h : s.Owns) : s.stop.Idle := by
  obtain ⟨descriptor, region, hs, hm, hd, hr, hn⟩ := h
  have hk : s.stop.kernel =
      (((s.kernel.write region
        { s.kernel.memory region with processLifecycle := Lifecycle.cleanExit }).munmap
          region).close descriptor).shmUnlink s.kernel.ownName := by
    simp [Host.stop, hs, hm, Kernel.reset, Kernel.ownName_ne_nil]
  refine ⟨rfl, rfl, ?_, ?_⟩
  · rw [hk, show (∅ : Finset Nat) = ({descriptor} : Finset Nat).erase descriptor by simp, ← hd]
    rfl
  · rw [hk, show (∅ : Finset Nat) = ({region} : Finset Nat).erase region by simp, ← hr]
    rfl

/-- The client between two calls, as long as nothing has thrown late. -/
def Settled (s : Host) : Prop := s.Idle ∨ s.Owns

theorem Settled.step {call : HostCall} (h : s.Settled) (hG : s.NoLateThrow call) :
    (s.step call).Settled := by
  cases call with
  | start processName o =>
    rcases h with h | h
    · rcases h.start processName (hG h.state) with ⟨-, hh⟩ | ⟨-, hh, -⟩
      · exact .inr hh
      · exact .inl hh
    · refine .inr ?_
      rw [Host.step, h.start]
      exact h
  | stop => exact .inl (h.elim Idle.stop Owns.stop)

theorem Settled.allOrNothing_iff {call : HostCall} (h : s.Settled) :
    s.AllOrNothing call ↔ s.NoLateThrow call := by
  cases call with
  | stop => exact Iff.rfl
  | start processName o =>
    simp only [AllOrNothing, NoLateThrow]
    rcases h with h | h
    · by_cases hl : o.LateThrow
      · refine iff_of_false (fun hh => ?_) fun hh => hh h.state hl
        obtain ⟨hr, hn, hlt⟩ := Kernel.create_throws s.kernel processName hl
        have hs : s.start processName o =
            ({ s with kernel := (s.kernel.createProcessMapping processName o).1 }, false) := by
          rw [Host.start, if_neg (not_not.mpr h.state)]
          generalize s.kernel.createProcessMapping processName o = r at hr
          obtain ⟨k', result⟩ := r
          cases hr
          rfl
        rw [hs, if_neg (by simp)] at hh
        exact hh.2.2.2 _ hn ⟨le_rfl, hlt⟩
      · refine iff_of_true ?_ fun _ => hl
        rcases h.start processName hl with ⟨hr, hh⟩ | ⟨hr, hh, hn⟩
        · rw [if_pos hr]
          exact hh
        · rw [if_neg (by simp [hr])]
          exact ⟨by simp [available, hh.state], by simp [hh.descriptors], by simp [hh.regions], hn⟩
    · rw [h.start, if_pos rfl]
      refine iff_of_true h fun hs => ?_
      obtain ⟨-, region, hr, -⟩ := h
      cases hs.symm.trans hr

def constructed (pid uid : UInt32) (names : Text → Option Nat) (memory : Nat → SharedState)
    (next : Nat) : Host :=
  { kernel := { pid := pid, uid := uid, names := names, memory := memory, next := next } }

theorem settled_constructed (pid uid : UInt32) (names : Text → Option Nat)
    (memory : Nat → SharedState) (next : Nat) :
    (constructed pid uid names memory next).Settled :=
  .inl ⟨rfl, rfl, rfl, rfl⟩

/-- In any sequence of starts and stops, each start is all or nothing exactly where
none throws after it has mapped the shared memory and before it owns it. -/
theorem start_all_or_nothing_iff (pid uid : UInt32) (names : Text → Option Nat)
    (memory : Nat → SharedState) (next : Nat) (calls : List HostCall) :
    Permits step AllOrNothing (constructed pid uid names memory next) calls ↔
      Permits step NoLateThrow (constructed pid uid names memory next) calls :=
  permits_iff_permits (fun _ _ => Settled.step) (fun _ _ => Settled.allOrNothing_iff)
    (settled_constructed pid uid names memory next)

def identityThrows : Outcome := ⟨true, true, true, true, true, none, true⟩

theorem start_leaks :
    let s := constructed 7 1000 (fun _ => none) (fun _ => {}) 3
    let after := (s.start (text "worker") identityThrows).1
    ¬Permits step AllOrNothing s [.start (text "worker") identityThrows] ∧
      (s.start (text "worker") identityThrows).2 = false ∧ after.available = false ∧
      after.kernel.descriptors = {3} ∧ after.kernel.regions = {4} ∧
      after.kernel.names (text "/cppr-watchdog-1000-7") = some 3 := by
  intro s after
  refine ⟨fun h => ?_, rfl, rfl, rfl, rfl, by decide +kernel⟩
  have hG := (settled_constructed 7 1000 _ _ 3).allOrNothing_iff.mp h.1
  exact hG rfl ⟨⟨rfl, rfl, rfl, rfl, rfl⟩, .inl rfl⟩

end Host

end Peepbooth
