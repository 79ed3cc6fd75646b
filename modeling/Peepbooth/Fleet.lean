import Peepbooth.Decimal
import Peepbooth.Delimited
import Peepbooth.Startup
import Peepbooth.Watchdog

/-! All the processes of a machine that publish a state of their own, and what a watcher finds
under their names. Processes start, stop and crash, their system calls fail, and their numbers
are given out again. -/

namespace Peepbooth

open Schedule

/-- A process that is alive, and its client. -/
structure Resident where
  uid : UInt32
  startTicks : UInt64
  descriptors : Finset Nat := ∅
  regions : Finset Nat := ∅
  state : Option Nat := none
  mapping : SharedMapping := {}

/-- `past` are the start times of all processes that have had a number. -/
structure Fleet where
  names : Text → Option Nat := fun _ => none
  memory : Nat → SharedState := fun _ => {}
  next : Nat := 0
  resident : UInt32 → Option Resident := fun _ => none
  past : UInt32 → List UInt64 := fun _ => []

/-- A process that exits leaves everything but its names to the system. -/
inductive FleetEvent
  | spawn (pid uid : UInt32) (startTicks : UInt64)
  | start (pid : UInt32) (processName : Text) (outcome : Outcome)
  | stop (pid : UInt32)
  | exit (pid : UInt32)

namespace Fleet

/-- A client and the system, as its own calls see them. -/
def host (f : Fleet) (pid : UInt32) (r : Resident) : Host where
  kernel := ⟨pid, r.uid, r.descriptors, r.regions, f.names, f.memory, f.next⟩
  state := r.state
  mapping := r.mapping

def settle (f : Fleet) (pid : UInt32) (r : Resident) (h : Host) : Fleet :=
  { f with
    names := h.kernel.names
    memory := h.kernel.memory
    next := h.kernel.next
    resident := Function.update f.resident pid (some {
      uid := r.uid, startTicks := r.startTicks, descriptors := h.kernel.descriptors
      regions := h.kernel.regions, state := h.state, mapping := h.mapping }) }

def step (f : Fleet) : FleetEvent → Fleet
  | .spawn pid uid startTicks =>
    if (f.resident pid).isNone then
      { f with
        resident := Function.update f.resident pid (some { uid := uid, startTicks := startTicks })
        past := Function.update f.past pid (startTicks :: f.past pid) }
    else f
  | .start pid processName o =>
    match f.resident pid with
    | none => f
    | some r => f.settle pid r ((f.host pid r).start processName o).1
  | .stop pid =>
    match f.resident pid with
    | none => f
    | some r => f.settle pid r (f.host pid r).stop
  | .exit pid => { f with resident := Function.update f.resident pid none }

/-- An object is mapped right after it has been made, in the region of the next number. -/
def content (f : Fleet) (object : Nat) : SharedState := f.memory (object + 1)

/-- Nothing throws once everything has been acquired, and what a process reads of its own start
time is right. -/
def Regular (f : Fleet) : FleetEvent → Prop
  | .spawn pid _ startTicks => startTicks ≠ 0 ∧ startTicks ∉ f.past pid
  | .start pid _ o => ∀ r ∈ f.resident pid, (r.state = none → ¬o.LateThrow) ∧
      ∀ t ∈ o.identity.join, t = r.startTicks
  | _ => True

end Fleet

theorem sharedMemoryName_inj {uid uid' pid pid' : UInt32}
    (h : sharedMemoryName uid pid = sharedMemoryName uid' pid') : uid = uid' ∧ pid = pid' := by
  have hdigits (n : Nat) : text (toString n) = (Digits.ofNat n).bytes := rfl
  unfold sharedMemoryName at h
  simp only [List.append_assoc, hdigits] at h
  obtain ⟨huid, hpid⟩ := Delimited.field_inj (a := 45) (by decide)
    (Digits.notMem_bytes _ (by decide)) (Digits.notMem_bytes _ (by decide))
    (List.append_cancel_left h)
  exact ⟨UInt32.toNat_inj.mp (Digits.ofNat_inj huid), UInt32.toNat_inj.mp (Digits.ofNat_inj hpid)⟩

namespace SharedState

variable {m m' : SharedState} {identity : ProcessIdentity} {uid : UInt32}

/-- A state made for a process, whatever start time it has. -/
def MadeFor (m : SharedState) (pid uid : UInt32) : Prop :=
  m.validState ⟨pid, m.processStartTicks⟩ uid = true

theorem madeFor_create (pid uid : UInt32) (startTicks : Option UInt64) (processName : Text) :
    (createProcessMapping pid uid startTicks processName).MadeFor pid uid := by
  simp [MadeFor, validState, createProcessMapping]

/-- All that `valid_state` looks at. -/
structure SameHeader (m m' : SharedState) : Prop where
  startTicks : m'.processStartTicks = m.processStartTicks
  madeFor : ∀ pid uid, m.MadeFor pid uid → m'.MadeFor pid uid

theorem SameHeader.refl (m : SharedState) : SameHeader m m := ⟨rfl, fun _ _ => id⟩

end SharedState

namespace Fleet

variable {f f' : Fleet} {pid : UInt32} {r r' : Resident}

/-- The client of a process has nothing, and nothing that stands under its name is its own, or
it has what stands there. -/
def Keeps (f : Fleet) (pid : UInt32) (r : Resident) : Prop :=
  (r.state = none ∧ r.mapping = {} ∧ ∀ object, f.names (sharedMemoryName r.uid pid) = some object →
    (f.content object).processStartTicks ≠ r.startTicks) ∨
  ∃ object, r.state = some (object + 1) ∧
    r.mapping = ⟨some (object + 1), some object, true, sharedMemoryName r.uid pid⟩ ∧
    f.names (sharedMemoryName r.uid pid) = some object ∧ (f.content object).MadeFor pid r.uid

/-- What stands under a name was made by a process of that number. -/
structure Orderly (f : Fleet) : Prop where
  linked : ∀ pid uid object, f.names (sharedMemoryName uid pid) = some object →
    object + 1 < f.next ∧ (f.content object).processStartTicks ∈ 0 :: f.past pid
  alive : ∀ pid r, f.resident pid = some r →
    r.startTicks ≠ 0 ∧ r.startTicks ∈ f.past pid ∧ f.Keeps pid r

/-- A process changes nothing but its own name and what is new. -/
structure Own (f f' : Fleet) (pid : UInt32) (r : Resident) : Prop where
  names : ∀ name, name ≠ sharedMemoryName r.uid pid → f'.names name = f.names name
  content : ∀ object, object + 1 < f.next → (f.content object).SameHeader (f'.content object)
  next : f.next ≤ f'.next
  past : f'.past = f.past
  resident : ∀ q, q ≠ pid → f'.resident q = f.resident q

theorem Keeps.own (h : f.Keeps pid r) {q : UInt32} {s : Resident} (ho : Own f f' q s)
    (hq : pid ≠ q) (hf : Orderly f) : f'.Keeps pid r := by
  have hname : sharedMemoryName r.uid pid ≠ sharedMemoryName s.uid q :=
    fun he => hq (sharedMemoryName_inj he).2
  rcases h with ⟨hs, hm, hc⟩ | ⟨object, hs, hm, hn, hmade⟩
  · refine .inl ⟨hs, hm, fun object hobject => ?_⟩
    rw [ho.names _ hname] at hobject
    rw [(ho.content object (hf.linked _ _ _ hobject).1).startTicks]
    exact hc object hobject
  · refine .inr ⟨object, hs, hm, ?_, ?_⟩
    · rw [ho.names _ hname, hn]
    · exact (ho.content object (hf.linked _ _ _ hn).1).madeFor _ _ hmade

/-- A step of one process, where its own name and its own client are in order. -/
theorem Orderly.own (h : Orderly f) (hr : f.resident pid = some r) (ho : Own f f' pid r)
    (hr' : f'.resident pid = some r') (ht : r'.startTicks = r.startTicks)
    (hl : ∀ object, f'.names (sharedMemoryName r.uid pid) = some object →
      object + 1 < f'.next ∧ (f'.content object).processStartTicks ∈ 0 :: f.past pid)
    (hk : f'.Keeps pid r') : Orderly f' := by
  refine ⟨fun q uid object hobject => ?_, fun q s hs => ?_⟩
  · rw [ho.past]
    by_cases hname : sharedMemoryName uid q = sharedMemoryName r.uid pid
    · obtain ⟨rfl, rfl⟩ := sharedMemoryName_inj hname
      exact hl object hobject
    · rw [ho.names _ hname] at hobject
      obtain ⟨hlt, hticks⟩ := h.linked q uid object hobject
      rw [(ho.content object hlt).startTicks]
      exact ⟨hlt.trans_le ho.next, hticks⟩
  · rw [ho.past]
    by_cases hq : q = pid
    · subst hq
      obtain rfl := Option.some.inj (hr'.symm.trans hs)
      rw [ht]
      exact ⟨(h.alive _ _ hr).1, (h.alive _ _ hr).2.1, hk⟩
    · rw [ho.resident q hq] at hs
      obtain ⟨hne, hpast, hkeeps⟩ := h.alive q s hs
      exact ⟨hne, hpast, hkeeps.own ho hq h⟩

end Fleet

namespace Kernel

variable {k : Kernel} {o : Outcome}

/-- What `create_process_mapping` does to the names and to the memory: nothing, or it takes its
own name away, or it puts a new object there. -/
inductive CreateEffect (k : Kernel) (processName : Text) (o : Outcome) :
    Kernel × Except Unit (Option SharedMapping) → Prop
  | nothing : CreateEffect k processName o (k, .error ())
  | unlinked (k' : Kernel) (result : Except Unit (Option SharedMapping))
    (hresult : ∀ mapping, result ≠ .ok (some mapping))
    (names : k'.names = Function.update k.names k.ownName none) (memory : k'.memory = k.memory)
    (next : k.next ≤ k'.next) : CreateEffect k processName o (k', result)
  | created (k' : Kernel) (startTicks : Option UInt64) (identity : o.identity = some startTicks)
    (names : k'.names = Function.update k.names k.ownName (some k.next))
    (content : k'.memory (k.next + 1) =
      SharedState.createProcessMapping k.pid k.uid startTicks processName)
    (others : ∀ region, region ≠ k.next + 1 → k'.memory region = k.memory region)
    (next : k'.next = k.next + 2) :
    CreateEffect k processName o
      (k', .ok (some ⟨some (k.next + 1), some k.next, true, k.ownName⟩))

theorem create_effect (k : Kernel) (processName : Text) (hl : ¬o.LateThrow) :
    CreateEffect k processName o (k.createProcessMapping processName o) := by
  by_cases ha : o.Acquires
  · rw [create_of_acquires k processName ha]
    cases hi : o.identity with
    | none => exact absurd ⟨ha, .inl hi⟩ hl
    | some startTicks =>
      have hc : o.nameCopied = true := by
        by_contra hn
        exact hl ⟨ha, .inr (by simpa using hn)⟩
      simp only [hc, Bool.not_true, Bool.false_eq_true, if_false]
      refine .created _ startTicks hi ?_ ?_ (fun region hr => ?_) rfl
      · exact Function.update_idem ..
      · exact Function.update_self ..
      · simp [write, acquired, shmOpen, shmUnlink, mmap, hr]
  · have hback (k' : Kernel) (hn : k'.names = Function.update k.names k.ownName none)
        (hm : k'.memory = k.memory) (hx : k.next ≤ k'.next) :
        CreateEffect k processName o (k', .ok none) :=
      .unlinked k' _ (by simp) hn hm hx
    have hclosed (descriptor : Nat) :
        (((((k.shmUnlink k.ownName).shmOpen k.ownName).close descriptor).shmUnlink
          k.ownName).names) = Function.update k.names k.ownName none := by
      simp [shmUnlink, shmOpen, close]
    unfold createProcessMapping
    dsimp only
    split
    · exact .nothing
    · next hname =>
      split
      · exact hback _ rfl rfl le_rfl
      · next hopen =>
        split
        · exact hback _ (hclosed _) rfl (Nat.le_succ _)
        · next hsize =>
          split
          · exact hback _ (hclosed _) rfl (Nat.le_succ _)
          · next hmap =>
            have hfiles : o.ftruncate = true ∧ o.fchmod = true := by simpa using hsize
            exact absurd ⟨by simpa using hname, by simpa using hopen, hfiles.1, hfiles.2,
              by simpa using hmap⟩ ha

end Kernel

namespace Fleet

variable {f : Fleet} {pid : UInt32} {r : Resident}

theorem settle_host (hr : f.resident pid = some r) : f.settle pid r (f.host pid r) = f := by
  have he : f.settle pid r (f.host pid r) =
      { f with resident := Function.update f.resident pid (some r) } := rfl
  rw [he, ← hr, Function.update_eq_self]

theorem Orderly.spawn (h : Orderly f) {uid : UInt32} {startTicks : UInt64}
    (hg : f.Regular (.spawn pid uid startTicks)) :
    Orderly (f.step (.spawn pid uid startTicks)) := by
  simp only [Fleet.step]
  split
  case isFalse => exact h
  refine ⟨fun q uid' object hobject => ?_, fun q s hs => ?_⟩
  · obtain ⟨hlt, hticks⟩ := h.linked q uid' object hobject
    refine ⟨hlt, ?_⟩
    by_cases hq : q = pid
    · subst hq
      simp only [Function.update_self]
      rcases List.mem_cons.mp hticks with h0 | hpast
      · exact List.mem_cons.mpr (.inl h0)
      · exact List.mem_cons_of_mem _ (List.mem_cons_of_mem _ hpast)
    · change (f.content object).processStartTicks ∈ 0 :: Function.update f.past pid _ q
      rwa [Function.update_of_ne hq]
  · by_cases hq : q = pid
    · subst hq
      simp only [Function.update_self] at hs ⊢
      obtain rfl := Option.some.inj hs
      refine ⟨hg.1, List.mem_cons_self, .inl ⟨rfl, rfl, fun object hobject heq => ?_⟩⟩
      obtain ⟨-, hticks⟩ := h.linked q uid object hobject
      rw [show (f.content object).processStartTicks = startTicks from heq] at hticks
      rcases List.mem_cons.mp hticks with h0 | hpast
      · exact hg.1 h0
      · exact hg.2 hpast
    · simp only [Function.update_of_ne hq] at hs ⊢
      exact h.alive q s hs

theorem Orderly.exit (h : Orderly f) (pid : UInt32) : Orderly (f.step (.exit pid)) := by
  refine ⟨h.linked, fun q s hs => ?_⟩
  simp only [Fleet.step, Function.update_apply] at hs
  split at hs
  · cases hs
  · exact h.alive q s hs

theorem own_settle (pid : UInt32) (r : Resident) {h : Host} (object : Option Nat)
    (hn : h.kernel.names = Function.update f.names (sharedMemoryName r.uid pid) object)
    (hc : ∀ object, object + 1 < f.next →
      (f.content object).SameHeader (h.kernel.memory (object + 1)))
    (hx : f.next ≤ h.kernel.next) : Own f (f.settle pid r h) pid r where
  names name hname := by
    simp only [settle, hn, Function.update_of_ne hname]
  content := hc
  next := hx
  past := rfl
  resident q hq := by simp only [settle, Function.update_of_ne hq]

/-- The client has given up what it had, and the name with it. -/
theorem Orderly.unlinked (h : Orderly f) (hr : f.resident pid = some r) {a : Host}
    (hn : a.kernel.names = Function.update f.names (sharedMemoryName r.uid pid) none)
    (hc : ∀ object, object + 1 < f.next →
      (f.content object).SameHeader (a.kernel.memory (object + 1)))
    (hx : f.next ≤ a.kernel.next) (hs : a.state = none) (hm : a.mapping = {}) :
    Orderly (f.settle pid r a) := by
  have hnone : (f.settle pid r a).names (sharedMemoryName r.uid pid) = none := by
    simp only [settle, hn, Function.update_self]
  refine h.own hr (own_settle pid r none hn hc hx) (Function.update_self ..) rfl ?_ ?_
  · intro object hobject
    rw [hnone] at hobject
    cases hobject
  · refine .inl ⟨hs, hm, fun object hobject => ?_⟩
    rw [hnone] at hobject
    cases hobject

theorem Orderly.stop (h : Orderly f) (pid : UInt32) : Orderly (f.step (.stop pid)) := by
  cases hr : f.resident pid with
  | none =>
    simp only [Fleet.step, hr]
    exact h
  | some r =>
    simp only [Fleet.step, hr]
    obtain ⟨-, -, hk⟩ := h.alive pid r hr
    rcases hk with ⟨hs, hm, -⟩ | ⟨object, hs, hm, hn, -⟩
    · have hstop : (f.host pid r).stop = f.host pid r := by
        simp [Host.stop, host, hs, hm, Kernel.reset]
      rw [hstop, settle_host hr]
      exact h
    · have hname : sharedMemoryName r.uid pid ≠ [] := (f.host pid r).kernel.ownName_ne_nil
      have hnames : (f.host pid r).stop.kernel.names =
          Function.update f.names (sharedMemoryName r.uid pid) none := by
        simp [Host.stop, host, hs, hm, Kernel.reset, hname, Kernel.shmUnlink, Kernel.close,
          Kernel.munmap, Kernel.write]
      have hmemory : (f.host pid r).stop.kernel.memory =
          Function.update f.memory (object + 1)
            { f.memory (object + 1) with processLifecycle := Lifecycle.cleanExit } := by
        simp [Host.stop, host, hs, hm, Kernel.reset, hname, Kernel.shmUnlink, Kernel.close,
          Kernel.munmap, Kernel.write]
      have hnext : (f.host pid r).stop.kernel.next = f.next := by
        simp [Host.stop, host, hs, hm, Kernel.reset, hname, Kernel.shmUnlink, Kernel.close,
          Kernel.munmap, Kernel.write]
      refine h.unlinked hr hnames (fun other _ => ?_) hnext.ge rfl rfl
      rw [hmemory]
      by_cases ho : other + 1 = object + 1
      · rw [ho, Function.update_self, content, ho]
        exact ⟨rfl, fun _ _ => id⟩
      · rw [Function.update_of_ne ho]
        exact .refl _

/-- The client has made an object under its name, with the start time that it has read. -/
theorem Orderly.created (h : Orderly f) (hr : f.resident pid = some r) {k : Kernel}
    (processName : Text) {startTicks : Option UInt64}
    (hn : k.names = Function.update f.names (sharedMemoryName r.uid pid) (some f.next))
    (hc : k.memory (f.next + 1) =
      SharedState.createProcessMapping pid r.uid startTicks processName)
    (ho : ∀ region, region ≠ f.next + 1 → k.memory region = f.memory region)
    (hx : k.next = f.next + 2) (ht : ∀ t, startTicks = some t → t = r.startTicks) :
    Orderly (f.settle pid r ⟨k, some (f.next + 1),
      ⟨some (f.next + 1), some f.next, true, sharedMemoryName r.uid pid⟩⟩) := by
  have hname : k.names (sharedMemoryName r.uid pid) = some f.next := by
    rw [hn, Function.update_self]
  refine h.own hr (own_settle pid r (some f.next) hn (fun other hlt => ?_) ?_)
    (Function.update_self ..) rfl (fun object hobject => ?_) ?_
  · have hne : other + 1 ≠ f.next + 1 := by omega
    rw [ho _ hne]
    exact .refl _
  · change f.next ≤ k.next
    omega
  · obtain rfl := Option.some.inj (hname.symm.trans hobject)
    refine ⟨?_, ?_⟩
    · change f.next + 1 < k.next
      omega
    · change (k.memory (f.next + 1)).processStartTicks ∈ _
      rw [hc]
      cases startTicks with
      | none => exact List.mem_cons_self
      | some t =>
        refine List.mem_cons_of_mem _ ?_
        change t ∈ f.past pid
        rw [ht t rfl]
        exact (h.alive pid r hr).2.1
  · refine .inr ⟨f.next, rfl, rfl, hname, ?_⟩
    change (k.memory (f.next + 1)).MadeFor pid r.uid
    rw [hc]
    exact SharedState.madeFor_create pid r.uid startTicks processName

theorem Orderly.start (h : Orderly f) {processName : Text} {o : Outcome}
    (hg : f.Regular (.start pid processName o)) : Orderly (f.step (.start pid processName o)) := by
  cases hr : f.resident pid with
  | none =>
    simp only [Fleet.step, hr]
    exact h
  | some r =>
    simp only [Fleet.step, hr]
    obtain ⟨hlate, hticks⟩ := hg r hr
    obtain ⟨-, hpast, hk⟩ := h.alive pid r hr
    rcases hk with ⟨hs, hm, hc⟩ | ⟨object, hs, -⟩
    case inr =>
      have hstart : ((f.host pid r).start processName o).1 = f.host pid r := by
        rw [Host.start, if_pos (by simp [host, hs])]
      rw [hstart, settle_host hr]
      exact h
    have heffect := (f.host pid r).kernel.create_effect processName (hlate hs)
    rw [Host.start, if_neg (by simp [host, hs])]
    generalize (f.host pid r).kernel.createProcessMapping processName o = result at heffect ⊢
    cases heffect with
    | nothing =>
      have hsame : { f.host pid r with kernel := (f.host pid r).kernel } = f.host pid r := rfl
      dsimp only
      rw [settle_host hr]
      exact h
    | unlinked k' result hresult names memory next =>
      have hfail : Orderly (f.settle pid r { f.host pid r with kernel := k' }) :=
        h.unlinked hr names (fun other _ => by rw [memory]; exact .refl _) next hs hm
      cases result with
      | error e => exact hfail
      | ok mapping =>
        cases mapping with
        | none => exact hfail
        | some mapping => exact absurd rfl (hresult mapping)
    | created k' startTicks identity names content others next =>
      have hreset : k'.reset (f.host pid r).mapping = k' := by simp [host, hm, Kernel.reset]
      dsimp only
      rw [hreset]
      exact h.created hr processName names content others next fun t ht =>
        hticks t (by rw [identity, ht]; rfl)

theorem Orderly.step (h : Orderly f) {e : FleetEvent} (hg : f.Regular e) :
    Orderly (f.step e) := by
  cases e with
  | spawn pid uid startTicks => exact h.spawn hg
  | start pid processName o => exact h.start hg
  | stop pid => exact h.stop pid
  | exit pid => exact h.exit pid

/-- Everything succeeds. -/
def smooth (startTicks : UInt64) : Outcome :=
  ⟨true, true, true, true, true, some (some startTicks), true⟩

/-- A process crashes, and its number is given to another one of the same user. -/
def reused : List FleetEvent :=
  [.spawn 7 1000 100, .start 7 (text "first") (smooth 100), .exit 7, .spawn 7 1000 250,
    .start 7 (text "second") (smooth 250)]

end Fleet

end Peepbooth
