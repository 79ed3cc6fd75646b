import Peepbooth.Owners

/-! What each operation of the watcher takes and gives back, whatever the kernel answers. -/

namespace Peepbooth

/-- The places of a variable that hold something. -/
inductive Member
  | pidDescriptor
  | descriptor
  | state
  deriving DecidableEq, Repr

def HandleObject.row (h : HandleObject) : Member → Option Resource
  | .pidDescriptor => h.pidDescriptor.map .descriptor
  | _ => none

def SharedMapping.row (m : SharedMapping) : Member → Option Resource
  | .pidDescriptor => none
  | .descriptor => m.descriptor.map .descriptor
  | .state => m.state.map .region

def Variable.row : Variable → Member → Option Resource
  | handle h => h.row
  | session m => m.row
  | observer h t => fun l => (h.row l).or (t.bind (·.row l))

theorem HandleObject.row_once {h : HandleObject} {l l' : Member} {r : Resource}
    (hl : h.row l = some r) (hl' : h.row l' = some r) : l = l' := by
  cases l <;> cases l' <;> first | rfl | cases hl | cases hl'

theorem SharedMapping.row_once {m : SharedMapping} {l l' : Member} {r : Resource}
    (hl : m.row l = some r) (hl' : m.row l' = some r) : l = l' := by
  cases l <;> cases l' <;> first | rfl | cases hl | cases hl' | skip
  all_goals
    obtain ⟨n, -, rfl⟩ := Option.map_eq_some_iff.mp hl
    obtain ⟨a, -, he⟩ := Option.map_eq_some_iff.mp hl'
    cases he

/-- No mapping of a watcher owns the name, and one without a pointer holds nothing. -/
def SharedMapping.Borrowed (m : SharedMapping) : Prop :=
  m.owner = false ∧ (m.state = none → m.descriptor = none)

theorem SharedMapping.borrowed_empty : ({} : SharedMapping).Borrowed := ⟨rfl, fun _ => rfl⟩

namespace WatcherProcess

open Holdings

def taken (k : WatcherProcess) : Set Resource := {r | k.takes r = true}

/-- `k'` differs from `k` in what is taken, and may in what is stored. -/
structure Alters (k k' : WatcherProcess) (taken : Set Resource) : Prop where
  taken : k'.taken = taken
  faults : k'.faults = k.faults
  names : k'.names = k.names

variable {k k₁ k₂ : WatcherProcess} {S T : Set Resource} {m : SharedMapping} {a n : Nat}

theorem Alters.refl (k : WatcherProcess) : Alters k k k.taken := ⟨rfl, rfl, rfl⟩

theorem Alters.trans (h : Alters k k₁ S) (h' : Alters k₁ k₂ T) : Alters k k₂ T :=
  ⟨h'.taken, h'.faults.trans h.faults, h'.names.trans h.names⟩

theorem mem_taken_descriptors (k : WatcherProcess) (n : Nat) (x : Option File) (r : Resource) :
    r ∈ taken { k with descriptors := Function.update k.descriptors n x } ↔
      if r = .descriptor n then x.isSome = true else r ∈ k.taken := by
  cases r with
  | descriptor i => by_cases hi : i = n <;> simp [taken, takes, hi]
  | region a => simp [taken, takes]

theorem mem_taken_regions (k : WatcherProcess) (a : Nat) (x : Option Nat) (r : Resource) :
    r ∈ taken { k with regions := Function.update k.regions a x } ↔
      if r = .region a then x.isSome = true else r ∈ k.taken := by
  cases r with
  | descriptor n => simp [taken, takes]
  | region b => by_cases hb : b = a <;> simp [taken, takes, hb]

theorem close_alters (h : .descriptor n ∈ k.taken) :
    Alters k (k.close n) (k.taken \ {.descriptor n}) := by
  rw [show k.close n = _ from if_pos h]
  refine ⟨Set.ext fun r => ?_, rfl, rfl⟩
  rw [mem_taken_descriptors]
  by_cases hr : r = .descriptor n <;> simp [hr]

theorem munmap_alters (h : .region a ∈ k.taken) :
    Alters k (k.munmap a) (k.taken \ {.region a}) := by
  rw [show k.munmap a = _ from if_pos h]
  refine ⟨Set.ext fun r => ?_, rfl, rfl⟩
  rw [mem_taken_regions]
  by_cases hr : r = .region a <;> simp [hr]

theorem exists_object (h : .region a ∈ k.taken) : ∃ object, k.regions a = some object :=
  Option.isSome_iff_exists.mp h

theorem change_alters (f : SharedState → SharedState) (h : .region a ∈ k.taken) :
    Alters k (k.change a f) k.taken := by
  obtain ⟨object, ho⟩ := exists_object h
  rw [change, ho]
  exact ⟨rfl, rfl, rfl⟩

theorem load_eq (h : .region a ∈ k.taken) : ∃ state, k.load a = (k, some state) := by
  obtain ⟨object, ho⟩ := exists_object h
  exact ⟨k.memory object, by rw [load, ho]⟩

theorem openFile_alters (k : WatcherProcess) (number : Option Nat) (file : File) :
    (k.openFile number file = (k, none)) ∨
      ∃ n k₁, k.openFile number file = (k₁, some n) ∧ .descriptor n ∉ k.taken ∧
        Alters k k₁ (insert (.descriptor n) k.taken) := by
  cases number with
  | none => exact .inl rfl
  | some n =>
    by_cases hn : k.takes (.descriptor n)
    · exact .inl (if_pos hn)
    · refine .inr ⟨n, _, if_neg hn, hn, Set.ext fun r => ?_, rfl, rfl⟩
      rw [mem_taken_descriptors]
      by_cases hr : r = .descriptor n <;> simp [hr]

theorem shmOpen_alters (k : WatcherProcess) (name : Text) (number : Option Nat) :
    (k.shmOpen name number = (k, none)) ∨
      ∃ n k₁, k.shmOpen name number = (k₁, some n) ∧ .descriptor n ∉ k.taken ∧
        Alters k k₁ (insert (.descriptor n) k.taken) := by
  unfold shmOpen
  split
  · exact k.openFile_alters number _
  · exact .inl rfl

theorem mmap_alters (k : WatcherProcess) (n : Nat) (address : Option Nat) :
    (k.mmap n address = (k, none)) ∨
      ∃ a k₁, k.mmap n address = (k₁, some a) ∧ .region a ∉ k.taken ∧
        Alters k k₁ (insert (.region a) k.taken) := by
  unfold mmap
  split
  · next object a _ =>
    by_cases ha : k.takes (.region a)
    · exact .inl (if_pos ha)
    · refine .inr ⟨a, _, if_neg ha, ha, Set.ext fun r => ?_, rfl, rfl⟩
      rw [mem_taken_regions]
      by_cases hr : r = .region a <;> simp [hr]
  · exact .inl rfl

theorem rowOf_handle (h : HandleObject) :
    rowOf h.row = {r | ∃ n, h.pidDescriptor = some n ∧ r = .descriptor n} := by
  ext r
  constructor
  · rintro ⟨l, hl⟩
    cases l <;> simp_all [HandleObject.row, eq_comm]
  · rintro ⟨n, hn, rfl⟩
    exact ⟨.pidDescriptor, by simp [HandleObject.row, hn]⟩

theorem rowOf_mapping (m : SharedMapping) :
    rowOf m.row = {r | (∃ n, m.descriptor = some n ∧ r = .descriptor n) ∨
      ∃ a, m.state = some a ∧ r = .region a} := by
  ext r
  constructor
  · rintro ⟨l, hl⟩
    cases l <;> simp_all [SharedMapping.row, eq_comm]
  · rintro (⟨n, hn, rfl⟩ | ⟨a, ha, rfl⟩)
    · exact ⟨.descriptor, by simp [SharedMapping.row, hn]⟩
    · exact ⟨.state, by simp [SharedMapping.row, ha]⟩

theorem closeHandle_alters {h : HandleObject} (hk : rowOf h.row ⊆ k.taken) :
    Alters k (k.closeHandle h) (k.taken \ rowOf h.row) := by
  rw [rowOf_handle] at hk ⊢
  cases hd : h.pidDescriptor with
  | none => simpa [closeHandle, hd] using Alters.refl k
  | some n =>
    have hn := close_alters (hk ⟨n, hd, rfl⟩)
    simpa [closeHandle, hd, Set.ofPred_eq_eq_singleton] using hn

theorem reset_alters (hm : m.owner = false) (hk : rowOf m.row ⊆ k.taken) :
    Alters k (k.reset m) (k.taken \ rowOf m.row) := by
  rw [rowOf_mapping] at hk ⊢
  have hunmap : Alters k (m.state.elim k k.munmap)
      (k.taken \ {r | ∃ a, m.state = some a ∧ r = .region a}) := by
    cases hs : m.state with
    | none => simpa using Alters.refl k
    | some a => simpa using munmap_alters (hk (.inr ⟨a, hs, rfl⟩))
  have hclose : Alters (m.state.elim k k.munmap)
      (m.descriptor.elim (m.state.elim k k.munmap) (m.state.elim k k.munmap).close)
      ((m.state.elim k k.munmap).taken \ {r | ∃ n, m.descriptor = some n ∧ r = .descriptor n}) := by
    cases hd : m.descriptor with
    | none => simpa using Alters.refl _
    | some n =>
      have hn : .descriptor n ∈ (m.state.elim k k.munmap).taken := by
        rw [hunmap.taken]
        exact ⟨hk (.inl ⟨n, hd, rfl⟩), by simp⟩
      simpa using close_alters hn
  have h := hunmap.trans hclose
  rw [hunmap.taken, Set.sdiff_sdiff] at h
  simp only [reset, hm, Bool.false_eq_true, false_and, if_false]
  convert h using 2
  ext r
  exact or_comm

theorem store_alters (f : SharedState → SharedState) (hk : rowOf m.row ⊆ k.taken) :
    Alters k (m.state.elim k fun a => k.change a f) k.taken := by
  cases hs : m.state with
  | none => exact .refl k
  | some a => exact change_alters f (hk ⟨.state, by simp [SharedMapping.row, hs]⟩)

theorem snapshot_eq (hk : rowOf m.row ⊆ k.taken) : k.snapshot m = k := by
  cases hs : m.state with
  | none => simp [snapshot, hs]
  | some a =>
    obtain ⟨state, he⟩ := load_eq (a := a) (hk ⟨.state, by simp [SharedMapping.row, hs]⟩)
    simp [snapshot, hs, he]

theorem release_alters (hm : m.owner = false) (hk : rowOf m.row ⊆ k.taken) :
    Alters k (k.release m) (k.taken \ rowOf m.row) := by
  have hstore := store_alters SharedState.release hk
  have h := hstore.trans (reset_alters hm (by rwa [hstore.taken]))
  rwa [hstore.taken] at h

theorem reset_empty (k : WatcherProcess) : k.reset {} = k := by
  simp [reset]

theorem destroySession_eq (k : WatcherProcess) (m : SharedMapping) :
    k.destroySession m = k.release m :=
  reset_empty _

theorem release_empty (k : WatcherProcess) : k.release {} = k := by
  simp [release, reset_empty]

/-- `k'` has taken what is in `row`, which was free. -/
structure Acquires (k k' : WatcherProcess) (row : Member → Option Resource) : Prop where
  free : ∀ l r, row l = some r → r ∉ k.taken
  once : ∀ l l' r, row l = some r → row l' = some r → l = l'
  alters : Alters k k' (k.taken ∪ rowOf row)

theorem Acquires.trans {row : Member → Option Resource} (h : Acquires k k₁ row)
    (h' : Alters k₁ k₂ k₁.taken) : Acquires k k₂ row where
  free := h.free
  once := h.once
  alters := by
    have hh := h.alters.trans h'
    rwa [h.alters.taken] at hh

theorem acquires_none (h : Alters k k₁ k.taken) : Acquires k k₁ fun _ => none where
  free _ _ hl := by cases hl
  once _ _ _ hl := by cases hl
  alters := by simpa [rowOf_none] using h

theorem openProcessMapping_acquires (k : WatcherProcess) (pid : UInt32) (o : OpenOutcome) :
    (∃ k₁, k.openProcessMapping pid o = (k₁, none) ∧ Alters k k₁ k.taken) ∨
      ∃ k₁ m a, k.openProcessMapping pid o = (k₁, some m) ∧ m.Borrowed ∧ m.state = some a ∧
        Acquires k k₁ m.row := by
  rcases k.shmOpen_alters (sharedMemoryName k.uid pid) o.shmOpen with
    ho | ⟨n, k₁, ho, hfree, halters⟩
  · exact .inl ⟨k, by simp [openProcessMapping, ho], .refl k⟩
  have hback : Alters k (k₁.close n) k.taken := by
    have h := halters.trans (close_alters (n := n) (by rw [halters.taken]; exact .inl rfl))
    rwa [halters.taken, Set.insert_sdiff_self_of_notMem hfree] at h
  by_cases hmeta : o.metadata = true
  case neg => exact .inl ⟨k₁.close n, by simp [openProcessMapping, ho, hmeta], hback⟩
  rcases k₁.mmap_alters n o.mmap with hmap | ⟨a, k₂, hmap, hfree', halters'⟩
  · exact .inl ⟨k₁.close n, by simp [openProcessMapping, ho, hmeta, hmap], hback⟩
  · refine .inr ⟨k₂, ⟨some a, some n, false, sharedMemoryName k.uid pid⟩, a,
      by simp [openProcessMapping, ho, hmeta, hmap], ⟨rfl, by simp⟩, rfl,
      fun l r hl => ?_, fun l l' r hl hl' => ?_, ?_⟩
    · cases l with
      | pidDescriptor => cases hl
      | descriptor =>
        obtain rfl : Resource.descriptor n = r := Option.some.inj hl
        exact hfree
      | state =>
        obtain rfl : Resource.region a = r := Option.some.inj hl
        rw [halters.taken] at hfree'
        exact fun hr => hfree' (.inr hr)
    · exact SharedMapping.row_once hl hl'
    · have h := halters.trans halters'
      rw [halters.taken] at h
      convert h using 1
      rw [rowOf_mapping]
      ext r
      simp [or_comm, or_left_comm, or_assoc]

theorem attachSession_acquires (k : WatcherProcess) (identity : ProcessIdentity)
    (o : OpenOutcome) :
    (∃ k₁, k.attachSession identity o = (k₁, none) ∧ Alters k k₁ k.taken) ∨
      ∃ k₁ m, k.attachSession identity o = (k₁, some m) ∧ m.Borrowed ∧ Acquires k k₁ m.row := by
  rcases k.openProcessMapping_acquires identity.pid o with
    ⟨k₁, ho, h⟩ | ⟨k₁, m, a, ho, hm, hs, h⟩
  · exact .inl ⟨k₁, by simp [attachSession, ho], h⟩
  have hrow : rowOf m.row ⊆ k₁.taken := by
    rw [h.alters.taken]
    exact Set.subset_union_right
  have ha : .region a ∈ k₁.taken := hrow ⟨.state, by simp [SharedMapping.row, hs]⟩
  obtain ⟨state, hload⟩ := load_eq ha
  by_cases hv : state.validState identity k₁.uid = true
  · refine .inr ⟨k₁.renewLease m k₁.clock, m, ?_, hm, h.free, h.once, ?_⟩
    · simp [attachSession, ho, hs, hload, hv, reset_empty, destroySession_eq, release_empty]
    · have hrenew := h.alters.trans (store_alters (·.renewLease k₁.clock) hrow)
      rwa [h.alters.taken] at hrenew
  · refine .inl ⟨k₁.reset m, by simp [attachSession, ho, hs, hload, hv], ?_⟩
    have hreset := h.alters.trans (reset_alters hm.1 hrow)
    rw [h.alters.taken, Set.union_sdiff_right] at hreset
    convert hreset using 1
    have hdisjoint : Disjoint k.taken (rowOf m.row) :=
      Set.disjoint_left.mpr fun r hr ⟨l, hl⟩ => h.free l r hl hr
    exact hdisjoint.sdiff_eq_left.symm

theorem attachHandle_acquires (k : WatcherProcess) (pid : UInt32) (startTicks : Option UInt64)
    (pidfdOpen : Option Nat) :
    k.attachHandle pid startTicks pidfdOpen = (k, none) ∨
      ∃ k₁ h, k.attachHandle pid startTicks pidfdOpen = (k₁, some h) ∧ Acquires k k₁ h.row := by
  cases startTicks with
  | none => exact .inl rfl
  | some startTicks =>
    rcases k.openFile_alters pidfdOpen (.process pid) with ho | ⟨n, k₁, ho, hfree, halters⟩
    · refine .inr ⟨k, ⟨⟨pid, startTicks⟩, none⟩, by simp [attachHandle, ho, closeHandle], ?_⟩
      convert acquires_none (.refl k) using 1
      funext l
      cases l <;> rfl
    · refine .inr ⟨k₁, ⟨⟨pid, startTicks⟩, some n⟩, by simp [attachHandle, ho, closeHandle],
        fun l r hl => ?_, fun l l' r hl hl' => ?_, ?_⟩
      · cases l with
        | pidDescriptor =>
          obtain rfl : Resource.descriptor n = r := Option.some.inj hl
          exact hfree
        | _ => cases hl
      · exact HandleObject.row_once hl hl'
      · convert halters using 1
        rw [rowOf_handle]
        ext r
        simp

end WatcherProcess

end Peepbooth
