import Peepbooth.OwnerEffects

/-! The variables of a watcher under any sequence of attachments, moves and destructions. -/

namespace Peepbooth

open Schedule

/-- What the session of an observer holds. -/
def sessionRow (t : Option SharedMapping) : Member → Option Resource := fun l => t.bind (·.row l)

theorem SharedMapping.row_empty : ({} : SharedMapping).row = fun _ => none := by
  funext l
  cases l <;> rfl

theorem sessionRow_emptied (t : Option SharedMapping) :
    sessionRow (t.map fun _ => {}) = fun _ => none := by
  funext l
  cases t <;> simp [sessionRow, SharedMapping.row_empty]

theorem HandleObject.row_closed (identity : ProcessIdentity) :
    HandleObject.row ⟨identity, none⟩ = fun _ => none := by
  funext l
  cases l <;> rfl

namespace Variable

open Holdings

variable {k : WatcherProcess} {x y : Variable}

def Borrowed (x : Variable) : Prop := ∀ m ∈ x.mapping, m.Borrowed

theorem row_movedFrom (x : Variable) : x.movedFrom.row = fun _ => none := by
  cases x with
  | handle h => exact HandleObject.row_closed _
  | session m => exact SharedMapping.row_empty
  | observer h t =>
    funext l
    simp only [movedFrom, row, HandleObject.row_closed, Option.none_or]
    exact congrFun (sessionRow_emptied t) l

theorem borrowed_movedFrom (x : Variable) : x.movedFrom.Borrowed := by
  cases x with
  | handle h => exact fun m hm => by cases hm
  | session m =>
    rintro m ⟨⟩
    exact SharedMapping.borrowed_empty
  | observer h t =>
    intro m hm
    obtain ⟨_, -, rfl⟩ := Option.map_eq_some_iff.mp hm
    exact SharedMapping.borrowed_empty

theorem rowOf_observer (h : HandleObject) (t : Option SharedMapping) :
    rowOf (observer h t).row = rowOf h.row ∪ rowOf (sessionRow t) := by
  ext r
  constructor
  · rintro ⟨l, hl⟩
    rcases Option.or_eq_some_iff.mp hl with hl | ⟨-, hl⟩
    · exact .inl ⟨l, hl⟩
    · exact .inr ⟨l, hl⟩
  · rintro (⟨l, hl⟩ | ⟨l, hl⟩)
    · exact ⟨l, by simp [row, hl]⟩
    · refine ⟨l, ?_⟩
      cases l with
      | pidDescriptor => cases t <;> cases hl
      | _ => exact hl

theorem assignSession_alters {t : Option SharedMapping} (t' : Option SharedMapping)
    (ht : ∀ m ∈ t, m.Borrowed) (hk : rowOf (sessionRow t) ⊆ k.taken) :
    ∃ k₁, k.assignSession t t' = (k₁, t', t'.map fun _ => {}) ∧
      k.Alters k₁ (k.taken \ rowOf (sessionRow t)) := by
  cases t with
  | none =>
    have hrow : rowOf (sessionRow none) = ∅ := rowOf_none
    exact ⟨k, by cases t' <;> rfl, by simpa [hrow] using WatcherProcess.Alters.refl k⟩
  | some m =>
    refine ⟨k.release m, ?_, WatcherProcess.release_alters (ht m rfl).1 hk⟩
    cases t' with
    | none => simp [WatcherProcess.assignSession, WatcherProcess.destroySession_eq]
    | some m' => rfl

theorem destroySession_alters {t : Option SharedMapping} (ht : ∀ m ∈ t, m.Borrowed)
    (hk : rowOf (sessionRow t) ⊆ k.taken) :
    k.Alters (t.elim k k.destroySession) (k.taken \ rowOf (sessionRow t)) := by
  obtain ⟨k₁, he, h⟩ := assignSession_alters none ht hk
  cases t with
  | none =>
    obtain rfl : k = k₁ := congrArg Prod.fst he
    exact h
  | some m =>
    obtain rfl : k.destroySession m = k₁ := congrArg Prod.fst he
    exact h

theorem apart_observer {h : HandleObject} {t : Option SharedMapping}
    (hone : ∀ l l' r, (observer h t).row l = some r → (observer h t).row l' = some r → l = l')
    {r : Resource} (hh : r ∈ rowOf h.row) : r ∉ rowOf (sessionRow t) := by
  obtain ⟨l, hl⟩ := hh
  rintro ⟨l', hl'⟩
  have hmem : (observer h t).row l = some r := by simp [row, hl]
  cases l' with
  | pidDescriptor => cases t <;> cases hl'
  | descriptor =>
    obtain rfl := hone l .descriptor r hmem hl'
    cases hl
  | state =>
    obtain rfl := hone l .state r hmem hl'
    cases hl

theorem destroy_alters (hx : x.Borrowed) (hk : rowOf x.row ⊆ k.taken)
    (hone : ∀ l l' r, x.row l = some r → x.row l' = some r → l = l') :
    k.Alters (x.destroy k) (k.taken \ rowOf x.row) := by
  cases x with
  | handle h => exact WatcherProcess.closeHandle_alters hk
  | session m =>
    rw [destroy, WatcherProcess.destroySession_eq]
    exact WatcherProcess.release_alters (hx m rfl).1 hk
  | observer h t =>
    rw [rowOf_observer] at hk ⊢
    have hsession := destroySession_alters (t := t) hx (Set.subset_union_right.trans hk)
    have hhandle : rowOf h.row ⊆ (t.elim k k.destroySession).taken := by
      rw [hsession.taken]
      exact Set.subset_sdiff.mpr ⟨Set.subset_union_left.trans hk,
        Set.disjoint_left.mpr fun _ => apart_observer hone⟩
    have hall := hsession.trans (WatcherProcess.closeHandle_alters hhandle)
    rw [hsession.taken, Set.sdiff_sdiff, Set.union_comm] at hall
    exact hall

/-- A move assignment gives back what the target has and hands on what the source has. -/
theorem moveAssign_alters (hx : x.Borrowed) (hk : rowOf x.row ⊆ k.taken)
    (hone : ∀ l l' r, x.row l = some r → x.row l' = some r → l = l') :
    moveAssign k x y = none ∨
      ∃ k₁, moveAssign k x y = some (k₁, y, y.movedFrom) ∧
        k.Alters k₁ (k.taken \ rowOf x.row) := by
  cases x <;> cases y
  case handle.handle h h' => exact .inr ⟨_, rfl, WatcherProcess.closeHandle_alters hk⟩
  case session.session m m' =>
    exact .inr ⟨_, rfl, WatcherProcess.release_alters (hx m rfl).1 hk⟩
  case observer.observer h t h' t' =>
    rw [rowOf_observer] at hk ⊢
    have hhandle := WatcherProcess.closeHandle_alters (Set.subset_union_left.trans hk)
    have hsession : rowOf (sessionRow t) ⊆ (k.closeHandle h).taken := by
      rw [hhandle.taken]
      exact Set.subset_sdiff.mpr
        ⟨Set.subset_union_right.trans hk, Set.disjoint_right.mpr fun _ => apart_observer hone⟩
    obtain ⟨k₁, he, h₁⟩ := assignSession_alters (t := t) t' hx hsession
    have hall := hhandle.trans h₁
    rw [hhandle.taken, Set.sdiff_sdiff] at hall
    exact .inr ⟨k₁, by simp [moveAssign, he, movedFrom], hall⟩
  all_goals exact .inl rfl

end Variable

namespace Watchers

open Holdings

variable {V : Type*} {s : Watchers V} {k : WatcherProcess} {v dest source : V}
  {x y : Variable} {n : Nat}

def rowAt (x : Option Variable) : Member → Option Resource := x.elim (fun _ => none) Variable.row

def holdings (s : Watchers V) : Holdings V Member Resource where
  held v := rowAt (s.var v)
  taken := s.process.taken

/-- Every descriptor and region is others' or held in one place, every close and every
access has met what it was meant for, and the names are as others have left them. -/
structure Kept (n : Nat) (s : Watchers V) : Prop where
  accounted : s.holdings.Accounted {r | s.others r = true}
  borrowed : ∀ v x, s.var v = some x → x.Borrowed
  faults : s.process.faults = n
  names : s.process.names = s.links

namespace Kept

theorem row_subset (h : Kept n s) (hv : s.var v = some x) : rowOf x.row ⊆ s.process.taken := by
  rintro r ⟨l, hl⟩
  exact h.accounted.mem_of_held (o := v) (m := l) (by simp [holdings, rowAt, hv, hl])

theorem row_once (h : Kept n s) (hv : s.var v = some x) (l l' : Member) (r : Resource)
    (hl : x.row l = some r) (hl' : x.row l' = some r) : l = l' :=
  (h.accounted.once v l v l' r (by simp [holdings, rowAt, hv, hl])
    (by simp [holdings, rowAt, hv, hl'])).2

theorem mapping_subset (h : Kept n s) {m : SharedMapping}
    (hm : (s.var v).bind Variable.mapping = some m) : rowOf m.row ⊆ s.process.taken := by
  obtain ⟨x, hv, hx⟩ := Option.bind_eq_some_iff.mp hm
  refine Set.Subset.trans ?_ (h.row_subset hv)
  cases x with
  | handle h => cases hx
  | session m' =>
    obtain rfl : m' = m := Option.some.inj hx
    exact subset_rfl
  | observer p t =>
    obtain rfl : t = some m := hx
    rw [Variable.rowOf_observer]
    exact Set.subset_union_right

/-- Nothing is taken, given back or moved. -/
theorem quiet (h : Kept n s) {k : WatcherProcess} (hk : s.process.Alters k s.process.taken) :
    Kept n { s with process := k } where
  accounted := by
    have hh := h.accounted
    rw [holdings, ← hk.taken] at hh
    exact hh
  borrowed := h.borrowed
  faults := hk.faults.trans h.faults
  names := hk.names.trans h.names

/-- The rest of the watcher takes something that is free. -/
theorem othersTake (h : Kept n s) {r : Resource} (hr : r ∉ s.process.taken)
    (hk : s.process.Alters k (insert r s.process.taken)) :
    Kept n { s with process := k, others := Function.update s.others r true } where
  accounted := by
    have hh := h.accounted.insert hr
    have hset : {q | Function.update s.others r true q = true} =
        insert r {q | s.others q = true} := by
      ext q
      by_cases hq : q = r <;> simp [hq]
    rw [hset]
    simp only [holdings, hk.taken]
    exact hh
  borrowed := h.borrowed
  faults := hk.faults.trans h.faults
  names := hk.names.trans h.names

theorem othersGiveBack (h : Kept n s) {r : Resource} (hr : s.others r = true)
    (hk : s.process.Alters k (s.process.taken \ {r})) :
    Kept n { s with process := k, others := Function.update s.others r false } where
  accounted := by
    have hh := h.accounted.remove hr
    have hset : {q | Function.update s.others r false q = true} =
        {q | s.others q = true} \ {r} := by
      ext q
      by_cases hq : q = r <;> simp [hq]
    rw [hset]
    simp only [holdings, hk.taken]
    exact hh
  borrowed := h.borrowed
  faults := hk.faults.trans h.faults
  names := hk.names.trans h.names

end Kept

/-- Before any of the variables is made. -/
def start (k : WatcherProcess) : Watchers V := ⟨k, fun _ => none, k.takes, k.names⟩

theorem kept_start (k : WatcherProcess) : Kept k.faults (start k : Watchers V) where
  accounted := accounted_empty k.taken
  borrowed v x hv := by cases hv
  faults := rfl
  names := rfl

variable [DecidableEq V]

theorem store_holdings (s : Watchers V) (v : V) (k : WatcherProcess) (x : Option Variable) :
    (s.store v k x).holdings = ⟨Function.update s.holdings.held v (rowAt x), k.taken⟩ := by
  have hheld : (fun w => rowAt (Function.update s.var v x w)) =
      Function.update s.holdings.held v (rowAt x) := by
    funext w
    by_cases hw : w = v
    · subst hw
      simp
    · simp [hw, holdings]
  simp only [holdings, store, hheld]

namespace Kept

theorem borrowed_store (h : Kept n s) {x : Option Variable} (hx : ∀ y ∈ x, y.Borrowed) :
    ∀ w y, (s.store v k x).var w = some y → y.Borrowed := by
  intro w y hw
  by_cases hv : w = v
  · subst hv
    exact hx y (by simpa [store] using hw)
  · exact h.borrowed w y (by simpa [store, hv] using hw)

theorem take (h : Kept n s) {row : Member → Option Resource} (hx : x.Borrowed)
    (hrow : x.row = fun l => (rowAt (s.var v) l).or (row l))
    (hplace : ∀ l r, row l = some r → rowAt (s.var v) l = none)
    (hk : s.process.Acquires k row) : Kept n (s.store v k (some x)) where
  accounted := by
    have hh := h.accounted.take (o := v) hplace hk.free hk.once
    rw [store_holdings, hk.alters.taken, show rowAt (some x) = _ from hrow]
    exact hh
  borrowed := h.borrowed_store fun y hy => by
    obtain rfl : x = y := Option.some.inj hy
    exact hx
  faults := hk.alters.faults.trans h.faults
  names := hk.alters.names.trans h.names

theorem giveBack (h : Kept n s) {x : Option Variable} (hx : ∀ y ∈ x, y.Borrowed)
    (hrow : rowAt x = fun _ => none)
    (hk : s.process.Alters k (s.process.taken \ rowOf (rowAt (s.var v)))) :
    Kept n (s.store v k x) where
  accounted := by
    rw [store_holdings, hk.taken, hrow]
    exact h.accounted.giveBack v
  borrowed := h.borrowed_store hx
  faults := hk.faults.trans h.faults
  names := hk.names.trans h.names

/-- A move from `source` to a variable that holds nothing. -/
theorem handOn (h : Kept n s) (hne : dest ≠ source) (hdest : rowAt (s.var dest) = fun _ => none)
    (hsource : s.var source = some x) (hx : y.row = x.row) (hy : y.Borrowed) :
    Kept n ((s.store source s.process (some x.movedFrom)).store dest s.process (some y)) where
  accounted := by
    have hh := h.accounted.handOn hne (fun l => congrFun hdest l)
    have hheld : s.holdings.held source = x.row := by simp [holdings, rowAt, hsource]
    rw [store_holdings, store_holdings]
    have hmoved : rowAt (some x.movedFrom) = fun _ => none := x.row_movedFrom
    have hrow : rowAt (some y) = s.holdings.held source := hx.trans hheld.symm
    rw [hmoved, hrow, Function.update_comm hne.symm]
    exact hh
  borrowed := by
    intro w z hw
    by_cases hd : w = dest
    · subst hd
      obtain rfl : y = z := by simpa [store] using hw
      exact hy
    · exact h.borrowed_store (k := s.process) (fun z hz => by
        obtain rfl : x.movedFrom = z := Option.some.inj hz
        exact x.borrowed_movedFrom) w z (by simpa [store, hd] using hw)
  faults := h.faults
  names := h.names

end Kept

namespace Kept

theorem attachHandle (h : Kept n s) (dest : V) (pid : UInt32) (startTicks : Option UInt64)
    (pidfdOpen : Option Nat) : Kept n (s.step (.attachHandle dest pid startTicks pidfdOpen)) := by
  simp only [step]
  split
  · next hdest =>
    rcases s.process.attachHandle_acquires pid startTicks pidfdOpen with he | ⟨k, p, he, hk⟩
    · rw [he]
      exact h.giveBack (x := none) (by simp) rfl (by simpa [hdest, rowAt] using .refl s.process)
    · rw [he]
      exact h.take (fun m hm => by cases hm) (by simp [hdest, rowAt, Variable.row])
        (by simp [hdest, rowAt]) hk
  · exact h

theorem attachSession (h : Kept n s) (dest : V) (identity : ProcessIdentity) (o : OpenOutcome) :
    Kept n (s.step (.attachSession dest identity o)) := by
  simp only [step]
  split
  · next hdest =>
    rcases s.process.attachSession_acquires identity o with ⟨k, he, hk⟩ | ⟨k, m, he, hm, hk⟩
    · rw [he]
      exact h.giveBack (x := none) (by simp) rfl (by simpa [hdest, rowAt] using hk)
    · rw [he]
      refine h.take (fun m' hm' => ?_) (by simp [hdest, rowAt, Variable.row])
        (by simp [hdest, rowAt]) hk
      obtain rfl : m = m' := Option.some.inj hm'
      exact hm
  · exact h

theorem row_of_invalid {p : HandleObject} {t : Option SharedMapping}
    (ht : (Variable.observer p t).Borrowed) (hi : t.any (·.state.isSome) = false) :
    sessionRow t = fun _ => none := by
  funext l
  cases t with
  | none => rfl
  | some m =>
    have hs : m.state = none := by simpa using hi
    have hd : m.descriptor = none := (ht m rfl).2 hs
    cases l <;> simp [sessionRow, SharedMapping.row, hs, hd]

theorem tryAttach (h : Kept n s) (v : V) (alive : Bool) (o : OpenOutcome) :
    Kept n (s.step (.tryAttach v alive o)) := by
  simp only [step]
  split
  case h_2 => exact h
  case h_1 p t hv =>
    split
    · exact h
    · next hi =>
      have hinvalid : t.any (·.state.isSome) = false := by
        cases ht : t.any (·.state.isSome) <;> simp_all
      have hb : (Variable.observer p t).Borrowed := h.borrowed v _ hv
      have hrow := row_of_invalid hb hinvalid
      have hold : rowAt (s.var v) = p.row := by
        rw [hv]
        funext l
        have hl := congrFun hrow l
        simp only [sessionRow] at hl
        simp [rowAt, Variable.row, hl]
      have hassign (k : WatcherProcess) (t' : Option SharedMapping) :
          ∃ k₁, k.assignSession t t' = (k₁, t', t'.map fun _ => {}) ∧ k.Alters k₁ k.taken := by
        obtain ⟨k₁, he, hk⟩ :=
          Variable.assignSession_alters (k := k) (t := t) t' hb (by simp [hrow])
        rw [hrow, rowOf_none, Set.sdiff_empty] at hk
        exact ⟨k₁, he, hk⟩
      rcases s.process.attachSession_acquires p.identity o with
        ⟨k, he, hk⟩ | ⟨k, m, he, hm, hk⟩
      · obtain ⟨k₁, hs, hk₁⟩ := hassign k none
        simp only [he, hs]
        rw [hk.taken] at hk₁
        refine h.take (fun m hm => by cases hm) ?_ (by simp)
          (WatcherProcess.acquires_none (hk.trans hk₁))
        simp [hold, Variable.row]
      · obtain ⟨k₁, hs, hk₁⟩ := hassign k (some m)
        simp only [he, hs]
        refine h.take (fun m' hm' => ?_) ?_ (fun l r hl => ?_) (hk.trans hk₁)
        · obtain rfl : m = m' := Option.some.inj hm'
          exact hm
        · simp [hold, Variable.row]
        · rw [hold]
          cases l with
          | pidDescriptor => cases hl
          | _ => rfl

theorem destroy (h : Kept n s) (v : V) : Kept n (s.step (.destroy v)) := by
  simp only [step]
  split
  · next x hv =>
    have hk := Variable.destroy_alters (h.borrowed v x hv) (h.row_subset hv) (h.row_once hv)
    exact h.giveBack (x := none) (by simp) rfl (by simpa [hv, rowAt] using hk)
  · exact h

theorem release (h : Kept n s) (v : V) : Kept n (s.step (.release v)) := by
  simp only [step]
  split
  · next m hv =>
    have hk := WatcherProcess.release_alters (h.borrowed v _ hv m rfl).1 (h.row_subset hv)
    refine h.giveBack (x := some (.session {})) ?_ SharedMapping.row_empty
      (by simpa [hv, rowAt, Variable.row] using hk)
    rintro _ ⟨⟩
    exact Variable.borrowed_movedFrom (.session {})
  · exact h

theorem observe (h : Kept n s) (dest source : V) : Kept n (s.step (.observe dest source)) := by
  simp only [step]
  split
  · next p hdest hsource =>
    refine h.handOn (fun he => ?_) (by simp [hdest, rowAt]) hsource ?_ (fun m hm => by cases hm)
    · subst he
      simp [hdest] at hsource
    · funext l
      simp [Variable.row]
  · exact h

theorem moveConstruct (h : Kept n s) (dest source : V) :
    Kept n (s.step (.moveConstruct dest source)) := by
  simp only [step]
  split
  · next x hdest hsource =>
    refine h.handOn (fun he => ?_) (by simp [hdest, rowAt]) hsource rfl
      (h.borrowed source x hsource)
    subst he
    simp [hdest] at hsource
  · exact h

theorem moveAssign (h : Kept n s) (dest source : V) :
    Kept n (s.step (.moveAssign dest source)) := by
  simp only [step]
  split
  case h_2 => exact h
  case h_1 x y hx hy =>
    split
    · exact h
    · next hne =>
      rcases Variable.moveAssign_alters (y := y) (h.borrowed dest x hx) (h.row_subset hx)
        (h.row_once hx) with he | ⟨k, he, hk⟩
      · rw [he]
        exact h
      · rw [he]
        have hback : Kept n (s.store dest k none) :=
          h.giveBack (by simp) rfl (by simpa [hx, rowAt] using hk)
        have hmove := hback.handOn (y := y) hne (by simp [store, rowAt])
          (by simpa [store, Ne.symm hne] using hy) rfl (h.borrowed source y hy)
        have hvar : Function.update (Function.update (Function.update s.var dest none) source
            (some y.movedFrom)) dest (some y) =
            Function.update (Function.update s.var source (some y.movedFrom)) dest (some y) := by
          rw [Function.update_comm hne, Function.update_idem]
        simp only [store] at hmove ⊢
        rwa [hvar] at hmove

theorem step (h : Kept n s) (call : WatcherCall V) : Kept n (s.step call) := by
  cases call with
  | attachHandle dest pid startTicks pidfdOpen => exact h.attachHandle dest pid startTicks pidfdOpen
  | attachSession dest identity o => exact h.attachSession dest identity o
  | observe dest source => exact h.observe dest source
  | tryAttach v alive o => exact h.tryAttach v alive o
  | moveConstruct dest source => exact h.moveConstruct dest source
  | moveAssign dest source => exact h.moveAssign dest source
  | release v => exact h.release v
  | destroy v => exact h.destroy v
  | constructSession dest =>
    simp only [Watchers.step]
    split
    · next hdest =>
      refine h.giveBack (x := some (.session {})) ?_ SharedMapping.row_empty
        (by simpa [hdest, rowAt] using .refl s.process)
      rintro _ ⟨⟩
      exact Variable.borrowed_movedFrom (.session {})
    · exact h
  | snapshot v =>
    simp only [Watchers.step]
    split
    · next m hm =>
      rw [WatcherProcess.snapshot_eq (h.mapping_subset hm)]
      exact h
    · exact h
  | renewLease v =>
    simp only [Watchers.step]
    split
    · next m hm => exact h.quiet (WatcherProcess.store_alters _ (h.mapping_subset hm))
    · exact h
  | othersOpen number =>
    simp only [Watchers.step]
    rcases s.process.openFile_alters (some number) .other with he | ⟨i, k, he, hfree, hk⟩
    · rw [he]
      exact h
    · have hi : i = number := by
        simp only [WatcherProcess.openFile] at he
        split at he <;> simp_all
      subst hi
      rw [he]
      exact h.othersTake hfree hk
  | othersMap a object =>
    simp only [Watchers.step]
    split
    · exact h
    · next ha =>
      refine h.othersTake ha ⟨Set.ext fun r => ?_, rfl, rfl⟩
      rw [WatcherProcess.mem_taken_regions]
      by_cases hr : r = .region a <;> simp [hr]
  | othersGiveBack r =>
    simp only [Watchers.step]
    split
    · next hr =>
      have htaken : r ∈ s.process.taken := (h.accounted.taken r).mpr (.inl hr)
      cases r with
      | descriptor i => exact h.othersGiveBack hr (WatcherProcess.close_alters htaken)
      | region a => exact h.othersGiveBack hr (WatcherProcess.munmap_alters htaken)
    · exact h
  | link name object =>
    exact ⟨h.accounted, h.borrowed, h.faults,
      congrArg (fun names : Text → Option Nat => Function.update names name object) h.names⟩
  | store object m => exact ⟨h.accounted, h.borrowed, h.faults, h.names⟩
  | tick now => exact ⟨h.accounted, h.borrowed, h.faults, h.names⟩

end Kept

/-- Whatever is attached, moved and destroyed in whatever order, and whatever numbers and
addresses the kernel gives out again: everything taken is held in one place or others', no
close, unmapping or access misses, and no name is touched. When the last variable is gone,
so is everything that was taken. -/
theorem watchers_accounted (k : WatcherProcess) (calls : List (WatcherCall V)) :
    Always Watchers.step (fun s => s.holdings.Accounted {r | s.others r = true} ∧
        s.process.faults = k.faults ∧ s.process.names = s.links) (start k) calls ∧
      ((∀ v, (run Watchers.step (start k) calls).var v = none) →
        (run Watchers.step (start k) calls).process.taken =
          {r | (run Watchers.step (start k) calls).others r = true}) := by
  have h := always_of_step (I := Kept k.faults) (fun _ call hs => hs.step call) (kept_start k)
    calls
  refine ⟨h.imp fun s hs => ⟨hs.accounted, hs.faults, hs.names⟩, fun hnone => ?_⟩
  exact h.last.accounted.taken_eq fun v l => by simp [holdings, rowAt, hnone]

end Watchers

end Peepbooth
