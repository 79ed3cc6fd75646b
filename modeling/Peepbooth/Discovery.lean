import Peepbooth.Startup

/-! Several clients in one process. They share the name that the process publishes its
shared memory under, and a client that stops unlinks the name, whoever has it by then. -/

namespace Peepbooth

open Schedule

/-- `client`: `state` is `state_`, `mapping` is that of its implementation. -/
structure ClientObject where
  state : Option Nat := none
  mapping : SharedMapping := {}

namespace ClientObject

def available (c : ClientObject) : Bool := c.state.isSome

end ClientObject

/-- The clients of one process that are alive. `admits` holds of the objects that have the
size of a shared state and belong to the user. -/
structure ClientProcess (ι : Type*) where
  kernel : Kernel
  admits : Nat → Bool
  client : ι → Option ClientObject

inductive ClientCall (ι : Type*)
  | construct (i : ι)
  | start (i : ι) (processName : Text) (startTicks : Option UInt64)
  | stop (i : ι)
  | destroy (i : ι)

/-- Every system call succeeds. What is read of the process may still be missing. -/
def Outcome.success (startTicks : Option UInt64) : Outcome :=
  ⟨true, true, true, true, true, some startTicks, true⟩

namespace ClientProcess

variable {ι : Type*} [DecidableEq ι]

/-- A client and the system, as its own calls see them. -/
def host (s : ClientProcess ι) (c : ClientObject) : Host := ⟨s.kernel, c.state, c.mapping⟩

def settle (s : ClientProcess ι) (i : ι) (h : Host) : ClientProcess ι :=
  { s with
    kernel := h.kernel
    client := Function.update s.client i (some ⟨h.state, h.mapping⟩) }

/-- The object of a client has been given the size of a shared state. -/
def grow (s : ClientProcess ι) (object : Option Nat) : ClientProcess ι :=
  { s with admits := object.elim s.admits (Function.update s.admits · true) }

/-- A call on a client that is not alive does nothing. -/
def step (s : ClientProcess ι) : ClientCall ι → ClientProcess ι
  | .construct i =>
    if (s.client i).isNone then { s with client := Function.update s.client i (some {}) } else s
  | .start i processName startTicks =>
    match s.client i with
    | none => s
    | some c =>
      let h := ((s.host c).start processName (.success startTicks)).1
      (s.settle i h).grow h.mapping.descriptor
  | .stop i =>
    match s.client i with
    | none => s
    | some c => s.settle i (s.host c).stop
  | .destroy i =>
    match s.client i with
    | none => s
    | some c =>
      let h := (s.host c).stop
      { s with
        kernel := h.kernel.reset h.mapping
        client := Function.update s.client i none }

/-- `open_process_mapping`: the object that it maps. -/
def openProcessMapping (s : ClientProcess ι) (pid : UInt32) : Option Nat :=
  (s.kernel.names (sharedMemoryName s.kernel.uid pid)).filter s.admits

def available (s : ClientProcess ι) (i : ι) : Bool := (s.client i).any (·.available)

/-- Every available client is the one that a watcher of the process finds. -/
def Discoverable (s : ClientProcess ι) : Prop :=
  ∀ i c, s.client i = some c → c.available = true →
    c.mapping.descriptor.isSome = true ∧
      s.openProcessMapping s.kernel.pid = c.mapping.descriptor

/-- The end of a client does not unlink the name of another one that is available. -/
def SparesOthers (s : ClientProcess ι) (call : ClientCall ι) : Prop :=
  ∀ i, call = .stop i ∨ call = .destroy i → ∀ j c, j ≠ i → s.client j = some c →
    c.available = true → s.kernel.names s.kernel.ownName = c.mapping.descriptor →
      (s.step call).kernel.names s.kernel.ownName = c.mapping.descriptor

/-- A start makes a mapping only where no other client is available. -/
def Sole (s : ClientProcess ι) : ClientCall ι → Prop
  | .start i _ _ =>
    ∀ c ∈ s.client i, c.available = false → ∀ j, j ≠ i → s.available j = false
  | _ => True

/-- What a client holds: nothing, or an object that it has made and the name. -/
def Holds (s : ClientProcess ι) (c : ClientObject) : Prop :=
  c = {} ∨ ∃ region descriptor, c = ⟨some region, ⟨some region, some descriptor, true,
    s.kernel.ownName⟩⟩ ∧ descriptor < s.kernel.next ∧ s.admits descriptor = true

/-- No two clients hold the same object. -/
structure Consistent (s : ClientProcess ι) : Prop where
  holds : ∀ i c, s.client i = some c → s.Holds c
  apart : ∀ i j c d, i ≠ j → s.client i = some c → s.client j = some d → c.available = true →
    d.available = true → c.mapping.descriptor ≠ d.mapping.descriptor

variable {s t : ClientProcess ι} {i : ι} {c : ClientObject} {call : ClientCall ι}
  {processName : Text} {startTicks : Option UInt64}

omit [DecidableEq ι] in
theorem Holds.eq_or (h : s.Holds c) :
    c = {} ∧ c.available = false ∨ c.available = true ∧ ∃ region descriptor,
      c = ⟨some region, ⟨some region, some descriptor, true, s.kernel.ownName⟩⟩ ∧
        descriptor < s.kernel.next ∧ s.admits descriptor = true := by
  rcases h with rfl | ⟨region, descriptor, rfl, hd, ha⟩
  · exact .inl ⟨rfl, rfl⟩
  · exact .inr ⟨rfl, region, descriptor, rfl, hd, ha⟩

omit [DecidableEq ι] in
theorem Holds.mono (h : s.Holds c) (hn : t.kernel.ownName = s.kernel.ownName)
    (hk : s.kernel.next ≤ t.kernel.next) (ha : ∀ object, s.admits object = true →
      t.admits object = true) : t.Holds c := by
  rcases h with rfl | ⟨region, descriptor, rfl, hd, had⟩
  · exact .inl rfl
  · exact .inr ⟨region, descriptor, by rw [hn], hd.trans_le hk, ha _ had⟩

/-- A start of a client that holds nothing makes a new object and gives it the name. -/
theorem step_start (hc : s.client i = some {}) (processName : Text)
    (startTicks : Option UInt64) :
    ∃ k' : Kernel, s.step (.start i processName startTicks) =
        { kernel := k'
          admits := Function.update s.admits s.kernel.next true
          client := Function.update s.client i (some ⟨some (s.kernel.next + 1),
            ⟨some (s.kernel.next + 1), some s.kernel.next, true, s.kernel.ownName⟩⟩) } ∧
      k'.pid = s.kernel.pid ∧ k'.uid = s.kernel.uid ∧ s.kernel.next < k'.next ∧
      k'.names s.kernel.ownName = some s.kernel.next := by
  have hacq : (Outcome.success startTicks).Acquires := ⟨rfl, rfl, rfl, rfl, rfl⟩
  have hcreate := s.kernel.create_of_acquires processName hacq
  refine ⟨s.kernel.acquired.write (s.kernel.next + 1) (SharedState.createProcessMapping
    s.kernel.pid s.kernel.uid startTicks processName), ?_, rfl, rfl, ?_, ?_⟩
  · have hstart : ((s.host {}).start processName (.success startTicks)).1 =
        { kernel := s.kernel.acquired.write (s.kernel.next + 1)
            (SharedState.createProcessMapping s.kernel.pid s.kernel.uid startTicks processName)
          state := some (s.kernel.next + 1)
          mapping := ⟨some (s.kernel.next + 1), some s.kernel.next, true, s.kernel.ownName⟩ } := by
      rw [Host.start, if_neg (by simp [host]), host, hcreate]
      rfl
    simp only [step, hc, hstart]
    rfl
  · exact Nat.lt_add_of_pos_right (Nat.succ_pos 1)
  · rw [Kernel.write_names, Kernel.acquired_names]

theorem step_start_available (h : s.Holds c) (hc : s.client i = some c)
    (ha : c.available = true) : s.step (.start i processName startTicks) = s := by
  have hs : c.state ≠ none := Option.isSome_iff_ne_none.mp ha
  have hstart : (s.host c).start processName (.success startTicks) = (s.host c, true) := if_pos hs
  have hsettle : s.settle i (s.host c) = s := by
    have he : s.settle i (s.host c) =
        { s with client := Function.update s.client i (some c) } := rfl
    rw [he, ← hc, Function.update_eq_self]
  have hgrow : s.grow c.mapping.descriptor = s := by
    rcases h.eq_or with ⟨-, hn⟩ | ⟨-, region, descriptor, rfl, -, had⟩
    · exact absurd ha (by simp [hn])
    · rw [grow, Option.elim_some, ← had, Function.update_eq_self]
  simp only [step, hc, hstart, hsettle]
  exact hgrow

/-- A client that stops or is destroyed takes the name away if it is available. -/
theorem step_end (h : s.Holds c) (hc : s.client i = some c)
    (hcall : call = .stop i ∨ call = .destroy i) :
    ∃ k' o, s.step call = { s with kernel := k', client := Function.update s.client i o } ∧
      (o = none ∨ o = some {}) ∧ k'.pid = s.kernel.pid ∧ k'.uid = s.kernel.uid ∧
      k'.next = s.kernel.next ∧ k'.names s.kernel.ownName =
        if c.available = true then none else s.kernel.names s.kernel.ownName := by
  have hstop : (s.host c).stop.mapping = {} ∧ (s.host c).stop.state = none := ⟨rfl, rfl⟩
  have hk : (s.host c).stop.kernel.pid = s.kernel.pid ∧
      (s.host c).stop.kernel.uid = s.kernel.uid ∧
      (s.host c).stop.kernel.next = s.kernel.next ∧
      (s.host c).stop.kernel.names s.kernel.ownName =
        if c.available = true then none else s.kernel.names s.kernel.ownName := by
    rcases h.eq_or with ⟨rfl, -⟩ | ⟨-, region, descriptor, rfl, -⟩
    · exact ⟨rfl, rfl, rfl, rfl⟩
    · have hown := s.kernel.ownName_ne_nil
      simp [Host.stop, host, Kernel.reset, hown, Kernel.shmUnlink, Kernel.close, Kernel.munmap,
        Kernel.write, ClientObject.available]
  rcases hcall with rfl | rfl
  · refine ⟨(s.host c).stop.kernel, some {}, ?_, .inr rfl, hk⟩
    simp only [step, hc]
    rfl
  · refine ⟨(s.host c).stop.kernel, none, ?_, .inl rfl, hk⟩
    simp only [step, hc]
    rfl

theorem of_update {f : ι → Option ClientObject} {o : Option ClientObject} {j : ι}
    (h : Function.update f i o j = some c) : j = i ∧ o = some c ∨ j ≠ i ∧ f j = some c := by
  by_cases hj : j = i
  · subst hj
    rw [Function.update_self] at h
    exact .inl ⟨rfl, h⟩
  · rw [Function.update_of_ne hj] at h
    exact .inr ⟨hj, h⟩

theorem available_of_update {f : ι → Option ClientObject} {o : Option ClientObject} {j : ι}
    (ho : o = none ∨ o = some {}) (h : Function.update f i o j = some c)
    (ha : c.available = true) : j ≠ i ∧ f j = some c := by
  rcases of_update h with ⟨-, hc⟩ | hc
  · rcases ho with rfl | rfl
    · cases hc
    · cases hc
      cases ha
  · exact hc

theorem Consistent.update (h : Consistent s) {o : Option ClientObject}
    (ho : o = none ∨ o = some {}) {k : Kernel} (hn : k.ownName = s.kernel.ownName)
    (hk : k.next = s.kernel.next) :
    Consistent { s with kernel := k, client := Function.update s.client i o } where
  holds j c hc := by
    rcases of_update hc with ⟨-, hc⟩ | ⟨-, hc⟩
    · rcases ho with rfl | rfl
      · cases hc
      · cases hc
        exact .inl rfl
    · exact (h.holds j c hc).mono hn (Nat.le_of_eq hk.symm) fun _ => id
  apart j l c d hjl hc hd ha hb := by
    have hc' := available_of_update ho hc ha
    have hd' := available_of_update ho hd hb
    exact h.apart j l c d hjl hc'.2 hd'.2 ha hb

theorem Consistent.create (h : Consistent s) {k : Kernel} {region : Nat}
    (hn : k.ownName = s.kernel.ownName) (hk : s.kernel.next < k.next) :
    Consistent { kernel := k
                 admits := Function.update s.admits s.kernel.next true
                 client := Function.update s.client i (some ⟨some region,
                  ⟨some region, some s.kernel.next, true, s.kernel.ownName⟩⟩) } := by
  have hadmits (object : Nat) (ha : s.admits object = true) :
      Function.update s.admits s.kernel.next true object = true := by
    rw [Function.update_apply]
    split
    · rfl
    · exact ha
  have hne (j : ι) (c : ClientObject) (hc : s.client j = some c) :
      some s.kernel.next ≠ c.mapping.descriptor := by
    rcases (h.holds j c hc).eq_or with ⟨rfl, -⟩ | ⟨-, _, descriptor, rfl, hd, -⟩
    · simp
    · exact fun he => absurd hd (by rw [Option.some.inj he]; exact lt_irrefl _)
  refine ⟨fun j c hc => ?_, fun j l c d hjl hc hd ha hb => ?_⟩
  · rcases of_update hc with ⟨-, hc⟩ | ⟨-, hc⟩
    · refine .inr ⟨region, s.kernel.next, ?_, hk, Function.update_self ..⟩
      rw [← Option.some.inj hc, hn]
    · exact (h.holds j c hc).mono hn hk.le hadmits
  · rcases of_update hc with ⟨hj, hc'⟩ | ⟨hj, hc'⟩ <;>
      rcases of_update hd with ⟨hl, hd'⟩ | ⟨hl, hd'⟩
    · exact absurd (hj.trans hl.symm) hjl
    · rw [← Option.some.inj hc']
      exact hne l d hd'
    · rw [← Option.some.inj hd']
      exact (hne j c hc').symm
    · exact h.apart j l c d hjl hc' hd' ha hb

theorem Consistent.step (h : Consistent s) (call : ClientCall ι) : Consistent (s.step call) := by
  have hend (i : ι) (call : ClientCall ι) (hcall : call = .stop i ∨ call = .destroy i) :
      Consistent (s.step call) := by
    cases hc : s.client i with
    | none =>
      have hs : s.step call = s := by
        rcases hcall with rfl | rfl <;> simp only [ClientProcess.step, hc]
      rwa [hs]
    | some c =>
      obtain ⟨k', o, hs, ho, hp, hu, hn, -⟩ := step_end (h.holds i c hc) hc hcall
      rw [hs]
      exact h.update ho (by rw [Kernel.ownName, hp, hu]; rfl) hn
  cases call with
  | construct i =>
    simp only [ClientProcess.step]
    split
    · exact h.update (.inr rfl) rfl rfl
    · exact h
  | stop i => exact hend i _ (.inl rfl)
  | destroy i => exact hend i _ (.inr rfl)
  | start i processName startTicks =>
    cases hc : s.client i with
    | none =>
      have hs : s.step (.start i processName startTicks) = s := by
        simp only [ClientProcess.step, hc]
      rwa [hs]
    | some c =>
      rcases (h.holds i c hc).eq_or with ⟨rfl, -⟩ | ⟨ha, -⟩
      · obtain ⟨k', hs, hp, hu, hn, -⟩ :=
          step_start hc processName startTicks
        rw [hs]
        exact h.create (by rw [Kernel.ownName, hp, hu]; rfl) hn
      · rwa [step_start_available (h.holds i c hc) hc ha]

omit [DecidableEq ι] in
theorem Discoverable.sole (h : Discoverable s) (hs : Consistent s) (hc : s.client i = some c)
    (ha : c.available = true) {j : ι} {d : ClientObject} (hj : j ≠ i)
    (hd : s.client j = some d) : d.available = false := by
  by_contra hb
  rw [Bool.not_eq_false] at hb
  exact hs.apart j i d c hj hd hc hb ha ((h j d hd hb).2.symm.trans (h i c hc ha).2)

/-- After the end of a client the others are found as before, and none has lost its name. -/
theorem Discoverable.end (h : Discoverable s) (hs : Consistent s)
    (hcall : call = .stop i ∨ call = .destroy i) :
    Discoverable (s.step call) ∧ SparesOthers s call := by
  have hother : ∀ {k}, call = .stop k ∨ call = .destroy k → k = i := by
    rintro k (rfl | rfl) <;> rcases hcall with hcall | hcall <;> cases hcall <;> rfl
  cases hc : s.client i with
  | none =>
    have hstep : s.step call = s := by
      rcases hcall with rfl | rfl <;> simp only [ClientProcess.step, hc]
    rw [SparesOthers, hstep]
    exact ⟨h, fun _ _ _ _ _ _ _ hn => hn⟩
  | some c =>
    obtain ⟨k', o, hstep, ho, hp, hu, -, hn⟩ := step_end (hs.holds i c hc) hc hcall
    have hown : k'.ownName = s.kernel.ownName := by rw [Kernel.ownName, hp, hu]; rfl
    rw [SparesOthers, hstep]
    -- an available client is found, so that no other one is available beside it
    have hkept (j : ι) (d : ClientObject) (hj : j ≠ i) (hd : s.client j = some d)
        (hb : d.available = true) :
        k'.names s.kernel.ownName = s.kernel.names s.kernel.ownName := by
      have hf : c.available = false := h.sole hs hd hb (Ne.symm hj) hc
      rw [hn, if_neg (by simp [hf])]
    refine ⟨fun j d hd hb => ?_, fun l hl j d hj hd hb hname => ?_⟩
    · obtain ⟨hj, hd'⟩ := available_of_update ho hd hb
      refine ⟨(h j d hd' hb).1, Eq.trans ?_ (h j d hd' hb).2⟩
      exact congrArg (Option.filter s.admits)
        ((congrArg k'.names hown).trans (hkept j d hj hd' hb))
    · rw [hother hl] at hj
      exact (hkept j d hj hd hb).trans hname

theorem Discoverable.start_iff (h : Discoverable s) (hs : Consistent s) :
    Discoverable (s.step (.start i processName startTicks)) ↔
      Sole s (.start i processName startTicks) := by
  cases hc : s.client i with
  | none =>
    have hstep : s.step (.start i processName startTicks) = s := by
      simp only [ClientProcess.step, hc]
    rw [hstep]
    exact iff_of_true h fun c hm => by cases hc.symm.trans hm
  | some c =>
    rcases (hs.holds i c hc).eq_or with ⟨rfl, hf⟩ | ⟨ha, -⟩
    · obtain ⟨k', hstep, hp, hu, hk, hn⟩ :=
        step_start hc processName startTicks
      have hopen : (s.step (.start i processName startTicks)).openProcessMapping
          (s.step (.start i processName startTicks)).kernel.pid = some s.kernel.next := by
        have hname : sharedMemoryName k'.uid k'.pid = s.kernel.ownName := by rw [hp, hu]; rfl
        simp [hstep, openProcessMapping, hname, hn]
      rw [Discoverable, hopen, hstep]
      constructor
      · intro hd c' _ _ j hj
        -- the object of another client is an older one
        by_contra hb
        rw [Bool.not_eq_false, available, Option.any_eq_true] at hb
        obtain ⟨d, hdj, hb⟩ := hb
        have he := (hd j d ((Function.update_of_ne hj _ _).trans hdj) hb).2
        rcases (hs.holds j d hdj).eq_or with ⟨-, hf⟩ | ⟨-, region, descriptor, rfl, hlt, -⟩
        · exact absurd hb (by simp [hf])
        · exact absurd hlt (by rw [← Option.some.inj he]; exact lt_irrefl _)
      · intro hsole j d hd hb
        rcases of_update hd with ⟨-, hd'⟩ | ⟨hj, hd'⟩
        · rw [← Option.some.inj hd']
          exact ⟨rfl, rfl⟩
        · have hav := hsole {} hc hf j hj
          rw [available, hd', Option.any_some, hb] at hav
          cases hav
    · rw [step_start_available (hs.holds i c hc) hc ha]
      refine iff_of_true h fun c' hm hf => ?_
      cases hc.symm.trans hm
      exact absurd ha (by simp [hf])

theorem Discoverable.step_iff (h : Discoverable s) (hs : Consistent s) (call : ClientCall ι) :
    Discoverable (s.step call) ↔ Sole s call := by
  cases call with
  | start i processName startTicks => exact h.start_iff hs
  | stop i => exact iff_of_true (h.end hs (.inl rfl)).1 trivial
  | destroy i => exact iff_of_true (h.end hs (.inr rfl)).1 trivial
  | construct i =>
    refine iff_of_true ?_ trivial
    simp only [ClientProcess.step]
    split
    · exact fun j d hd hb => h j d (available_of_update (.inr rfl) hd hb).2 hb
    · exact h

theorem Discoverable.spares (h : Discoverable s) (hs : Consistent s) (call : ClientCall ι) :
    SparesOthers s call := by
  intro i hcall
  exact (h.end hs hcall).2 i hcall

/-- A process whose clients have yet to be constructed, whatever is linked. -/
def launched (ι : Type*) (pid uid : UInt32) (names : Text → Option Nat)
    (memory : Nat → SharedState) (next : Nat) (admits : Nat → Bool) : ClientProcess ι where
  kernel := { pid := pid, uid := uid, names := names, memory := memory, next := next }
  admits := admits
  client _ := none

/-- Every available client stays the one that a watcher finds, and no end of a client
unlinks the name of another, just in the runs where no start makes a mapping while
another client of the process is available. -/
theorem available_client_found_iff (pid uid : UInt32) (names : Text → Option Nat)
    (memory : Nat → SharedState) (next : Nat) (admits : Nat → Bool) (calls : List (ClientCall ι)) :
    Always step Discoverable (launched ι pid uid names memory next admits) calls ∧
        Permits step SparesOthers (launched ι pid uid names memory next admits) calls ↔
      Permits step Sole (launched ι pid uid names memory next admits) calls := by
  have hs : Consistent (launched ι pid uid names memory next admits) :=
    ⟨fun _ _ h => (by cases h), fun _ _ _ _ _ h => (by cases h)⟩
  have hd : Discoverable (launched ι pid uid names memory next admits) :=
    fun _ _ h => by cases h
  have hiff : Always step Discoverable (launched ι pid uid names memory next admits) calls ↔
      Permits step Sole (launched ι pid uid names memory next admits) calls :=
    always_iff_permits (fun _ call h => h.step call) (fun _ call h h' => h'.step_iff h call) hs hd
  refine ⟨fun h => hiff.mp h.1, fun h => ⟨hiff.mpr h, ?_⟩⟩
  have hall := (always_of_step (fun _ call h => h.step call) hs calls).and (hiff.mpr h)
  exact (permits_of_always hall).imp fun _ call h => h.1.2.spares h.1.1 call

/-- A second client starts while the first one is available, and then the first one stops. -/
def displaced : List (ClientCall (Fin 2)) :=
  [.construct 0, .construct 1, .start 0 (text "a") none, .start 1 (text "b") none]

theorem available_client_lost :
    let s := launched (Fin 2) 7 1000 (fun _ => none) (fun _ => {}) 3 (fun _ => false)
    ¬Always step Discoverable s displaced ∧
      ¬Permits step SparesOthers s (displaced ++ [.stop 0]) ∧
      let t := run step s (displaced ++ [.stop 0])
      t.available 1 = true ∧ t.openProcessMapping 7 = none := by
  intro s
  have hopen : (run step s displaced).openProcessMapping 7 = some 5 := by decide +kernel
  have hname : (run step s displaced).kernel.names (sharedMemoryName 1000 7) = some 5 := by
    decide +kernel
  have hgone : (run step s (displaced ++ [.stop 0])).kernel.names (sharedMemoryName 1000 7) =
      none := by decide +kernel
  refine ⟨fun h => ?_, fun h => ?_, rfl, by decide +kernel⟩
  · have hfirst : (run step s displaced).openProcessMapping 7 = some 3 := (h.last 0 _ rfl rfl).2
    exact absurd (hopen.symm.trans hfirst) (by decide)
  · have hspares := (permits_append.mp h).2.1
    have hsecond : (run step s (displaced ++ [.stop 0])).kernel.names
        (sharedMemoryName 1000 7) = some 5 :=
      hspares 0 (.inl rfl) 1 _ (by decide) rfl rfl hname
    exact absurd (hgone.symm.trans hsecond) (by decide)

end ClientProcess

end Peepbooth
