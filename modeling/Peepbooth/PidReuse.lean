import Peepbooth.Incarnations

/-! What a watcher that polls a pid can take for another incarnation's: nothing,
however often the pid changes hands between two of its accesses. -/

namespace Peepbooth

open Schedule ReadProgram

/-- If the observation counts as sampled, all that it shows is of `x`. -/
def Observed.Of (m : Machine) (x : ProcessIdentity) (v : Observed) : Prop :=
  v.observation.status = .sampled →
    ∃ i sample, v.source = some i ∧ (m.objects i).filler = x ∧
      v.observation.sample = some sample ∧ sample.identity = x ∧
      sample.memoryOwner = x ∧ sample.cpuOwner = x

/-- What the watcher carries from one access to the next is of the incarnation
in its handle. -/
def Watching.Of (m : Machine) (process : ProcessHandle) (descriptor : Option ProcessIdentity) :
    Watching → Prop
  | .idle | .identified _ => False
  | .ready | .checking _ | .opening | .validating _ => True
  | .stamping i | .clearPresent i | .clearLease i => (m.objects i).filler = process.identity
  | .polling i p => (m.objects i).filler = process.identity ∧
      Safe (reuse process descriptor i) (fun r _ => OfIncarnation process.identity r) p m
  | .storeLease i _ poll | .storePresent i poll => (m.objects i).filler = process.identity ∧
      ∀ r, poll = some r → OfIncarnation process.identity r

section Machines

variable {m : Machine} {x : ProcessIdentity} {process : ProcessHandle}
  {descriptor : Option ProcessIdentity} {e : MachineEvent}

theorem Observed.Of.step {v : Observed} (h : v.Of m x) : v.Of (m.step e) x := fun hv => by
  obtain ⟨i, sample, hi, hf, hh⟩ := h hv
  exact ⟨i, sample, hi, (m.step_filler e i).trans hf, hh⟩

theorem Watching.Of.step {w : Watching} (h : w.Of m process descriptor) :
    w.Of (m.step e) process descriptor := by
  cases w with
  | idle => exact h
  | identified y => exact h
  | ready => trivial
  | checking p => trivial
  | opening => trivial
  | validating i => trivial
  | stamping i => exact (m.step_filler e i).trans h
  | clearPresent i => exact (m.step_filler e i).trans h
  | clearLease i => exact (m.step_filler e i).trans h
  | polling i p =>
    exact ⟨(m.step_filler e i).trans h.1, h.2.trans fun _ => Machine.step_ended e⟩
  | storeLease i deadline poll => exact ⟨(m.step_filler e i).trans h.1, h.2⟩
  | storePresent i poll => exact ⟨(m.step_filler e i).trans h.1, h.2⟩

end Machines

namespace Watch

variable {s : Watch} {o : ObservedProcess} {x : ProcessIdentity} {i : Nat}

/-- The watcher before it has a handle. -/
structure Unwatched (s : Watch) : Prop where
  session : s.session = none
  observed : s.observed = []
  written : s.written = []
  seen : ∀ x, s.watching = .identified x → s.Seen x

/-- What the watcher has of the incarnation `x` in its handle is of `x`. -/
structure Keeps (s : Watch) (x : ProcessIdentity) : Prop where
  interval : s.OneInterval
  seen : s.Seen x
  session : ∀ i, s.session = some i → (s.objects i).filler = x
  observed : ∀ v ∈ s.observed, v.Of s.toMachine x
  written : ∀ i ∈ s.written, (s.objects i).filler = x

def Sound (s : Watch) : Prop :=
  match s.observer with
  | none => s.OneInterval ∧ s.Unwatched
  | some o => s.Keeps o.process.identity ∧ s.watching.Of s.toMachine o.process s.descriptor

theorem Sound.of_none (ho : s.observer = none) (h : s.OneInterval) (hs : s.Unwatched) :
    s.Sound := by
  rw [Sound, ho]
  exact ⟨h, hs⟩

theorem Sound.of_some (ho : s.observer = some o) (h : s.Keeps o.process.identity)
    (hw : s.watching.Of s.toMachine o.process s.descriptor) : s.Sound := by
  rw [Sound, ho]
  exact ⟨h, hw⟩

theorem Sound.unwatched (h : s.Sound) (ho : s.observer = none) : s.OneInterval ∧ s.Unwatched := by
  rwa [Sound, ho] at h

theorem Sound.owns (h : s.Sound) (ho : s.observer = some o) : s.Keeps o.process.identity ∧
    s.watching.Of s.toMachine o.process s.descriptor := by
  rwa [Sound, ho] at h

theorem Sound.machine (h : s.Sound) (e : MachineEvent) : (s.step (.machine e)).Sound := by
  have hfill : ∀ i, ((s.step (.machine e)).objects i).filler = (s.objects i).filler :=
    s.step_filler e
  cases ho : s.observer with
  | none =>
    obtain ⟨h, hs⟩ := h.unwatched ho
    exact .of_none ho (h.step e)
      ⟨hs.session, hs.observed, hs.written, fun x hx => (hs.seen x hx).step e⟩
  | some o =>
    obtain ⟨h, hw⟩ := h.owns ho
    exact .of_some ho
      ⟨h.interval.step e, h.seen.step e, fun i hi => (hfill i).trans (h.session i hi),
        fun v hv => (h.observed v hv).step, fun i hi => (hfill i).trans (h.written i hi)⟩ hw.step

theorem store_filler (j : Nat) (leaseUntilNs : UInt64) (present : UInt32) :
    ((s.store i leaseUntilNs present).objects j).filler = (s.objects j).filler := by
  by_cases hj : j = i <;> simp [store, Machine.setObject, SharedObject.setLease, hj]

theorem Keeps.store (h : s.Keeps x) (hi : (s.objects i).filler = x) (leaseUntilNs : UInt64)
    (present : UInt32) : (s.store i leaseUntilNs present).Keeps x where
  interval := h.interval
  seen := h.seen
  session j hj := (store_filler j leaseUntilNs present).trans (h.session j hj)
  observed v hv hst := by
    obtain ⟨j, sample, hj, hf, hh⟩ := h.observed v hv hst
    exact ⟨j, sample, hj, (store_filler j leaseUntilNs present).trans hf, hh⟩
  written j hj := by
    refine (store_filler j leaseUntilNs present).trans ?_
    rcases List.mem_append.mp hj with hj | hj
    · exact h.written j hj
    · rwa [List.mem_singleton.mp hj]

theorem Keeps.record (h : s.Keeps x) {source : Option Nat}
    (hv : Observed.Of s.toMachine x ⟨source, o.latest⟩) : (s.record source o).Keeps x where
  interval := h.interval
  seen := h.seen
  session := h.session
  observed v hmem := by
    rcases List.mem_append.mp hmem with hmem | hmem
    · exact h.observed v hmem
    · rwa [List.mem_singleton.mp hmem]
  written := h.written

theorem Keeps.watching (h : s.Keeps x) (w : Watching) : { s with watching := w }.Keeps x :=
  ⟨h.interval, h.seen, h.session, h.observed, h.written⟩

theorem conclude_of {m : Machine} {r : PollReads} (hi : (m.objects i).filler = o.process.identity)
    (hr : OfIncarnation o.process.identity r) :
    Observed.Of m o.process.identity ⟨some i, (o.conclude r).latest⟩ := fun hst => by
  obtain ⟨-, sample, hs, hid, hl, -⟩ := ObservedProcess.conclude_sampled hst
  exact ⟨i, sample, rfl, hi, hl, hid, hr sample hs hid⟩

theorem Keeps.concluded {r : PollReads} (h : s.Keeps o.process.identity)
    (hi : (s.objects i).filler = o.process.identity) (hr : OfIncarnation o.process.identity r) :
    (s.record (some i) (o.conclude r)).Sound := by
  refine .of_some rfl ?_ trivial
  rw [ObservedProcess.conclude_process]
  exact h.record (conclude_of hi hr)

theorem Sound.stepOwner (h : s.Sound) (ho : s.observer = some o) (granted : Bool) :
    (s.stepOwner o granted).Sound := by
  obtain ⟨hk, hw⟩ := h.owns ho
  cases hs : s.watching with
  | idle => rw [hs] at hw; exact hw.elim
  | identified y => rw [hs] at hw; exact hw.elim
  | ready => simpa only [Watch.stepOwner, hs] using h
  | checking p =>
    cases p with
    | done isAlive =>
      simp only [Watch.stepOwner, hs]
      exact .of_some ho (hk.watching _) (by cases isAlive <;> trivial)
    | load place next =>
      simp only [Watch.stepOwner, hs]
      exact .of_some ho (hk.watching _) trivial
  | opening =>
    simp only [Watch.stepOwner, hs]
    split
    · exact .of_some ho (hk.watching _) trivial
    · exact .of_some ho (hk.watching _) trivial
  | validating i =>
    simp only [Watch.stepOwner, hs]
    split
    · next hv => exact .of_some ho (hk.watching _) ((s.objects i).carries _ _ hv).symm
    · exact .of_some ho (hk.watching _) trivial
  | stamping i =>
    rw [hs] at hw
    simp only [Watch.stepOwner, hs]
    exact .of_some ho (hk.watching _) ⟨hw, fun _ hr => (nomatch hr)⟩
  | polling i p =>
    rw [hs] at hw
    cases p with
    | done r =>
      have hr := hw.2.result ⟨hk.interval, hk.seen⟩
      simp only [Watch.stepOwner, hs]
      split
      · exact .of_some ho (hk.watching _) ⟨hw.1, fun _ he => Option.some.inj he ▸ hr⟩
      · exact hk.concluded hw.1 hr
    | load place next =>
      simp only [Watch.stepOwner, hs]
      exact .of_some ho (hk.watching _) ⟨hw.1, hw.2.load ⟨hk.interval, hk.seen⟩ trivial⟩
  | storeLease i deadline poll =>
    rw [hs] at hw
    simp only [Watch.stepOwner, hs]
    exact .of_some ho ((hk.store hw.1 _ _).watching _) ⟨(store_filler i _ _).trans hw.1, hw.2⟩
  | storePresent i poll =>
    rw [hs] at hw
    have hstored := hk.store hw.1 (s.objects i).mem.watcherLeaseUntilNs 1
    have hi : ((s.store i (s.objects i).mem.watcherLeaseUntilNs 1).objects i).filler =
        o.process.identity := (store_filler i _ _).trans hw.1
    cases poll with
    | none =>
      simp only [Watch.stepOwner, hs]
      refine .of_some rfl ⟨hstored.interval, hstored.seen, fun j hj => ?_, hstored.observed,
        hstored.written⟩ trivial
      rwa [← Option.some.inj hj]
    | some r =>
      simp only [Watch.stepOwner, hs]
      exact hstored.concluded hi (hw.2 r rfl)
  | clearPresent i =>
    rw [hs] at hw
    simp only [Watch.stepOwner, hs]
    exact .of_some ho ((hk.store hw _ _).watching _) ((store_filler i _ _).trans hw)
  | clearLease i =>
    rw [hs] at hw
    have hstored := hk.store hw 0 (s.objects i).mem.watcherPresent
    simp only [Watch.stepOwner, hs]
    exact .of_some rfl ⟨hstored.interval, hstored.seen, fun _ hj => (nomatch hj),
      hstored.observed, hstored.written⟩ trivial

theorem Sound.begin (h : s.Sound) {operation : ObservedProcess → Watch}
    (hop : ∀ o, s.observer = some o → s.Keeps o.process.identity → s.watching = .ready →
      (operation o).Sound) : (s.begin operation).Sound := by
  rw [Watch.begin]
  split
  · next o hs ho => exact hop o ho (h.owns ho).1 hs
  · exact h

theorem Sound.step (h : s.Sound) (e : WatchEvent) : (s.step e).Sound := by
  cases e with
  | machine e => exact h.machine e
  | attach pid =>
    rw [Watch.step]
    split
    · next values hs hv =>
      cases ho : s.observer with
      | some o =>
        have hw := (h.owns ho).2
        rw [hs] at hw
        exact hw.elim
      | none =>
        obtain ⟨h, hu⟩ := h.unwatched ho
        refine .of_none rfl h ⟨hu.session, hu.observed, hu.written, fun x hx => ?_⟩
        cases hx
        exact .inl (Machine.holds_of_stat (x := ⟨pid, values.startTicks⟩) hv rfl).1
    · exact h
  | tryAttach =>
    refine h.begin fun o ho hk _ => ?_
    split
    · exact h
    · exact .of_some ho (hk.watching _) trivial
  | poll =>
    refine h.begin fun o ho hk _ => ?_
    split
    · next i hi =>
      exact .of_some ho (hk.watching _)
        ⟨hk.session i hi, pollReads_ofIncarnation ⟨hk.interval, hk.seen⟩⟩
    · exact .of_some rfl (hk.record fun hst => (nomatch hst)) trivial
  | release =>
    refine h.begin fun o ho hk _ => ?_
    split
    · next i hi => exact .of_some ho (hk.watching _) (hk.session i hi)
    · exact h
  | watcher granted =>
    rw [Watch.step]
    split
    · next x hs =>
      cases ho : s.observer with
      | some o =>
        have hw := (h.owns ho).2
        rw [hs] at hw
        exact hw.elim
      | none =>
        obtain ⟨h, hu⟩ := h.unwatched ho
        refine .of_some rfl ⟨h, hu.seen x hs, ?_, ?_, ?_⟩ trivial
        · exact fun _ hj => (nomatch hu.session.symm.trans hj)
        · exact fun v hv => (by rw [hu.observed] at hv; cases hv)
        · exact fun j hj => (by rw [hu.written] at hj; cases hj)
    · next o ho _ => exact h.stepOwner ho granted
    · exact h

theorem stepOwner_subject (ho : s.observer = some o) (granted : Bool) :
    (s.stepOwner o granted).subject = some o.process.identity := by
  have hsame : s.subject = some o.process.identity := by rw [subject, ho]; rfl
  have hrecord (t : Watch) (source : Option Nat) (r : PollReads) :
      (t.record source (o.conclude r)).subject = some o.process.identity :=
    congrArg some (congrArg ProcessHandle.identity (o.conclude_process r))
  rw [Watch.stepOwner]
  split
  · exact hsame
  · exact hsame
  · split <;> exact hsame
  · split <;> exact hsame
  · exact hsame
  · exact hsame
  · split
    · exact hsame
    · exact hrecord _ _ _
  · exact hsame
  · rfl
  · exact hrecord _ _ _
  · exact hsame
  · rfl
  · exact hsame

theorem begin_subject {operation : ObservedProcess → Watch}
    (hop : ∀ o, s.observer = some o → (operation o).subject = some o.process.identity)
    (hx : s.subject = some x) : (s.begin operation).subject = some x := by
  rw [Watch.begin]
  split
  · next o _ ho => rw [hop o ho, ← hx, subject, ho]; rfl
  · exact hx

theorem Sound.step_subject (h : s.Sound) (hx : s.subject = some x) (e : WatchEvent) :
    (s.step e).subject = some x := by
  obtain ⟨o, ho, rfl⟩ := Option.map_eq_some_iff.mp hx
  have hsame {o'} (ho' : s.observer = some o') : s.subject = some o'.process.identity := by
    rw [subject, ho']
    rfl
  cases e with
  | machine e => exact hx
  | attach pid => rw [Watch.step]; split <;> exact hx
  | tryAttach => exact begin_subject (fun _ ho' => by split <;> exact hsame ho') hx
  | poll => exact begin_subject (fun _ ho' => by split; exacts [hsame ho', rfl]) hx
  | release => exact begin_subject (fun _ ho' => by split <;> exact hsame ho') hx
  | watcher granted =>
    rw [Watch.step]
    split
    · next y hs =>
      have hw := (h.owns ho).2
      rw [hs] at hw
      exact hw.elim
    · next o' ho' _ =>
      rw [stepOwner_subject ho', Option.some.inj (ho.symm.trans ho')]
    · exact hx

def init (m : Machine) (uid : UInt32) : Watch := { m with uid := uid }

theorem sound_run {m : Machine} (h : m.OneInterval) (uid : UInt32) (es : List WatchEvent) :
    (run Watch.step (init m uid) es).Sound :=
  invariant_of_step (fun _ e hs => hs.step e)
    (.of_none rfl h ⟨rfl, rfl, rfl, fun _ hx => (nomatch hx)⟩) es

end Watch

open Watch

/-- The incarnation in the handle, once attached, stays; what any later
observation shows is its own, and no other's lease words are ever written. -/
theorem reuse_safe {m : Machine} (h : m.OneInterval) (uid : UInt32) (es later : List WatchEvent) :
    (∀ x, (run Watch.step (init m uid) es).subject = some x →
      (run Watch.step (init m uid) (es ++ later)).subject = some x) ∧
    (∀ v ∈ (run Watch.step (init m uid) es).observed,
      ∃ x, (run Watch.step (init m uid) es).subject = some x ∧
        v.Of (run Watch.step (init m uid) es).toMachine x) ∧
    ∀ i ∈ (run Watch.step (init m uid) es).written,
      (run Watch.step (init m uid) es).subject =
        some ((run Watch.step (init m uid) es).objects i).filler := by
  have hs := sound_run h uid es
  refine ⟨fun x hx => ?_, ?_⟩
  · rw [run_append]
    refine (invariant_of_step (I := fun s : Watch => s.Sound ∧ s.subject = some x)
      (fun _ e h => ⟨h.1.step e, h.1.step_subject h.2 e⟩) ⟨hs, hx⟩ later).2
  · cases ho : (run Watch.step (init m uid) es).observer with
    | none =>
      have hu := (hs.unwatched ho).2
      rw [hu.observed, hu.written]
      exact ⟨fun _ hv => (nomatch hv), fun _ hi => (nomatch hi)⟩
    | some o =>
      have hk := (hs.owns ho).1
      have hx : (run Watch.step (init m uid) es).subject = some o.process.identity := by
        rw [subject, ho]
        rfl
      exact ⟨fun v hv => ⟨_, hx, hk.observed v hv⟩, fun i hi => by rw [hk.written i hi, hx]⟩

/-- Pid 7 belongs to an incarnation that has created object 0. -/
def reused : Machine where
  holder pid := if pid = 7 then some 100 else none
  exited := []
  ended := []
  files _ := ⟨some {}, some 5⟩
  objects i := .created ⟨7, if i = 0 then 100 else 200⟩ 1000 []
  names pid := if pid = 7 then some 0 else none
  clock := 1000

/-- A whole poll, and one that the next incarnation comes into after its first
load, with the name of the shared state then linked to object 1. -/
def reuseEvents : List WatchEvent :=
  [.attach 7, .watcher true, .tryAttach] ++ List.replicate 8 (.watcher true) ++ [.poll] ++
    List.replicate 60 (.watcher true) ++ [.poll, .watcher true, .machine (.reap 7),
      .machine (.spawn 7 200), .machine (.link 7 (some 1))] ++ List.replicate 60 (.watcher true)

theorem reuse_safe_reused :
    (run Watch.step (init reused 1000) reuseEvents).observed.map (·.observation.status) =
        [.sampled, .exited] ∧
      (run Watch.step (init reused 1000) reuseEvents).written = [0, 0, 0, 0] ∧
      (∀ v ∈ (run Watch.step (init reused 1000) reuseEvents).observed,
        ∃ x, (run Watch.step (init reused 1000) reuseEvents).subject = some x ∧
          v.Of (run Watch.step (init reused 1000) reuseEvents).toMachine x) ∧
      ∀ i ∈ (run Watch.step (init reused 1000) reuseEvents).written,
        (run Watch.step (init reused 1000) reuseEvents).subject =
          some ((run Watch.step (init reused 1000) reuseEvents).objects i).filler :=
  ⟨by decide +kernel, by decide +kernel,
    (reuse_safe (fun _ _ => List.not_mem_nil) 1000 reuseEvents []).2⟩

end Peepbooth
