import Peepbooth.HeartbeatReads
import Peepbooth.Ring
import Peepbooth.Progress

/-! Publishing needs a lease, wherever the calls are interrupted. No reading of the clock is
published that is past every deadline the lease word has shown, so that the producer falls
silent on its own when its watcher does not come back. -/

namespace Peepbooth

open Schedule

/-- The clock reading of a call that has been let through. -/
def Pc.granted : Pc → Option UInt64
  | .loadNext _ now | .exchangeNext _ now _ | .storeActive _ now | .storeTimestamp _ now
  | .addSequence _ now | .drawTicket _ now => some now
  | .store _ d => some d.now
  | _ => none

/-- The accesses with which a call publishes. -/
def Work.stores : Work → Nat
  | .heartbeat _ => 2
  | .breadcrumb _ => 9

/-- All that has been published is the same. -/
structure SharedState.SameRecord (m m' : SharedState) : Prop where
  breadcrumbTicket : m'.breadcrumbTicket = m.breadcrumbTicket
  breadcrumbs : m'.breadcrumbs = m.breadcrumbs
  timestampNs : ∀ i, (m'.heartbeats i).timestampNs = (m.heartbeats i).timestampNs
  sequence : ∀ i, (m'.heartbeats i).sequence = (m.heartbeats i).sequence

theorem SharedState.SameRecord.refl (m : SharedState) : SameRecord m m :=
  ⟨rfl, rfl, fun _ => rfl, fun _ => rfl⟩

theorem SharedState.SameRecord.trans {a b c : SharedState} (h : SameRecord a b)
    (h' : SameRecord b c) : SameRecord a c where
  breadcrumbTicket := h'.breadcrumbTicket.trans h.breadcrumbTicket
  breadcrumbs := h'.breadcrumbs.trans h.breadcrumbs
  timestampNs i := (h'.timestampNs i).trans (h.timestampNs i)
  sequence i := (h'.sequence i).trans (h.sequence i)

namespace Pc

variable {pc : Pc} {s : Shared} {now t : UInt64}

theorem granted_admitted {work : Work} (h : (admitted now work).granted = some t) : t = now := by
  cases work with
  | breadcrumb args => exact (Option.some.inj h).symm
  | heartbeat value =>
    simp only [admitted] at h
    split at h
    · exact (Option.some.inj h).symm
    · cases h

theorem granted_tryNext {index : Fin heartbeatChannelCount} {next : UInt64}
    (h : (tryNext index now next).granted = some t) : t = now := by
  simp only [tryNext] at h
  split at h
  · cases h
  · exact (Option.some.inj h).symm

/-- A call is let through by its load of the lease word and by nothing else. -/
theorem granted_step (spurious : Bool) (h : (pc.step spurious s).1.granted = some now) :
    pc.granted = some now ∨
      ∃ work, pc = .loadLease work now ∧ now ≤ s.mem.watcherLeaseUntilNs := by
  cases pc with
  | loadLease work t =>
    simp only [step] at h
    split at h
    · cases h
    · next hlt =>
      obtain rfl := granted_admitted h
      exact .inr ⟨work, rfl, UInt64.not_lt.mp hlt⟩
  | loadNext index t => exact .inl (congrArg some (granted_tryNext h).symm)
  | exchangeNext index t next =>
    simp only [step] at h
    split at h
    · exact .inl h
    · exact .inl (congrArg some (granted_tryNext h).symm)
  | storeActive index t | storeTimestamp index t | drawTicket args t => exact .inl h
  | store w d =>
    cases hw : w.next with
    | none => simp [step, hw, granted] at h
    | some w' => exact .inl (by simpa [step, hw, granted] using h)
  | idle | clearPresent | addSequence | readClock => cases h
  | setLoadState | setStoreActive | loadState | loadPresent | reloadState | reloadPresent =>
    simp only [step] at h
    split at h <;> cases h

/-- The next access changes what has been published. -/
def publishes : Pc → Bool
  | storeTimestamp .. | addSequence .. | drawTicket .. | store .. => true
  | _ => false

/-- The accesses with which a thread has still to publish what it read off the clock by
`D`. A call that has been let through publishes whatever it has read. -/
def unpublished (D : UInt64) : Pc → Nat
  | reloadState work now | reloadPresent work now | loadLease work now =>
    if now ≤ D then work.stores else 0
  | loadNext .. | exchangeNext .. | storeActive .. | storeTimestamp .. => 2
  | addSequence .. => 1
  | drawTicket .. => 9
  | store w _ => 8 - w.position
  | _ => 0

theorem unpublished_start (D : UInt64) (call : Call) : (start call).unpublished D = 0 := by
  cases call <;> rfl

theorem unpublished_admitted (D : UInt64) (work : Work) :
    (admitted now work).unpublished D ≤ work.stores := by
  cases work with
  | breadcrumb args => exact le_rfl
  | heartbeat value =>
    simp only [admitted]
    split
    · exact le_rfl
    · exact Nat.zero_le _

theorem unpublished_tryNext (D : UInt64) (index : Fin heartbeatChannelCount) (next : UInt64) :
    (tryNext index now next).unpublished D ≤ 2 := by
  unfold tryNext
  split
  · exact Nat.zero_le _
  · exact le_rfl

/-- No access makes a thread publish more than before, once the clock is past `D`. -/
theorem unpublished_step {D : UInt64} (spurious : Bool) (hc : D < s.clock)
    (hD : s.mem.watcherLeaseUntilNs ≤ D) :
    (pc.step spurious s).1.unpublished D + pc.publishes.toNat ≤ pc.unpublished D := by
  cases pc with
  | readClock work => simp [step, unpublished, publishes, UInt64.not_le.mpr hc]
  | loadLease work t =>
    simp only [step]
    split
    · exact Nat.zero_le _
    · next hlt =>
      have hle : t ≤ D := UInt64.le_trans (UInt64.not_lt.mp hlt) hD
      simpa [unpublished, publishes, hle] using unpublished_admitted D work
  | loadNext index t => exact unpublished_tryNext D index _
  | exchangeNext index t next =>
    simp only [step]
    split
    · exact le_rfl
    · exact unpublished_tryNext D index _
  | store w d => cases w <;> simp [step, unpublished, publishes, SlotStore.next, SlotStore.position]
  | reloadState work t =>
    simp only [step]
    split
    · exact le_rfl
    · exact Nat.zero_le _
  | reloadPresent work t =>
    simp only [step]
    split
    · exact Nat.zero_le _
    · exact le_rfl
  | setLoadState | setStoreActive | loadState | loadPresent =>
    simp only [step]
    split <;> exact le_rfl
  | _ => exact le_rfl

/-- An access that does not publish stores flags and deadlines. -/
theorem step_sameRecord (spurious : Bool) (h : pc.publishes = false) :
    s.mem.SameRecord (pc.step spurious s).2.mem := by
  cases pc with
  | setStoreActive index value active | storeActive index now =>
    refine ⟨rfl, rfl, fun i => ?_, fun i => ?_⟩
    all_goals
      by_cases hi : i = index
      · subst hi
        simp [step, Shared.setMem, SharedState.setHeartbeat]
      · simp [step, Shared.setMem, SharedState.setHeartbeat, hi]
  | exchangeNext index now next =>
    simp only [step]
    split <;> exact .refl _
  | clearPresent => exact ⟨rfl, rfl, fun _ => rfl, fun _ => rfl⟩
  | storeTimestamp | addSequence | drawTicket | store => cases h
  | _ => exact .refl _

end Pc

namespace System

variable {s : System} {D : UInt64}

/-- The lease word shows no deadline past `D`. -/
def LeasedUntil (D : UInt64) (s : System) : Prop := s.mem.watcherLeaseUntilNs ≤ D

instance (D : UInt64) (s : System) : Decidable (LeasedUntil D s) :=
  inferInstanceAs (Decidable (_ ≤ _))

/-- What has been published, and what calls that have been let through have still to
publish, was read off the clock by `D`. -/
structure Dated (D : UInt64) (s : System) : Prop where
  granted : ∀ i now, (s.thread i).granted = some now → now ≤ D
  calls : ∀ d ∈ s.log.calls, d.now ≤ D
  heartbeats : ∀ i, (s.mem.heartbeats i).timestampNs ≤ D
  breadcrumbs : ∀ k, (s.mem.breadcrumbs k).timestampNs ≤ D

theorem step_heartbeats (s : System) {e : Event} (ht : ∀ j spurious, e ≠ .thread j spurious) :
    (s.step e).mem.heartbeats = s.mem.heartbeats := by
  cases e with
  | thread j spurious => exact absurd rfl (ht j spurious)
  | control =>
    simp only [System.step, stepControl]
    split
    · cases s.control <;> simp only [ControlPc.step] <;> (repeat' split) <;> simp [Shared.setMem]
    · rfl
  | watcher =>
    simp only [System.step, stepWatcher]
    (repeat' split) <;> rfl
  | usage memory cpuTicks => rfl
  | _ =>
    simp only [System.step]
    split <;> rfl

theorem granted_call {i j : Nat} {call : Call} {now : UInt64}
    (h : ((s.step (.call j call)).thread i).granted = some now) :
    (s.thread i).granted = some now := by
  simp only [System.step] at h
  split at h
  · by_cases hi : i = j
    · subst hi
      simp only [Function.update_self] at h
      cases call <;> cases h
    · simpa [hi] using h
  · exact h

theorem granted_step (s : System) {e : Event} {i : Nat} {now : UInt64}
    (h : ((s.step e).thread i).granted = some now) :
    (s.thread i).granted = some now ∨
      ∃ work, s.thread i = .loadLease work now ∧ now ≤ s.mem.watcherLeaseUntilNs := by
  have hout := s.step_outside (e := e)
  cases e with
  | thread j spurious =>
    simp only [System.step] at h
    split at h
    · by_cases hi : i = j
      · subst hi
        simp only [stepThread, Function.update_self] at h
        exact Pc.granted_step spurious h
      · exact .inl (by simpa [stepThread, hi] using h)
    · exact .inl h
  | call j call => exact .inl (granted_call h)
  | _ =>
    rw [(hout (by simp) (by simp)).1] at h
    exact .inl h

theorem Dated.timestamp (h : Dated D s) (e : Event) (i : Fin heartbeatChannelCount) :
    ((s.step e).mem.heartbeats i).timestampNs ≤ D := by
  have hout := s.step_heartbeats (e := e)
  cases e with
  | thread j spurious =>
    simp only [System.step]
    split
    · rcases Pc.step_timestamp (s.thread j) spurious s.toShared i with he | ⟨now, hpc, he⟩
      · exact (congrArg (· ≤ D) he).mpr (h.heartbeats i)
      · exact (congrArg (· ≤ D) he).mpr (h.granted j now (by rw [hpc]; rfl))
    · exact h.heartbeats i
  | _ =>
    rw [hout (by simp)]
    exact h.heartbeats i

theorem Dated.step (h : Dated D s) (hD : LeasedUntil D s) (e : Event) : Dated D (s.step e) := by
  have hgranted (i : Nat) (now : UInt64) (hi : ((s.step e).thread i).granted = some now) :
      now ≤ D := by
    rcases s.granted_step hi with ho | ⟨work, -, hle⟩
    · exact h.granted i now ho
    · exact UInt64.le_trans hle hD
  have hring : (∀ d ∈ (s.step e).ring.calls, d.now ≤ D) ∧
      ∀ k, ((s.step e).ring.slots k).timestampNs ≤ D := by
    rcases s.step_ring e with hr | ⟨i, spurious, args, now, -, -, hpc, hr⟩ |
      ⟨i, spurious, w, d, -, -, hpc, hr⟩
    · rw [hr]
      exact ⟨h.calls, h.breadcrumbs⟩
    · rw [hr]
      refine ⟨fun d hd => ?_, h.breadcrumbs⟩
      rcases List.mem_append.mp hd with hd | hd
      · exact h.calls d hd
      · rw [List.mem_singleton.mp hd]
        exact h.granted i now (by rw [hpc]; rfl)
    · rw [hr]
      refine ⟨h.calls, fun k => ?_⟩
      by_cases hk : k = d.index
      · subst hk
        have hold := h.breadcrumbs d.index
        have hnew := h.granted i d.now (by rw [hpc]; rfl)
        cases w <;> simp [Ring.store, SlotStore.apply, System.ring, hold, hnew]
      · rw [Ring.store_slots_ne hk]
        exact h.breadcrumbs k
  exact ⟨hgranted, hring.1, h.timestamp e, hring.2⟩

/-- In a run whose lease word never shows a deadline past `D`, nothing is ever published
that was read off the clock after `D`. -/
theorem published_under_lease (h : s.Initial) (D : UInt64) {es : List Event}
    (hD : Always System.step (LeasedUntil D) s es) : Always System.step (Dated D) s es := by
  have hstart : Dated D s := by
    refine ⟨fun i now hi => ?_, fun d hd => ?_, fun i => ?_, fun k => ?_⟩
    · simp [h.thread, Pc.granted] at hi
    · simp [h.log] at hd
    · simp [h.fresh.heartbeats]
    · simp [h.fresh.breadcrumbs]
  exact always_of_permits (fun _ e hs hl => hs.step hl.1 e) hstart (permits_of_always hD)

theorem published_under_lease_rivals :
    Always System.step (Dated 10) sample (rivals 0 1) :=
  published_under_lease initial_sample 10 (by decide)

/-- An access of the thread that changes what has been published. -/
def publicationOf (i : Nat) (s : System) : Event → Nat
  | .thread j _ => if j = i ∧ s.phase = .running then ((s.thread i).publishes).toNat else 0
  | _ => 0

theorem unpublished_step (hc : D < s.clock) (hD : LeasedUntil D s) (i : Nat) (e : Event) :
    ((s.step e).thread i).unpublished D + publicationOf i s e ≤ (s.thread i).unpublished D := by
  have hout := s.step_outside (e := e)
  cases e with
  | thread j spurious =>
    simp only [System.step, publicationOf]
    by_cases hp : s.phase = .running
    · by_cases hj : j = i
      · subst hj
        simpa [hp, stepThread] using Pc.unpublished_step spurious hc hD
      · simp [hp, hj, stepThread, Ne.symm hj]
    · simp [hp]
  | call j call =>
    simp only [System.step, publicationOf]
    split
    · by_cases hj : j = i
      · subst hj
        simp [Pc.unpublished_start]
      · simp [Ne.symm hj]
    · exact le_rfl
  | _ =>
    rw [(hout (by simp) (by simp)).1]
    exact le_rfl

theorem step_sameRecord {e : Event} (h : ∀ i, publicationOf i s e = 0) :
    s.mem.SameRecord (s.step e).mem := by
  have hout := s.step_heartbeats (e := e)
  have hring := s.step_ring e
  cases e with
  | thread j spurious =>
    simp only [System.step]
    split
    · next hp => exact Pc.step_sameRecord spurious (by simpa [publicationOf, hp] using h j)
    · exact .refl _
  | _ =>
    have hbeats := hout (by simp)
    rcases hring with hr | ⟨i, spurious, args, now, he, -⟩ | ⟨i, spurious, w, d, he, -⟩
    · exact ⟨congrArg Ring.ticket hr, congrArg Ring.slots hr, fun i => by rw [hbeats],
        fun i => by rw [hbeats]⟩
    · cases he
    · cases he

theorem clock_step (s : System) (e : Event) : s.clock ≤ (s.step e).clock := by
  rcases s.step_lease e with hr | ⟨now, hn, hr⟩ | ⟨d, -, hr⟩ | ⟨-, hr⟩ | ⟨d, -, hr⟩ | ⟨-, hr⟩ |
    ⟨-, hr⟩ | ⟨-, hr⟩ | ⟨i, spurious, -, -, -, hr⟩
  · exact UInt64.le_of_eq (congrArg Lease.clock hr).symm
  · exact UInt64.le_trans hn (UInt64.le_of_eq (congrArg Lease.clock hr).symm)
  all_goals exact UInt64.le_of_eq (congrArg Lease.clock hr).symm

/-- Once the clock is past `D`, in a run whose lease word never shows a later deadline, a
thread makes no more accesses that publish than its call under way has left if it read the
clock by `D`. When no thread is in such a call, nothing is published any more. -/
theorem published_after_le (hc : D < s.clock) {es : List Event}
    (hD : Always System.step (LeasedUntil D) s es) :
    (∀ i, total System.step (publicationOf i) s es ≤ (s.thread i).unpublished D) ∧
      ((∀ i, (s.thread i).unpublished D = 0) →
        Always System.step (fun t => s.mem.SameRecord t.mem) s es) := by
  have hclock : Always System.step (fun t => D < t.clock) s es :=
    always_of_step (I := fun t : System => D < t.clock)
      (fun s e hs => UInt64.lt_of_lt_of_le hs (s.clock_step e)) hc es
  have hstep := (permits_of_always (hclock.and hD)).imp fun s e hs => hs.1
  refine ⟨fun i => ?_, fun hzero => ?_⟩
  · exact total_le_potential (fun t : System => (t.thread i).unpublished D)
      (hstep.imp fun s e hs => unpublished_step hs.1 hs.2 i e)
  · have hsilent (t : System) (e : Event) (ht : (∀ i, (t.thread i).unpublished D = 0) ∧
        s.mem.SameRecord t.mem) (hs : D < t.clock ∧ LeasedUntil D t) :
        (∀ i, ((t.step e).thread i).unpublished D = 0) ∧
          s.mem.SameRecord (t.step e).mem := by
      have hle (i : Nat) := unpublished_step hs.1 hs.2 i e
      simp only [ht.1, Nat.le_zero, Nat.add_eq_zero_iff] at hle
      exact ⟨fun i => (hle i).1, ht.2.trans (step_sameRecord fun i => (hle i).2)⟩
    have h := always_of_permits hsilent ⟨hzero, .refl s.mem⟩ hstep
    exact h.imp fun _ ht => ht.2

/-- The thread has been let through under a lease until 10, and is to make its first store
when the watcher has stayed away past that. -/
def orphan (i : Nat) (args : BreadcrumbArgs) : System :=
  run System.step sample (.renew 0 10 :: .watcher :: .watcher :: .call i (.breadcrumb args) ::
    List.replicate 8 (.thread i false) ++ [.tick 11])

theorem published_after_le_orphan :
    (∀ i, total System.step (publicationOf i) (orphan 0 ⟨7, 0, 0, 0, 0⟩)
        (List.replicate 20 (.thread 0 false)) ≤
          ((orphan 0 ⟨7, 0, 0, 0, 0⟩).thread i).unpublished 10) ∧
      ((∀ i, ((orphan 0 ⟨7, 0, 0, 0, 0⟩).thread i).unpublished 10 = 0) →
        Always System.step (fun t => (orphan 0 ⟨7, 0, 0, 0, 0⟩).mem.SameRecord t.mem)
          (orphan 0 ⟨7, 0, 0, 0, 0⟩) (List.replicate 20 (.thread 0 false))) :=
  published_after_le (by decide) (by decide)

end System

end Peepbooth
