import Peepbooth.System

/-! The lease by itself: its two words, the renewal or release under way, and
what a step does to them. A producer that has judged a lease expired clears the
presence flag, whatever the watcher has stored since. -/

namespace Peepbooth

open Schedule

/-- How far the watcher is with a renewal or a release. -/
inductive Stage
  | reading
  | storeLease (deadline : UInt64)
  | storePresent
  | clearPresent
  | clearLease
  deriving DecidableEq, Repr

def Watcher.stage : Watcher → Stage
  | .storeLease deadline _ => .storeLease deadline
  | .storePresent _ => .storePresent
  | .clearPresent => .clearPresent
  | .clearLease => .clearLease
  | _ => .reading

structure Lease where
  stage : Stage
  renewed : Option UInt64
  present : UInt32
  leaseUntil : UInt64
  clock : UInt64

def System.lease (s : System) : Lease where
  stage := s.watcher.stage
  renewed := s.log.renewed
  present := s.mem.watcherPresent
  leaseUntil := s.mem.watcherLeaseUntilNs
  clock := s.clock

inductive LeaseStep (s : System) (e : Event) (r : Lease) : Prop
  | quiet (h : r = s.lease)
  | tick (now : UInt64) (hn : s.clock ≤ now) (h : r = { s.lease with clock := now })
  | renew (d : UInt64) (hs : s.lease.stage = .reading)
      (h : r = { s.lease with stage := .storeLease d, renewed := some d })
  | release (hs : s.lease.stage = .reading)
      (h : r = { s.lease with stage := .clearPresent, renewed := none })
  | storeLease (d : UInt64) (hs : s.lease.stage = .storeLease d)
      (h : r = { s.lease with stage := .storePresent, leaseUntil := d })
  | storePresent (hs : s.lease.stage = .storePresent)
      (h : r = { s.lease with stage := .reading, present := 1 })
  | clearPresent (hs : s.lease.stage = .clearPresent)
      (h : r = { s.lease with stage := .clearLease, present := 0 })
  | clearLease (hs : s.lease.stage = .clearLease)
      (h : r = { s.lease with stage := .reading, leaseUntil := 0 })
  | expire (i : Nat) (spurious : Bool) (he : e = .thread i spurious) (hp : s.phase = .running)
      (hpc : s.thread i = .clearPresent) (h : r = { s.lease with present := 0 })

theorem Pc.step_lease {pc : Pc} (spurious : Bool) (s : Shared) (hpc : pc ≠ .clearPresent) :
    (pc.step spurious s).2.mem.watcherPresent = s.mem.watcherPresent ∧
    (pc.step spurious s).2.mem.watcherLeaseUntilNs = s.mem.watcherLeaseUntilNs := by
  cases pc with
  | clearPresent => exact absurd rfl hpc
  | exchangeNext index now next => simp only [step]; split <;> simp
  | _ => simp [step, Shared.setMem, SharedState.setHeartbeat, SharedState.setBreadcrumb]

theorem Pc.step_clock (pc : Pc) (spurious : Bool) (s : Shared) :
    (pc.step spurious s).2.clock = s.clock := by
  cases pc with
  | exchangeNext index now next => simp only [step]; split <;> rfl
  | _ => rfl

theorem Log.access_renewed (log : Log) (i : Nat) (s : Shared) (pc : Pc) :
    (log.access i s pc).renewed = log.renewed := by
  cases pc with
  | readClock work =>
    cases work with
    | heartbeat value => simp only [access]; split <;> rfl
    | breadcrumb args => rfl
  | store w d => cases w <;> rfl
  | _ => rfl

theorem Log.load_renewed (log : Log) (p : Place) : (log.load p).renewed = log.renewed := by
  cases p <;> rfl

theorem System.step_lease (s : System) (e : Event) : LeaseStep s e (s.step e).lease := by
  cases e with
  | thread i spurious =>
    by_cases hp : s.phase = .running
    · by_cases hpc : s.thread i = .clearPresent
      · refine .expire i spurious rfl hp hpc ?_
        simp [System.step, hp, System.stepThread, hpc, Pc.step, System.lease, Shared.setMem,
          Log.access]
      · refine .quiet ?_
        have hh := Pc.step_lease spurious s.toShared hpc
        simp only [System.step, hp, if_true, System.stepThread, System.lease, hh, Pc.step_clock,
          Log.access_renewed]
    · exact .quiet (by simp [System.step, hp])
  | watcher =>
    rcases hw : s.watcher with
        _ | (r | ⟨place, next⟩) | (r | ⟨place, next⟩) | ⟨d, k⟩ | k | _ | _ <;>
      simp only [System.step, System.stepWatcher, hw]
    case polling.done =>
      by_cases hr : r.isAlive
      · exact .renew (leaseDeadline r.now defaultWatcherLeaseNs)
          (by simp [System.lease, hw, Watcher.stage]) (by simp [System.lease, hr, Watcher.stage])
      · exact .quiet (by simp [System.lease, hr, hw, Watcher.stage])
    case storeLease =>
      exact .storeLease d (by simp [System.lease, hw, Watcher.stage])
        (by simp [System.lease, Watcher.stage])
    case storePresent =>
      exact .storePresent (by simp [System.lease, hw, Watcher.stage])
        (by simp [System.lease, Watcher.stage])
    case clearPresent =>
      exact .clearPresent (by simp [System.lease, hw, Watcher.stage])
        (by simp [System.lease, Watcher.stage])
    case clearLease =>
      exact .clearLease (by simp [System.lease, hw, Watcher.stage])
        (by simp [System.lease, Watcher.stage])
    all_goals exact .quiet (by simp [System.lease, hw, Watcher.stage, Log.load_renewed])
  | renew now duration =>
    simp only [System.step]
    split
    · next hw =>
      exact .renew (leaseDeadline now duration) (by simp [System.lease, hw, Watcher.stage])
        (by simp [System.lease, Watcher.stage])
    · exact .quiet rfl
  | release =>
    simp only [System.step]
    split
    · next hw =>
      exact .release (by simp [System.lease, hw, Watcher.stage])
        (by simp [System.lease, Watcher.stage])
    · exact .quiet rfl
  | tick now =>
    simp only [System.step]
    split
    · next hn => exact .tick now hn rfl
    · exact .quiet rfl
  | snapshot =>
    simp only [System.step]
    split
    · next hw => exact .quiet (by simp [System.lease, hw, Watcher.stage])
    · exact .quiet rfl
  | poll =>
    simp only [System.step]
    split
    · next hw => exact .quiet (by simp [System.lease, hw, Watcher.stage])
    · exact .quiet rfl
  | control =>
    refine .quiet ?_
    simp only [System.step, System.stepControl]
    split
    · cases s.control <;> simp only [ControlPc.step] <;> (repeat' split) <;> rfl
    · rfl
  | _ =>
    refine .quiet ?_
    simp only [System.step]
    (repeat' split) <;> rfl

def Pc.now : Pc → Option UInt64
  | .reloadState _ now | .reloadPresent _ now | .loadLease _ now | .loadNext _ now
  | .exchangeNext _ now _ | .storeActive _ now | .storeTimestamp _ now | .addSequence _ now
  | .drawTicket _ now => some now
  | .store _ d => some d.now
  | _ => none

theorem Pc.step_now {pc : Pc} (spurious : Bool) (s : Shared) {now : UInt64}
    (h : (pc.step spurious s).1.now = some now) : pc.now = some now ∨ now = s.clock := by
  cases pc with
  | readClock work => exact .inr (by simpa [step, Pc.now, eq_comm] using h)
  | loadLease work n =>
    cases work <;> simp only [step, admitted] at h <;> (repeat' split at h) <;>
      simp_all [Pc.now]
  | store w d =>
    cases hw : w.next <;> simp_all [step, Pc.now]
  | _ =>
    simp only [step, tryNext] at h
    (repeat' split at h) <;> simp_all [Pc.now]

/-- No call carries a clock reading from the future. -/
def System.Clocked (s : System) : Prop := ∀ i now, (s.thread i).now = some now → now ≤ s.clock

theorem System.clocked_step {s : System} (e : Event) (h : s.Clocked) : (s.step e).Clocked := by
  cases e with
  | thread i spurious =>
    simp only [System.step]
    split
    · intro j now hj
      simp only [System.stepThread, Pc.step_clock] at hj ⊢
      by_cases hji : j = i
      · subst hji
        rw [Function.update_self] at hj
        rcases Pc.step_now spurious s.toShared hj with ho | rfl
        · exact h j now ho
        · exact UInt64.le_refl _
      · exact h j now (by simpa [hji] using hj)
    · exact h
  | call i call =>
    simp only [System.step]
    split
    · intro j now hj
      by_cases hji : j = i
      · subst hji
        cases call <;> simp [Pc.start, Pc.now] at hj
      · exact h j now (by simpa [hji] using hj)
    · exact h
  | tick now =>
    simp only [System.step]
    split
    · next hn => exact fun j n hj => UInt64.le_trans (h j n hj) hn
    · exact h
  | watcher =>
    obtain ⟨hthread, hclock⟩ := s.step_watcher_keeps
    intro j now hj
    rw [hthread] at hj
    rw [hclock]
    exact h j now hj
  | control =>
    simp only [System.step, System.stepControl]
    split
    · cases s.control <;> simp only [ControlPc.step] <;> (repeat' split) <;> exact h
    · exact h
  | _ =>
    simp only [System.step]
    (repeat' split) <;> exact h

/-- The renewal begun last has completed, nothing has been released since, and
the clock has not passed the deadline `d`. -/
def Lease.Live (l : Lease) (d : UInt64) : Prop :=
  l.renewed = some d ∧ (∀ d', l.stage ≠ .storeLease d') ∧ l.stage ≠ .storePresent ∧ l.clock ≤ d

/-- What the watcher alone stores in the lease words. -/
structure Lease.Stored (l : Lease) : Prop where
  storing : ∀ d, l.stage = .storeLease d → l.renewed = some d
  stored : ∀ d, l.renewed = some d → (∀ d', l.stage ≠ .storeLease d') → l.leaseUntil = d
  released : l.stage = .clearPresent ∨ l.stage = .clearLease → l.renewed = none

theorem System.stored_step {s : System} (e : Event) (h : s.lease.Stored) :
    (s.step e).lease.Stored := by
  obtain ⟨h₁, h₂, h₃⟩ := h
  rcases s.step_lease e with hr | ⟨now, -, hr⟩ | ⟨d, hs, hr⟩ | ⟨hs, hr⟩ | ⟨d, hs, hr⟩ | ⟨hs, hr⟩ |
    ⟨hs, hr⟩ | ⟨hs, hr⟩ | ⟨i, spurious, he, hp, hpc, hr⟩ <;> rw [hr]
  · exact ⟨h₁, h₂, h₃⟩
  · exact ⟨h₁, h₂, h₃⟩
  · constructor <;> simp
  · constructor <;> simp
  · exact ⟨by simp, fun d' hd _ => by simpa [h₁ d hs] using hd, by simp⟩
  · exact ⟨by simp, fun d hd _ => h₂ d hd (by simp [hs]), by simp⟩
  · exact ⟨by simp, fun d hd _ => h₂ d hd (by simp [hs]), fun _ => h₃ (.inl hs)⟩
  · exact ⟨by simp, fun d hd => by simp [h₃ (.inr hs)] at hd, by simp⟩
  · exact ⟨h₁, h₂, h₃⟩

/-- A check of the lease words lets the call go on. -/
def Pc.Passes (s : Shared) : Pc → Prop
  | loadPresent work => ∀ spurious, ((loadPresent work).step spurious s).1 = readClock work
  | reloadPresent work now =>
    ∀ spurious, ((reloadPresent work now).step spurious s).1 = loadLease work now
  | loadLease work now =>
    ∀ spurious, ((loadLease work now).step spurious s).1 = admitted now work
  | _ => True

/-- A completed renewal is in force: both words show it, and every call that
looks at them goes on. -/
structure LeaseHeld (s : System) : Prop where
  present : ∀ d, s.lease.Live d → s.mem.watcherPresent = 1
  deadline : ∀ d, s.lease.Live d → s.mem.watcherLeaseUntilNs = d
  passes : ∀ d, s.lease.Live d → ∀ i, (s.thread i).Passes s.toShared

/-- No call that judged an earlier lease expired clears the presence flag while
a completed renewal is in force. -/
def NoLateClear (s : System) : Event → Prop
  | .thread i _ => s.phase = .running → s.thread i = .clearPresent → ∀ d, ¬s.lease.Live d
  | _ => True

theorem leaseHeld_of_present {s : System} (hs : s.lease.Stored) (hc : s.Clocked)
    (h : ∀ d, s.lease.Live d → s.mem.watcherPresent = 1) : LeaseHeld s := by
  have hd : ∀ d, s.lease.Live d → s.mem.watcherLeaseUntilNs = d :=
    fun d hl => hs.stored d hl.1 hl.2.1
  refine ⟨h, hd, fun d hl i => ?_⟩
  have hp := h d hl
  have hn := hc i
  cases hpc : s.thread i with
  | loadPresent work => simp [Pc.Passes, Pc.step, hp]
  | reloadPresent work now => simp [Pc.Passes, Pc.step, hp]
  | loadLease work now =>
    have hle : ¬s.mem.watcherLeaseUntilNs < now := by
      rw [hd d hl, UInt64.not_lt]
      exact UInt64.le_trans (hn now (by rw [hpc]; rfl)) hl.2.2.2
    simp [Pc.Passes, Pc.step, hle]
  | _ => trivial

theorem present_step {s : System} {e : Event} (hs : s.lease.Stored)
    (h : ∀ d, s.lease.Live d → s.lease.present = 1) (hG : NoLateClear s e) (d : UInt64)
    (hl : (s.step e).lease.Live d) : (s.step e).lease.present = 1 := by
  rcases s.step_lease e with hr | ⟨now, hn, hr⟩ | ⟨d', -, hr⟩ | ⟨-, hr⟩ | ⟨d', -, hr⟩ | ⟨-, hr⟩ |
    ⟨hst, hr⟩ | ⟨hst, hr⟩ | ⟨i, spurious, he, hp, hpc, hr⟩ <;> rw [hr] at hl ⊢
  · exact h d hl
  · exact h d ⟨hl.1, hl.2.1, hl.2.2.1, UInt64.le_trans hn hl.2.2.2⟩
  · exact absurd rfl (hl.2.1 d')
  · exact absurd hl.1 (by simp)
  · exact absurd rfl hl.2.2.1
  · exact absurd hl.1 (by simp [hs.released (.inl hst)])
  · exact absurd hl.1 (by simp [hs.released (.inr hst)])
  · subst he
    exact absurd hl (hG hp hpc d)

theorem leaseHeld_step {s : System} {e : Event} (hs : s.lease.Stored) (hc : s.Clocked)
    (h : LeaseHeld s) : LeaseHeld (s.step e) ↔ NoLateClear s e := by
  constructor
  · intro h'
    cases e with
    | thread i spurious =>
      intro hp hpc d hl
      have hr : (s.step (.thread i spurious)).lease = { s.lease with present := 0 } := by
        simp [System.step, hp, System.stepThread, hpc, Pc.step, System.lease, Shared.setMem,
          Log.access]
      have hone := h'.present d (by rw [hr]; exact hl)
      have hzero : (s.step (.thread i spurious)).mem.watcherPresent = 0 := congrArg Lease.present hr
      rw [hzero] at hone
      exact absurd hone (by decide)
    | _ => trivial
  · intro hG
    exact leaseHeld_of_present (s.stored_step e hs) (s.clocked_step e hc)
      (present_step hs h.present hG)

theorem System.Initial.stored {s : System} (h : s.Initial) : s.lease.Stored := by
  constructor <;> simp [System.lease, h.watcher, Watcher.stage, h.log]

theorem System.Initial.clocked {s : System} (h : s.Initial) : s.Clocked := by
  intro i now hi
  simp [h.thread, Pc.now] at hi

/-- A completed renewal stays in force throughout exactly the runs without a
late clearing. -/
theorem leaseHeld_iff {s : System} {es : List Event} (h : s.Initial) :
    Always System.step LeaseHeld s es ↔ Permits System.step NoLateClear s es :=
  always_iff_permits (I := fun s => s.lease.Stored ∧ s.Clocked)
    (fun s e hs => ⟨s.stored_step e hs.1, s.clocked_step e hs.2⟩)
    (fun _ _ hs hh => leaseHeld_step hs.1 hs.2 hh) ⟨h.stored, h.clocked⟩
    (leaseHeld_of_present h.stored h.clocked fun d hl =>
      absurd hl.1 (by simp [System.lease, h.log]))

/-- Thread 0 judges a lease of 10 ns expired; before it stores that, the watcher
renews. -/
def lateClear : List Event :=
  .renew 0 10 :: .watcher :: .watcher :: .tick 11 :: .call 0 (.heartbeat .main) ::
    List.replicate 6 (.thread 0 false) ++
    [.renew 11 100, .watcher, .watcher, .thread 0 false]

theorem leaseHeld_iff_lateClear :
    Always System.step LeaseHeld System.sample lateClear ↔
      Permits System.step NoLateClear System.sample lateClear :=
  leaseHeld_iff System.initial_sample

/-- The renewal has completed and runs to 111, the clock shows 11, and the
presence flag is 0. -/
theorem lost_renewal :
    (run System.step System.sample lateClear).lease.Live 111 ∧
    (run System.step System.sample lateClear).mem.watcherPresent = 0 := by
  have hs : (run System.step System.sample lateClear).lease.stage = .reading := by decide
  exact ⟨⟨by decide, by simp [hs], by simp [hs], by decide⟩, by decide⟩

end Peepbooth
