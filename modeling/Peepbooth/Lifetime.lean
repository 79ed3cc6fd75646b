import Peepbooth.Schedule
import Peepbooth.Producer

/-! The life of the mapping under one client. `start` and `stop` exclude each
other, but the publishing calls take no lock: they load the pointer once and
go on through it, mapped or not. -/

namespace Peepbooth

open Schedule

/-- Callers of `start` and `stop` are numbered like threads. `fault` is set by
an access through the pointer while the region is not mapped. -/
structure Lifetime extends Shared where
  thread : Nat → Pc
  control : Nat → ControlPc
  fault : Bool

inductive LifetimeEvent
  | call (thread : Nat) (call : Call)
  | thread (thread : Nat) (spurious : Bool)
  | start (caller : Nat)
  | stop (caller : Nat)
  | control (caller : Nat) (created : Option SharedState)
  | tick (now : UInt64)
  | watcher (mem : SharedState)

namespace Lifetime

/-- What the watcher stores in the memory is of no importance here. -/
def step (s : Lifetime) : LifetimeEvent → Lifetime
  | .call i call =>
    if s.thread i = .idle then { s with thread := Function.update s.thread i (Pc.start call) }
    else s
  | .thread i spurious =>
    let r := (s.thread i).step spurious s.toShared
    { toShared := r.2
      thread := Function.update s.thread i r.1
      control := s.control
      fault := s.fault || (s.thread i).touches && !s.mapped }
  | .start j =>
    if s.control j = .idle then { s with control := Function.update s.control j .startLock }
    else s
  | .stop j =>
    if s.control j = .idle then { s with control := Function.update s.control j .stopLock } else s
  | .control j created =>
    let r := (s.control j).step j created s.toShared
    { toShared := r.2
      thread := s.thread
      control := Function.update s.control j r.1
      fault := s.fault || (s.control j).touches && !s.mapped }
  | .tick now => if s.clock ≤ now then { s with clock := now } else s
  | .watcher mem => { s with mem := mem }

structure Initial (s : Lifetime) : Prop where
  state : s.state = false
  mapped : s.mapped = false
  mutex : s.mutex = none
  thread : ∀ i, s.thread i = .idle
  control : ∀ j, s.control j = .idle
  fault : s.fault = false

end Lifetime

/-- The call has loaded the pointer and may still go through it. -/
def Pc.holds : Pc → Bool
  | .setStoreActive .. | .loadPresent _ | .reloadPresent .. | .loadLease .. | .clearPresent
  | .loadNext .. | .exchangeNext .. | .storeActive .. | .storeTimestamp .. | .addSequence ..
  | .drawTicket .. | .store .. => true
  | _ => false

theorem Pc.holds_of_touches {pc : Pc} (h : pc.touches = true) : pc.holds = true := by
  cases pc <;> simp_all [touches, holds]

theorem Pc.holds_step {pc : Pc} (spurious : Bool) {s : Shared}
    (h : (pc.step spurious s).1.holds = true) : pc.holds = true ∨ s.state = true := by
  cases pc with
  | setLoadState value active =>
    by_cases hs : s.state = true
    · exact .inr hs
    · simp [step, hs, holds] at h
  | loadState work =>
    by_cases hs : s.state = true
    · exact .inr hs
    · simp [step, hs, holds] at h
  | reloadState work now =>
    by_cases hs : s.state = true
    · exact .inr hs
    · simp [step, hs, holds] at h
  | idle => simp [step, holds] at h
  | readClock work => simp [step, holds] at h
  | _ => exact .inl rfl

theorem Pc.step_lifetime (pc : Pc) (spurious : Bool) (s : Shared) :
    (pc.step spurious s).2.state = s.state ∧ (pc.step spurious s).2.mapped = s.mapped ∧
    (pc.step spurious s).2.mutex = s.mutex := by
  cases pc with
  | exchangeNext index now next => simp only [step]; split <;> simp
  | _ => simp [step, Shared.setMem]

/-- The caller is in the section the mutex guards. -/
def ControlPc.inside : ControlPc → Bool
  | .idle | .startLock | .stopLock => false
  | _ => true

namespace Lifetime

/-- What the mutex guarantees about the pointer and the mapping, and what is
true of the publishing calls as long as no mapping is reset under them. -/
structure Safe (s : Lifetime) : Prop where
  lock : ∀ j, (s.control j).inside = true → s.mutex = some j
  mapped : s.state = true → s.mapped = true
  creating : ∀ j, s.control j = .startStore → s.mapped = true
  stopping : ∀ j, s.control j = .stopStoreLifecycle → s.mapped = true
  resetting : ∀ j, s.control j = .stopStoreLifecycle ∨ s.control j = .stopReset → s.state = false
  unmapped : s.mapped = false → ∀ i, (s.thread i).holds = false
  fault : s.fault = false

/-- The mapping is reset only when no publishing call may still go through the
pointer it has loaded. -/
def Drained (s : Lifetime) : LifetimeEvent → Prop
  | .control j _ => s.control j = .stopReset → ∀ i, (s.thread i).holds = false
  | _ => True

variable {s : Lifetime}

theorem Safe.thread (h : s.Safe) (i : Nat) (spurious : Bool) :
    (s.step (.thread i spurious)).Safe := by
  have hk := Pc.step_lifetime (s.thread i) spurious s.toShared
  refine ⟨fun j hj => ?_, fun hs => ?_, fun j hj => ?_, fun j hj => ?_, fun j hj => ?_,
    fun hm k => ?_, ?_⟩ <;> simp only [step, hk] at *
  · exact h.lock j hj
  · exact h.mapped hs
  · exact h.creating j hj
  · exact h.stopping j hj
  · exact h.resetting j hj
  · by_cases hki : k = i
    · subst hki
      rw [Function.update_self]
      by_contra hh
      rcases Pc.holds_step spurious (Bool.not_eq_false _ ▸ hh) with ho | ho
      · exact absurd (h.unmapped hm k) (by simp [ho])
      · exact absurd (h.mapped ho) (by simp [hm])
    · simpa [hki] using h.unmapped hm k
  · rw [h.fault, Bool.false_or]
    cases hm : s.mapped with
    | true => simp
    | false =>
      have hh := h.unmapped hm i
      cases ht : (s.thread i).touches with
      | false => rfl
      | true => exact absurd (Pc.holds_of_touches ht) (by simp [hh])

theorem Safe.outside (h : s.Safe) {j k : Nat} (hj : (s.control j).inside = true) (hk : k ≠ j) :
    (s.control k).inside = false := by
  by_contra hh
  have he := h.lock k (by simpa using hh)
  rw [h.lock j hj] at he
  exact hk (Option.some.inj he).symm

/-- What a caller may do that alone is inside before and after its step. -/
theorem Safe.alone {t : Lifetime} {j : Nat} {pc : ControlPc} (hf : t.fault = false)
    (hc : t.control = Function.update s.control j pc)
    (hout : ∀ k, k ≠ j → (s.control k).inside = false) (hl : pc.inside = true → t.mutex = some j)
    (hm : t.state = true → t.mapped = true) (hcreate : pc = .startStore → t.mapped = true)
    (hstop : pc = .stopStoreLifecycle → t.mapped = true)
    (hreset : pc = .stopStoreLifecycle ∨ pc = .stopReset → t.state = false)
    (hu : t.mapped = false → ∀ i, (t.thread i).holds = false) : t.Safe := by
  have hown : ∀ k, (t.control k).inside = true → k = j ∧ t.control k = pc := by
    intro k hk
    by_cases hkj : k = j
    · exact ⟨hkj, by rw [hc, hkj, Function.update_self]⟩
    · rw [hc, Function.update_of_ne hkj, hout k hkj] at hk
      cases hk
  have hat : ∀ k pc', t.control k = pc' → pc'.inside = true → pc = pc' := by
    intro k pc' hk hi
    rw [← (hown k (hk ▸ hi)).2, hk]
  refine ⟨fun k hk => ?_, hm, fun k hk => hcreate (hat k _ hk rfl),
    fun k hk => hstop (hat k _ hk rfl), fun k hk => hreset ?_, hu, hf⟩
  · obtain ⟨rfl, he⟩ := hown k hk
    exact hl (he ▸ hk)
  · exact hk.imp (hat k _ · rfl) (hat k _ · rfl)

theorem Safe.control (h : s.Safe) {j : Nat} {created : Option SharedState}
    (hG : Drained s (.control j created)) : (s.step (.control j created)).Safe := by
  have hfault {b : Bool} (hb : b = true → s.mapped = true) :
      (s.fault || b && !s.mapped) = false := by
    cases b with
    | false => simp [h.fault]
    | true => simp [h.fault, hb rfl]
  have hsame : (s.control j).step j created s.toShared = (s.control j, s.toShared) →
      (s.control j).touches = false → (s.step (.control j created)).Safe := by
    intro hst ht
    have he : s.step (.control j created) = s := by
      simp [Lifetime.step, hst, ht]
    rwa [he]
  have hfree : s.mutex = none → ∀ k, k ≠ j → (s.control k).inside = false := by
    intro hn k _
    by_contra hh
    cases (h.lock k (by simpa using hh)).symm.trans hn
  cases hc : s.control j with
  | idle => exact hsame (by rw [hc]; rfl) (by rw [hc]; rfl)
  | startLock =>
    by_cases hn : s.mutex = none
    · simp only [Lifetime.step, hc, ControlPc.step, ControlPc.touches, hn, if_true]
      exact .alone (hfault nofun) rfl (hfree hn) (fun _ => rfl) h.mapped nofun nofun nofun
        h.unmapped
    · exact hsame (by simp [hc, ControlPc.step, hn]) (by rw [hc]; rfl)
  | stopLock =>
    by_cases hn : s.mutex = none
    · simp only [Lifetime.step, hc, ControlPc.step, ControlPc.touches, hn, if_true]
      exact .alone (hfault nofun) rfl (hfree hn) (fun _ => rfl) h.mapped nofun nofun nofun
        h.unmapped
    · exact hsame (by simp [hc, ControlPc.step, hn]) (by rw [hc]; rfl)
  | startLoad =>
    have hj : (s.control j).inside = true := by rw [hc]; rfl
    simp only [Lifetime.step, hc, ControlPc.step, ControlPc.touches]
    split <;> exact .alone (hfault nofun) rfl (fun _ => h.outside hj) (fun _ => h.lock j hj)
      h.mapped nofun nofun nofun h.unmapped
  | startCreate =>
    have hj : (s.control j).inside = true := by rw [hc]; rfl
    cases created with
    | none =>
      simp only [Lifetime.step, hc, ControlPc.step, ControlPc.touches]
      exact .alone (hfault nofun) rfl (fun _ => h.outside hj) (fun _ => h.lock j hj)
        h.mapped nofun nofun nofun h.unmapped
    | some m =>
      simp only [Lifetime.step, hc, ControlPc.step, ControlPc.touches]
      exact .alone (hfault nofun) rfl (fun _ => h.outside hj) (fun _ => h.lock j hj)
        (fun _ => rfl) (fun _ => rfl) nofun nofun nofun
  | startStore =>
    have hj : (s.control j).inside = true := by rw [hc]; rfl
    simp only [Lifetime.step, hc, ControlPc.step, ControlPc.touches]
    exact .alone (hfault nofun) rfl (fun _ => h.outside hj) (fun _ => h.lock j hj)
      (fun _ => h.creating j hc) nofun nofun nofun h.unmapped
  | stopExchange =>
    have hj : (s.control j).inside = true := by rw [hc]; rfl
    simp only [Lifetime.step, hc, ControlPc.step, ControlPc.touches]
    split
    · next hs =>
      exact .alone (hfault nofun) rfl (fun _ => h.outside hj) (fun _ => h.lock j hj)
        nofun nofun (fun _ => h.mapped hs) (fun _ => rfl) h.unmapped
    · exact .alone (hfault nofun) rfl (fun _ => h.outside hj) (fun _ => h.lock j hj)
        nofun nofun nofun (fun _ => rfl) h.unmapped
  | stopStoreLifecycle =>
    have hj : (s.control j).inside = true := by rw [hc]; rfl
    simp only [Lifetime.step, hc, ControlPc.step, ControlPc.touches, Shared.setMem]
    exact .alone (hfault fun _ => h.stopping j hc) rfl (fun _ => h.outside hj)
      (fun _ => h.lock j hj) h.mapped nofun nofun (fun _ => h.resetting j (.inl hc)) h.unmapped
  | stopReset =>
    -- the only step that takes the mapping away
    have hj : (s.control j).inside = true := by rw [hc]; rfl
    have hs : s.state = false := h.resetting j (.inr hc)
    simp only [Lifetime.step, hc, ControlPc.step, ControlPc.touches]
    exact .alone (hfault nofun) rfl (fun _ => h.outside hj) (fun _ => h.lock j hj)
      (fun ht => (nomatch hs.symm.trans ht)) nofun nofun nofun (fun _ => hG hc)
  | unlock =>
    have hj : (s.control j).inside = true := by rw [hc]; rfl
    simp only [Lifetime.step, hc, ControlPc.step, ControlPc.touches]
    exact .alone (hfault nofun) rfl (fun _ => h.outside hj) nofun h.mapped nofun nofun nofun
      h.unmapped

theorem Safe.step (h : s.Safe) {e : LifetimeEvent} (hG : Drained s e) : (s.step e).Safe := by
  obtain ⟨h₁, h₂, h₃, h₄, h₅, h₆, h₇⟩ := id h
  cases e with
  | thread i spurious => exact h.thread i spurious
  | control j created => exact h.control hG
  | call i call =>
    have hc : (Pc.start call).holds = false := by cases call <;> rfl
    simp only [Lifetime.step]
    split
    · exact ⟨h₁, h₂, h₃, h₄, h₅, by grind, h₇⟩
    · exact h
  | start j =>
    simp only [Lifetime.step]
    split
    · exact ⟨by grind [ControlPc.inside], h₂, by grind, by grind, by grind, h₆, h₇⟩
    · exact h
  | stop j =>
    simp only [Lifetime.step]
    split
    · exact ⟨by grind [ControlPc.inside], h₂, by grind, by grind, by grind, h₆, h₇⟩
    · exact h
  | tick now =>
    simp only [Lifetime.step]
    split
    · exact ⟨h₁, h₂, h₃, h₄, h₅, h₆, h₇⟩
    · exact h
  | watcher mem => exact ⟨h₁, h₂, h₃, h₄, h₅, h₆, h₇⟩

theorem Initial.safe (h : s.Initial) : s.Safe where
  lock j hj := by simp [h.control, ControlPc.inside] at hj
  mapped hs := by simp [h.state] at hs
  creating j hj := by simp [h.control] at hj
  stopping j hj := by simp [h.control] at hj
  resetting j hj := by simp [h.control] at hj
  unmapped _ i := by simp [h.thread, Pc.holds]
  fault := h.fault

/-- No access goes through the pointer to an unmapped region, as long as no
mapping is reset under a call that holds it. -/
theorem no_fault_of_drained {es : List LifetimeEvent} (h : s.Initial)
    (hG : Permits Lifetime.step Drained s es) :
    Always Lifetime.step (fun t => t.fault = false) s es :=
  (always_of_permits (fun _ _ hs hg => hs.step hg) h.safe hG).imp fun _ hs => hs.fault

def constructed : Lifetime where
  state := false
  mapped := false
  mutex := none
  mem := {}
  nextHeartbeatNs := fun _ => 0
  clock := 0
  thread := fun _ => .idle
  control := fun _ => .idle
  fault := false

theorem initial_constructed : constructed.Initial :=
  ⟨rfl, rfl, rfl, fun _ => rfl, fun _ => rfl, rfl⟩

def loaded : List LifetimeEvent :=
  .start 0 :: List.replicate 5 (.control 0 (some (.createProcessMapping 1 0 (some 1) []))) ++
    [.call 0 (.heartbeat .main), .thread 0 false]

def stopped : List LifetimeEvent := .stop 1 :: List.replicate 5 (.control 1 none)

/-- A heartbeat that finds no watcher, then `stop`. -/
theorem no_fault_of_drained_stopped :
    Always Lifetime.step (fun t => t.fault = false) constructed
      (loaded ++ [.thread 0 false] ++ stopped) := by
  refine no_fault_of_drained initial_constructed ?_
  simp [loaded, stopped, List.replicate, Permits, Drained, step, constructed, ControlPc.step,
    ControlPc.touches, Pc.start, Pc.step, Pc.touches, Shared.setMem, Pc.holds,
    SharedState.createProcessMapping]

/-- `stop` unmaps the region between the load of the pointer and the load of
`watcher_present`. -/
theorem access_after_unmap :
    constructed.Initial ∧
      (run Lifetime.step constructed (loaded ++ stopped ++ [.thread 0 false])).fault = true :=
  ⟨initial_constructed, by decide⟩

end Lifetime

end Peepbooth
