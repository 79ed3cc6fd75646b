import Peepbooth.Watchdog
import Peepbooth.Schedule

/-! The variables of a watcher that hold a session, and the shared states they
map. The lease lies in the shared state, not in the session. -/

namespace Peepbooth

open Schedule

/-- `P` tells the mapped shared states apart. -/
structure WatchdogSession (P : Type*) where
  mapping : Option P := none

/-- The variables in `V` that are alive have a session. -/
structure Sessions (V P : Type*) where
  session : V → Option (WatchdogSession P)
  memory : P → SharedState
  clock : UInt64

/-- `attach` succeeds and leaves its result in a variable of its own, which an
assignment then moves on. `outside` is a store by anybody else. -/
inductive SessionCall (V P : Type*)
  | construct (dest : V)
  | attach (dest : V) (process : P)
  | moveConstruct (dest source : V)
  | moveAssign (dest source : V)
  | renewLease (v : V)
  | release (v : V)
  | destroy (v : V)
  | tick (now : UInt64)
  | outside (process : P) (m : SharedState)

/-- The variable that a call gives a new session. -/
def SessionCall.dest {V P : Type*} : SessionCall V P → Option V
  | .construct dest => some dest
  | .attach dest _ => some dest
  | .moveConstruct dest _ => some dest
  | .moveAssign dest _ => some dest
  | _ => none

namespace Sessions

variable {V P : Type*} [DecidableEq V] [DecidableEq P] {s : Sessions V P}
  {call : SessionCall V P} {dest source v : V} {p : P}

def store (s : Sessions V P) (v : V) (session : Option (WatchdogSession P)) : Sessions V P :=
  { s with session := Function.update s.session v session }

def change (s : Sessions V P) (p : P) (f : SharedState → SharedState) : Sessions V P :=
  { s with memory := Function.update s.memory p (f (s.memory p)) }

/-- `watchdog_session::release` -/
def release (s : Sessions V P) (v : V) : Sessions V P :=
  match s.session v with
  | some ⟨some p⟩ => (s.change p SharedState.release).store v (some {})
  | _ => s

/-- The exchange of the mapping: the source is left empty. -/
def exchange (s : Sessions V P) (dest source : V) : Sessions V P :=
  (s.store dest (s.session source)).store source (some {})

/-- A call that its variables do not allow does nothing. -/
def step (s : Sessions V P) : SessionCall V P → Sessions V P
  | .construct dest => if s.session dest = none then s.store dest (some {}) else s
  | .attach dest process =>
    if s.session dest = none then
      (s.store dest (some ⟨some process⟩)).change process (·.renewLease s.clock)
    else s
  | .moveConstruct dest source =>
    if s.session dest = none ∧ s.session source ≠ none then s.exchange dest source else s
  | .moveAssign dest source =>
    if s.session dest ≠ none ∧ s.session source ≠ none ∧ dest ≠ source then
      (s.release dest).exchange dest source
    else s
  | .renewLease v =>
    match s.session v with
    | some ⟨some p⟩ => s.change p (·.renewLease s.clock)
    | _ => s
  | .release v => s.release v
  | .destroy v => (s.release v).store v none
  | .tick now => if s.clock ≤ now then { s with clock := now } else s
  | .outside process m => s.change process fun _ => m

/-- `call` moves the session of `source` to `dest`. -/
def Moves (s : Sessions V P) (call : SessionCall V P) (dest source : V) : Prop :=
  (call = .moveConstruct dest source ∧ s.session dest = none ∨
    call = .moveAssign dest source ∧ s.session dest ≠ none) ∧ s.session source ≠ none

/-- The session in `v` maps `p`, which has a live lease. -/
structure HoldsLease (s : Sessions V P) (v : V) (p : P) : Prop where
  session : s.session v = some ⟨some p⟩
  present : (s.memory p).watcherPresent = 1
  unexpired : s.clock ≤ (s.memory p).watcherLeaseUntilNs

/-- A move of a live lease hands over the mapping and leaves the lease as it was. -/
def Transfers (s : Sessions V P) (call : SessionCall V P) : Prop :=
  ∀ dest source p, s.Moves call dest source → s.HoldsLease source p →
    (s.step call).session dest = some ⟨some p⟩ ∧
      ((s.step call).memory p).watcherPresent = 1 ∧
      ((s.step call).memory p).watcherLeaseUntilNs = (s.memory p).watcherLeaseUntilNs

/-- The target of such a move is no other session on the same shared state. -/
def Apart (s : Sessions V P) (call : SessionCall V P) : Prop :=
  ∀ dest source p, s.Moves call dest source → s.HoldsLease source p → dest ≠ source →
    s.session dest ≠ some ⟨some p⟩

omit [DecidableEq P] in
theorem exchange_dest (h : dest ≠ source) :
    (s.exchange dest source).session dest = s.session source := by
  simp [exchange, store, h]

omit [DecidableEq P] in
theorem exchange_source (s : Sessions V P) (dest source : V) :
    (s.exchange dest source).session source = some {} := by
  simp [exchange, store]

theorem release_session_ne (h : v ≠ dest) : (s.release dest).session v = s.session v := by
  unfold release
  split
  · simp [store, change, h]
  · rfl

theorem release_memory_ne (h : s.session v ≠ some ⟨some p⟩) :
    (s.release v).memory p = s.memory p := by
  unfold release
  split
  · next q hq =>
    refine Function.update_of_ne (fun hpq => h ?_) _ _
    rw [hpq]
    exact hq
  · rfl

theorem release_memory (h : s.session v = some ⟨some p⟩) :
    (s.release v).memory p = (s.memory p).release := by
  simp [release, h, store, change]

theorem transfers_iff (s : Sessions V P) (call : SessionCall V P) :
    s.Transfers call ↔ s.Apart call := by
  refine forall_congr' fun dest => forall_congr' fun source => forall_congr' fun p => ?_
  refine forall_congr' fun hm => forall_congr' fun hl => ?_
  obtain ⟨⟨rfl, hd⟩ | ⟨rfl, hd⟩, hs⟩ := hm
  · have hne : dest ≠ source := fun h => hs (h ▸ hd)
    have hstep : s.step (.moveConstruct dest source) = s.exchange dest source := if_pos ⟨hd, hs⟩
    rw [hstep, exchange_dest hne, hd]
    exact iff_of_true ⟨hl.session, hl.present, rfl⟩ fun _ => by simp
  · by_cases hne : dest = source
    · have hstep : s.step (.moveAssign dest source) = s := if_neg fun h => h.2.2 hne
      rw [hstep, hne]
      exact iff_of_true ⟨hl.session, hl.present, rfl⟩ fun h => absurd rfl h
    · have hstep : s.step (.moveAssign dest source) = (s.release dest).exchange dest source :=
        if_pos ⟨hd, hs, hne⟩
      have hmem : ((s.release dest).exchange dest source).memory = (s.release dest).memory := rfl
      rw [hstep, exchange_dest hne, release_session_ne (Ne.symm hne), hmem]
      by_cases hp : s.session dest = some ⟨some p⟩
      · rw [release_memory hp]
        exact iff_of_false (fun h => by cases h.2.1) fun h => h hne hp
      · rw [release_memory_ne hp]
        exact iff_of_true ⟨hl.session, hl.present, rfl⟩ fun _ => hp

theorem Moves.empties (h : s.Moves call dest source) (hne : dest ≠ source) :
    (s.step call).session source = some {} := by
  obtain ⟨⟨rfl, hd⟩ | ⟨rfl, hd⟩, hs⟩ := h
  · rw [show s.step (.moveConstruct dest source) = s.exchange dest source from if_pos ⟨hd, hs⟩]
    exact exchange_source s dest source
  · rw [show s.step (.moveAssign dest source) = (s.release dest).exchange dest source from
      if_pos ⟨hd, hs, hne⟩]
    exact exchange_source _ dest source

theorem release_session (s : Sessions V P) (v w : V) :
    (s.release w).session v = s.session v ∨ (s.release w).session v = some {} := by
  unfold release
  split
  · by_cases h : v = w
    · exact .inr (by simp [h, store])
    · exact .inl (by simp [h, store, change])
  · exact .inl rfl

omit [DecidableEq P] in
theorem exchange_session (s : Sessions V P) (source : V) (h : v ≠ dest) :
    (s.exchange dest source).session v = s.session v ∨
      (s.exchange dest source).session v = some {} := by
  by_cases hs : v = source
  · exact .inr (by simp [hs, exchange, store])
  · exact .inl (by simp [hs, h, exchange, store])

/-- No session gains a mapping except by a call that makes it anew. -/
theorem step_session (s : Sessions V P) (hc : call.dest ≠ some v) :
    (s.step call).session v = s.session v ∨ (s.step call).session v = some {} ∨
      (s.step call).session v = none := by
  have hne : ∀ {d : V}, some d ≠ some v → v ≠ d := fun h he => h (congrArg some he.symm)
  cases call with
  | construct d =>
    simp only [step]
    split
    · exact .inl (by simp [store, hne hc])
    · exact .inl rfl
  | attach d q =>
    simp only [step]
    split
    · exact .inl (by simp [store, change, hne hc])
    · exact .inl rfl
  | moveConstruct d w =>
    simp only [step]
    split
    · exact (exchange_session s _ (hne hc)).imp_right .inl
    · exact .inl rfl
  | moveAssign d w =>
    simp only [step]
    split
    · rcases exchange_session (s.release d) w (hne hc) with h | h
      · exact .inl (h.trans (release_session_ne (hne hc)))
      · exact .inr (.inl h)
    · exact .inl rfl
  | renewLease w =>
    simp only [step]
    split <;> exact .inl rfl
  | release w => exact (release_session s v w).imp_right .inl
  | destroy w =>
    by_cases h : v = w
    · exact .inr (.inr (by simp [step, store, h]))
    · refine .inl ?_
      rw [show (s.step (.destroy w)).session v = (s.release w).session v by simp [step, store, h]]
      exact release_session_ne h
  | tick now =>
    simp only [step]
    split <;> exact .inl rfl
  | outside q m => exact .inl rfl

/-- What a moved-from variable may hold until it is given a new session. -/
def Unmapped (v : V) (s : Sessions V P) : Prop := ∀ p, s.session v ≠ some ⟨some p⟩

theorem Unmapped.step (h : Unmapped v s) (hc : call.dest ≠ some v) : Unmapped v (s.step call) := by
  intro p
  rcases s.step_session hc with hs | hs | hs
  · rw [hs]
    exact h p
  · simp [hs]
  · simp [hs]

theorem Unmapped.memory (h : Unmapped v s) {c : SessionCall V P}
    (hc : c = .release v ∨ c = .destroy v) : (s.step c).memory = s.memory := by
  have hr : (s.release v).memory = s.memory := funext fun p => release_memory_ne (h p)
  rcases hc with rfl | rfl
  · exact hr
  · exact hr

/-- In any sequence of calls the moves transfer the lease exactly where none moves
a session over another one of the same shared state. What has been moved from
stores nothing when it is released or destroyed later. -/
theorem moves_transfer_iff (s : Sessions V P) (calls : List (SessionCall V P)) :
    (Permits step Transfers s calls ↔ Permits step Apart s calls) ∧
      ∀ before call after dest source, calls = before ++ call :: after →
        (run step s before).Moves call dest source → dest ≠ source →
        (∀ c ∈ after, c.dest ≠ some source) →
        ∀ c, c = .release source ∨ c = .destroy source →
          ((run step s calls).step c).memory = (run step s calls).memory := by
  refine ⟨⟨Permits.imp fun s c => (transfers_iff s c).mp,
    Permits.imp fun s c => (transfers_iff s c).mpr⟩, ?_⟩
  rintro before call after dest source rfl hm hne hafter c hc
  rw [run_append, run_cons]
  refine Unmapped.memory (invariant_of_permits (fun t e => Unmapped.step) ?_
    (permits_of_forall fun e he _ => hafter e he)) hc
  intro p
  rw [hm.empties hne]
  simp

/-- Two sessions on one process, and a move of the second over the first. -/
def twice : List (SessionCall Nat Unit) := [.attach 0 (), .attach 1 ()]

theorem moveAssign_clears :
    let start : Sessions Nat Unit := ⟨fun _ => none, fun _ => {}, 5⟩
    let s := run step start twice
    ¬Permits step Transfers start (twice ++ [.moveAssign 0 1]) ∧
      s.session 0 = some ⟨some ()⟩ ∧ s.HoldsLease 1 () ∧
      ((s.step (.moveAssign 0 1)).memory ()).watcherPresent = 0 ∧
      ((s.step (.moveAssign 0 1)).memory ()).watcherLeaseUntilNs = 0 := by
  intro start s
  have hl : s.HoldsLease 1 () := ⟨rfl, rfl, by decide⟩
  have h0 : s.session 0 = some ⟨some ()⟩ := rfl
  refine ⟨fun h => ?_, h0, hl, rfl, rfl⟩
  have hm : s.Moves (.moveAssign 0 1) 0 1 := ⟨.inr ⟨rfl, by simp [h0]⟩, by simp [hl.session]⟩
  have hlast := ((permits_append.mp h).2.1 0 1 () hm hl).2.1
  cases hlast

end Sessions

end Peepbooth
