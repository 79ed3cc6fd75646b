import Peepbooth.ObservedProcess
import Peepbooth.CommandLine
import Peepbooth.Ledger

/-! A run of the console watcher on one producer, from the moment it has a handle
on the process. The watcher's operations and the producer's calls are made one at
a time, in any order. -/

namespace Peepbooth

open Schedule

/-- `process_handle::wait_for_exit`, at the moment it returns -/
def ProcessHandle.waitForExit (h : ProcessHandle) : Reads Bool :=
  if h.hasDescriptor then .read .exitSignal (·.process.exitReadable)
  else do
    let isAlive ← h.alive
    pure (!isAlive)

/-- `observed_process::try_attach`: the owner it leaves, and what it does to the mapping. -/
def ObservedProcess.tryAttach (o : ObservedProcess) (uid : UInt32) (w : World) :
    ObservedProcess × List Operation :=
  if o.attached then (o, [])
  else if !o.process.alive.run w then (o, [])
  else if w.process.stateOpens ∧ w.mem.validState o.process.identity uid then
    ({ o with attached := true }, [.attach w.clock])
  else (o, [])

inductive ConsoleError
  | noState
  | identityChanged
  | sampleUnavailable
  deriving DecidableEq, Repr

def ConsoleError.message (pid : UInt32) : ConsoleError → String
  | .noState => "monitor: PID " ++ toString pid ++ " has no compatible watchdog state\n"
  | .identityChanged => "monitor: PID " ++ toString pid ++ " process identity changed\n"
  | .sampleUnavailable => "monitor: PID " ++ toString pid ++ " resource sample unavailable\n"

/-- Where `run_console_watch` stands. In a poll, `seen` is all that had been done
to the mapping when the snapshot was taken; the program does not know it. -/
inductive ConsolePhase
  | attaching (attempt : Nat)
  | pausing (attempt : Nat)
  | polling
  | sampled (sample : Option ProcessSample)
  | snapped (sample : Option ProcessSample) (snapshot : WatchdogSnapshot) (seen : List Operation)
  | judged (sample : Option ProcessSample) (snapshot : WatchdogSnapshot) (seen : List Operation)
      (isAlive : Bool)
  | waiting
  | closing
  | finished (code : Nat)

structure Printed where
  seen : List Operation
  observation : ProcessObservation

/-- `history` is all that has been done to the mapping, `lifecycle` what the line
about the exit says. -/
structure Console where
  client : Client
  mapped : client.mapping.isSome = true
  observer : ObservedProcess
  phase : ConsolePhase := .attaching 0
  stopRequested : Bool := false
  printed : List Printed := []
  error : Option String := none
  lifecycle : Option UInt32 := none
  history : List Operation := []

/-- `outside` is the producer, or a watcher other than this one. `watch` is the
next operation of this watcher, on a process that shows `view`. -/
inductive ConsoleEvent
  | outside (op : Operation)
  | watch (view : ProcessView) (now : UInt64)
  | interrupt

def ConsoleEvent.callClock : ConsoleEvent → Option UInt64
  | .outside op => op.clock
  | _ => none

def ConsoleEvent.clock : ConsoleEvent → Option UInt64
  | .outside op => op.clock
  | .watch _ now => some now
  | .interrupt => none

@[simp] theorem callClock_outside (op : Operation) :
    (ConsoleEvent.outside op).callClock = op.clock := rfl

@[simp] theorem callClock_watch (view : ProcessView) (now : UInt64) :
    (ConsoleEvent.watch view now).callClock = none := rfl

theorem callClock_sublist (es : List ConsoleEvent) :
    (es.filterMap ConsoleEvent.callClock).Sublist (es.filterMap ConsoleEvent.clock) := by
  induction es with
  | nil => exact .slnil
  | cons e es ih =>
    cases e with
    | outside op =>
      rw [List.filterMap_cons, List.filterMap_cons]
      cases ho : op.clock <;> simp [ConsoleEvent.callClock, ConsoleEvent.clock, ho, ih]
    | watch view now => exact ih.cons now
    | interrupt => exact ih

theorem operate_isSome {identity : ProcessIdentity} {uid : UInt32} {c : Client} (op : Operation)
    (h : c.mapping.isSome = true) : (c.operate identity uid op).mapping.isSome = true := by
  obtain ⟨m, hm⟩ := Option.isSome_iff_exists.mp h
  cases op with
  | call now call =>
    obtain ⟨m', hm', -⟩ := call_effect now hm call
    exact Option.isSome_iff_exists.mpr ⟨m', hm'⟩
  | _ => simp [Client.operate, hm]

theorem run_operate_isSome {identity : ProcessIdentity} {uid : UInt32} {c : Client}
    (ops : List Operation) (h : c.mapping.isSome = true) :
    (run (Client.operate identity uid) c ops).mapping.isSome = true :=
  invariant_of_step (I := fun c : Client => c.mapping.isSome = true)
    (fun _ op => operate_isSome op) h ops

namespace Console

variable (options : ConsoleOptions) (uid : UInt32)

def start (process : ProcessHandle) (name : List UInt8) : Console where
  client := clientAfter process.identity uid name []
  mapped := rfl
  observer :=
    { process := process
      staleAfterNs := UInt64.ofInt options.staleMs * 1000000
      latest := { identity := process.identity } }

def memory (c : Console) : SharedState := c.client.mapping.get c.mapped

def perform (c : Console) (ops : List Operation) : Console :=
  { c with
    client := run (Client.operate c.observer.process.identity uid) c.client ops
    mapped := run_operate_isSome ops c.mapped
    history := c.history ++ ops }

def fail (c : Console) (e : ConsoleError) : Console :=
  { c with phase := .finished 1, error := some (e.message options.pid) }

/-- What follows the loop of attempts. -/
def settle (c : Console) : Console :=
  if c.stopRequested then { c with phase := .finished 0 }
  else if c.observer.attached then { c with phase := .polling }
  else c.fail options .noState

def attempt (c : Console) (n : Nat) (w : World) : Console :=
  if n < 50 ∧ ¬c.stopRequested ∧ c.observer.process.alive.run w then
    let r := c.observer.tryAttach uid w
    let c := { c.perform uid r.2 with observer := r.1 }
    if r.1.attached then c.settle options else { c with phase := .pausing n }
  else c.settle options

/-- The last step of a poll, and what the loop makes of its observation. -/
def conclude (c : Console) (r : PollReads) (seen : List Operation) : Console :=
  let observer := c.observer.conclude r
  let ops := if r.isAlive then [.renew r.now defaultWatcherLeaseNs] else []
  let c := { c.perform uid ops with observer := observer }
  match observer.latest.status with
  | .exited => { c with phase := .closing }
  | .sampled =>
    { c with
      printed := c.printed ++ [⟨seen, observer.latest⟩]
      phase := if options.once then .closing else .waiting }
  | .identityChanged => c.fail options .identityChanged
  | _ => c.fail options .sampleUnavailable

/-- What follows the loop of polls. -/
def close (c : Console) (w : World) : Console :=
  if c.observer.process.alive.run w then { c with phase := .finished 0 }
  else
    let observer := (c.observer.poll w).1
    { c with
      observer := observer
      lifecycle := some observer.latest.watchdog.processLifecycle
      phase := .finished 0 }

/-- One operation of the watcher in the world `w`. -/
def advance (c : Console) (w : World) : Console :=
  match c.phase with
  | .attaching n => c.attempt options uid n w
  | .pausing n =>
    if c.observer.process.waitForExit.run w then c.settle options
    else { c with phase := .attaching (n + 1) }
  | .polling =>
    if c.stopRequested then { c with phase := .closing }
    else { c with phase := .sampled ((sampleProcess c.observer.process.identity.pid).run w) }
  | .sampled sample => { c with phase := .snapped sample (snapshot.run w) c.history }
  | .snapped sample snapshot seen =>
    { c with phase := .judged sample snapshot seen (c.observer.process.alive.run w) }
  | .judged sample snapshot seen isAlive =>
    c.conclude options uid ⟨sample, snapshot, isAlive, w.clock⟩ seen
  | .waiting =>
    { c with phase := if c.observer.process.waitForExit.run w then .closing else .polling }
  | .closing => c.close w
  | .finished _ => c

def step (c : Console) : ConsoleEvent → Console
  | .outside op => c.perform uid [op]
  | .watch view now => c.advance options uid ⟨c.memory, now, view⟩
  | .interrupt => { c with stopRequested := true }

end Console

/-- `w` is the snapshot of the memory that the operations `seen` leave. -/
def TakenAfter (process : ProcessHandle) (uid : UInt32) (name : List UInt8)
    (seen : List Operation) (w : WatchdogSnapshot) : Prop :=
  ∃ v, (clientAfter process.identity uid name seen).mapping = some v.mem ∧ w = snapshot.run v

def ConsolePhase.taken : ConsolePhase → Option (List Operation × WatchdogSnapshot)
  | .snapped _ snapshot seen => some (seen, snapshot)
  | .judged _ snapshot seen _ => some (seen, snapshot)
  | _ => none

namespace Console

section Runs

variable (options : ConsoleOptions) (uid : UInt32) (process : ProcessHandle) (name : List UInt8)

def staleAfterNs : UInt64 := UInt64.ofInt options.staleMs * 1000000

/-- A printed observation is the verdict on what its snapshot found. -/
structure Verdict (p : Printed) : Prop where
  taken : TakenAfter process uid name p.seen p.observation.watchdog
  responsiveness : ∃ cpu, p.observation.responsiveness =
    some (classifyHealth p.observation.watchdog p.observation.observedAtNs
      (staleAfterNs options) cpu)

structure Backed (c : Console) : Prop where
  client : c.client = clientAfter process.identity uid name c.history
  observer : c.observer.process = process ∧ c.observer.staleAfterNs = staleAfterNs options
  taken : ∀ t, c.phase.taken = some t → t.1 <+: c.history ∧ TakenAfter process uid name t.1 t.2
  printed : ∀ p ∈ c.printed, p.seen <+: c.history ∧ Verdict options uid process name p

variable {options uid process name} {c c' : Console} {w : World}

theorem Backed.start (options : ConsoleOptions) (uid : UInt32) (process : ProcessHandle)
    (name : List UInt8) : Backed options uid process name (start options uid process name) :=
  ⟨rfl, ⟨rfl, rfl⟩, fun _ h => (nomatch h), fun _ h => (nomatch h)⟩

theorem Backed.perform (h : Backed options uid process name c) (ops : List Operation) :
    Backed options uid process name (c.perform uid ops) where
  client := by
    simp only [Console.perform, clientAfter, run_append, h.client, h.observer.1]
  observer := h.observer
  taken t ht := ⟨(h.taken t ht).1.trans (List.prefix_append _ _), (h.taken t ht).2⟩
  printed p hp := ⟨(h.printed p hp).1.trans (List.prefix_append _ _), (h.printed p hp).2⟩

theorem Backed.moved (h : Backed options uid process name c) (hc : c'.client = c.client)
    (hh : c'.history = c.history) (ho : c'.observer.process = c.observer.process)
    (hs : c'.observer.staleAfterNs = c.observer.staleAfterNs) (hp : c'.printed = c.printed)
    (ht : c'.phase.taken = none ∨ c'.phase.taken = c.phase.taken) :
    Backed options uid process name c' where
  client := by rw [hc, hh, h.client]
  observer := ⟨ho.trans h.observer.1, hs.trans h.observer.2⟩
  taken t htt := by
    rcases ht with hn | he
    · rw [hn] at htt
      cases htt
    · rw [hh]
      exact h.taken t (he ▸ htt)
  printed := by rw [hp, hh]; exact h.printed

theorem Backed.settle (h : Backed options uid process name c) :
    Backed options uid process name (c.settle options) := by
  unfold Console.settle
  split
  · exact h.moved rfl rfl rfl rfl rfl (.inl rfl)
  · split
    · exact h.moved rfl rfl rfl rfl rfl (.inl rfl)
    · exact h.moved rfl rfl rfl rfl rfl (.inl rfl)

theorem tryAttach_cases (o : ObservedProcess) (uid : UInt32) (w : World) :
    o.tryAttach uid w = (o, []) ∨
      o.tryAttach uid w = ({ o with attached := true }, [.attach w.clock]) := by
  unfold ObservedProcess.tryAttach
  repeat' split
  · exact .inl rfl
  · exact .inl rfl
  · exact .inr rfl
  · exact .inl rfl

theorem tryAttach_process (o : ObservedProcess) (uid : UInt32) (w : World) :
    (o.tryAttach uid w).1.process = o.process ∧
      (o.tryAttach uid w).1.staleAfterNs = o.staleAfterNs := by
  rcases tryAttach_cases o uid w with hr | hr <;> rw [hr] <;> exact ⟨rfl, rfl⟩

theorem Backed.attempt (h : Backed options uid process name c) (n : Nat) (w : World) :
    Backed options uid process name (c.attempt options uid n w) := by
  unfold Console.attempt
  split
  case isFalse => exact h.settle
  have ho := tryAttach_process c.observer uid w
  have hp := h.perform (c.observer.tryAttach uid w).2
  dsimp only
  split
  · exact Backed.settle (c := { c.perform uid (c.observer.tryAttach uid w).2 with
      observer := (c.observer.tryAttach uid w).1 }) (hp.moved rfl rfl ho.1 ho.2 rfl (.inr rfl))
  · exact hp.moved rfl rfl ho.1 ho.2 rfl (.inl rfl)

theorem Backed.conclude (h : Backed options uid process name c) {r : PollReads}
    {seen : List Operation} (hs : seen <+: c.history)
    (ht : TakenAfter process uid name seen r.snapshot) :
    Backed options uid process name (c.conclude options uid r seen) := by
  have hp := h.perform (if r.isAlive then [.renew r.now defaultWatcherLeaseNs] else [])
  have ho := c.observer.conclude_process r
  have hst := c.observer.conclude_staleAfterNs r
  unfold Console.conclude
  dsimp only
  split
  · exact hp.moved rfl rfl ho hst rfl (.inl rfl)
  · next hstatus =>
    obtain ⟨-, _, -, -, -, cpu, hcpu⟩ := ObservedProcess.conclude_sampled hstatus
    refine ⟨hp.client, ⟨ho.trans h.observer.1, hst.trans h.observer.2⟩, fun t htt => ?_,
      fun p hmem => ?_⟩
    · cases ho : options.once <;> simp [ho, ConsolePhase.taken] at htt
    · rcases List.mem_append.mp hmem with hold | hnew
      · exact hp.printed p hold
      · obtain rfl := List.mem_singleton.mp hnew
        refine ⟨hs.trans (List.prefix_append _ _), ?_, cpu, ?_⟩
        · rw [ObservedProcess.conclude_watchdog]
          exact ht
        · rw [ObservedProcess.conclude_watchdog, ObservedProcess.conclude_observedAtNs,
            ← h.observer.2]
          exact hcpu
  · exact hp.moved rfl rfl ho hst rfl (.inl rfl)
  · exact hp.moved rfl rfl ho hst rfl (.inl rfl)

theorem poll_process (o : ObservedProcess) (w : World) :
    (o.poll w).1.process = o.process ∧ (o.poll w).1.staleAfterNs = o.staleAfterNs := by
  unfold ObservedProcess.poll
  split
  · exact ⟨o.conclude_process _, o.conclude_staleAfterNs _⟩
  · exact ⟨rfl, rfl⟩

theorem Backed.advance (h : Backed options uid process name c) (hm : w.mem = c.memory) :
    Backed options uid process name (c.advance options uid w) := by
  have htaken := h.taken
  unfold Console.advance
  cases hph : c.phase with
  | attaching n => exact h.attempt n w
  | pausing n =>
    dsimp only
    split
    · exact h.settle
    · exact h.moved rfl rfl rfl rfl rfl (.inl rfl)
  | polling =>
    dsimp only
    split <;> exact h.moved rfl rfl rfl rfl rfl (.inl rfl)
  | sampled sample =>
    refine ⟨h.client, h.observer, fun t ht => ?_, h.printed⟩
    obtain rfl := Option.some.inj ht
    refine ⟨List.prefix_rfl, w, ?_, rfl⟩
    rw [hm, ← h.client]
    exact (Option.some_get c.mapped).symm
  | snapped sample snap seen =>
    refine ⟨h.client, h.observer, fun t ht => ?_, h.printed⟩
    exact htaken t (by rw [hph]; exact ht)
  | judged sample snap seen isAlive =>
    obtain ⟨hs, ht⟩ := htaken (seen, snap) (by rw [hph]; rfl)
    exact h.conclude hs ht
  | waiting =>
    refine h.moved rfl rfl rfl rfl rfl (.inl ?_)
    dsimp only
    split <;> rfl
  | closing =>
    have ho := poll_process c.observer w
    dsimp only [Console.close]
    split
    · exact h.moved rfl rfl rfl rfl rfl (.inl rfl)
    · exact h.moved rfl rfl ho.1 ho.2 rfl (.inl rfl)
  | finished code => exact h

theorem Backed.step (h : Backed options uid process name c) (e : ConsoleEvent) :
    Backed options uid process name (c.step options uid e) := by
  cases e with
  | outside op => exact h.perform [op]
  | watch view now => exact h.advance rfl
  | interrupt => exact h.moved rfl rfl rfl rfl rfl (.inr rfl)

theorem backed_run (options : ConsoleOptions) (uid : UInt32) (process : ProcessHandle)
    (name : List UInt8) (es : List ConsoleEvent) :
    Backed options uid process name
      (run (step options uid) (Console.start options uid process name) es) :=
  invariant_of_step (fun _ e h => h.step e) (Backed.start ..) es

theorem settle_history : (c.settle options).history = c.history := by
  unfold settle
  repeat' split
  all_goals rfl

theorem settle_printed : (c.settle options).printed = c.printed := by
  unfold settle
  repeat' split
  all_goals rfl

theorem settle_unattached (h : c.observer.attached = false) :
    (c.settle options).phase ≠ .polling := by
  unfold settle
  rw [h]
  split <;> simp [fail]

theorem attempt_polling {n : Nat} (ha : c.observer.attached = false)
    (h : (c.attempt options uid n w).phase = .polling) :
    (c.attempt options uid n w).history = c.history ++ [.attach w.clock] ∧
      (c.attempt options uid n w).printed = c.printed := by
  unfold attempt at h ⊢
  by_cases hcond : n < 50 ∧ ¬c.stopRequested ∧ c.observer.process.alive.run w
  case neg =>
    rw [if_neg hcond] at h
    exact absurd h (settle_unattached ha)
  rw [if_pos hcond] at h ⊢
  dsimp only at h ⊢
  rcases tryAttach_cases c.observer uid w with hr | hr
  · rw [hr, ha] at h
    simp at h
  · rw [hr, if_pos rfl, settle_history, settle_printed]
    exact ⟨rfl, rfl⟩

theorem conclude_observer (options : ConsoleOptions) (uid : UInt32) (c : Console)
    (r : PollReads) (seen : List Operation) :
    (c.conclude options uid r seen).observer = c.observer.conclude r ∧
      (c.conclude options uid r seen).stopRequested = c.stopRequested := by
  unfold conclude
  dsimp only
  split <;> exact ⟨rfl, rfl⟩

theorem conclude_history (options : ConsoleOptions) (uid : UInt32) (c : Console)
    (r : PollReads) (seen : List Operation) :
    (c.conclude options uid r seen).history =
      c.history ++ if r.isAlive then [.renew r.now defaultWatcherLeaseNs] else [] := by
  unfold conclude
  dsimp only
  split <;> rfl

/-- The watcher does nothing to the mapping but take and renew its lease. -/
theorem advance_history (options : ConsoleOptions) (uid : UInt32) (c : Console) (w : World) :
    ∃ ops, (c.advance options uid w).history = c.history ++ ops ∧
      ∀ op ∈ ops, op = .attach w.clock ∨ op = .renew w.clock defaultWatcherLeaseNs := by
  have hnone : ∃ ops, c.history = c.history ++ ops ∧
      ∀ op ∈ ops, op = .attach w.clock ∨ op = .renew w.clock defaultWatcherLeaseNs :=
    ⟨[], (List.append_nil _).symm, fun _ h => (nomatch h)⟩
  unfold advance
  split
  · unfold attempt
    split
    case isFalse => rwa [settle_history]
    dsimp only
    refine ⟨(c.observer.tryAttach uid w).2, ?_, fun op hop => .inl ?_⟩
    · split
      · rw [settle_history]
        rfl
      · rfl
    · rcases tryAttach_cases c.observer uid w with hr | hr <;> rw [hr] at hop
      · cases hop
      · exact List.mem_singleton.mp hop
  · split
    · rwa [settle_history]
    · exact hnone
  · split <;> exact hnone
  · exact hnone
  · exact hnone
  · refine ⟨_, conclude_history .., fun op hop => .inr ?_⟩
    split at hop
    · exact List.mem_singleton.mp hop
    · cases hop
  · exact hnone
  · unfold close
    split <;> exact hnone
  · exact hnone

theorem step_history (e : ConsoleEvent) :
    (c.step options uid e).history.filterMap Operation.clock =
      c.history.filterMap Operation.clock ++ e.callClock.toList := by
  cases e with
  | outside op => cases op <;> simp [step, perform, Operation.clock, ConsoleEvent.callClock]
  | interrupt => exact (List.append_nil _).symm
  | watch view now =>
    obtain ⟨ops, hh, hops⟩ := advance_history options uid c ⟨c.memory, now, view⟩
    have hnil : ops.filterMap Operation.clock = [] := by
      refine List.filterMap_eq_nil_iff.mpr fun op hop => ?_
      rcases hops op hop with rfl | rfl <;> rfl
    rw [step, hh, List.filterMap_append, hnil, callClock_watch]
    rfl

theorem always_clocks {es : List ConsoleEvent}
    (h : (c.history.filterMap Operation.clock ++
      es.filterMap ConsoleEvent.callClock).Pairwise (· ≤ ·)) :
    Always (step options uid) (fun c => (c.history.filterMap Operation.clock).Pairwise (· ≤ ·)) c
      es := by
  induction es generalizing c with
  | nil => simpa [Always] using h
  | cons e es ih =>
    refine ⟨(List.pairwise_append.mp h).1, ih ?_⟩
    rw [step_history, List.append_assoc]
    cases he : e.callClock <;> simpa [he] using h

theorem run_history (options : ConsoleOptions) (uid : UInt32) (c : Console)
    (es : List ConsoleEvent) :
    (run (step options uid) c es).history.filterMap Operation.clock =
      c.history.filterMap Operation.clock ++ es.filterMap ConsoleEvent.callClock := by
  induction es generalizing c with
  | nil => simp
  | cons e es ih =>
    rw [run_cons, ih, step_history, List.append_assoc]
    cases he : e.callClock <;> simp [he]

theorem perform_perform (ops ops' : List Operation) :
    (c.perform uid ops).perform uid ops' = c.perform uid (ops ++ ops') := by
  simp [perform]

theorem run_outside (ops : List Operation) :
    run (step options uid) c (ops.map .outside) = c.perform uid ops := by
  induction ops generalizing c with
  | nil => simp [perform]
  | cons op ops ih => exact (ih (c := c.perform uid [op])).trans (perform_perform [op] ops)

theorem step_polling (hp : c.phase = .polling) (hs : c.stopRequested = false)
    (view : ProcessView) (now : UInt64) :
    c.step options uid (.watch view now) =
      { c with
        phase := .sampled ((sampleProcess c.observer.process.identity.pid).run
          ⟨c.memory, now, view⟩) } := by
  simp [step, advance, hp, hs]

/-- The watcher's four operations in a poll, with nothing in between. -/
theorem run_poll_steps (hp : c.phase = .polling) (hs : c.stopRequested = false)
    (view : ProcessView) (now : UInt64) :
    run (step options uid) c (List.replicate 4 (.watch view now)) =
      c.conclude options uid
        ((pollReads c.observer.process).run ⟨c.memory, now, view⟩) c.history := by
  simp only [List.replicate, run_cons, run_nil, step_polling hp hs, pollReads_eq,
    ReadProgram.run_bind]
  rfl

theorem permits_poll_steps {G : Console → ConsoleEvent → Prop} (hp : c.phase = .polling)
    (hs : c.stopRequested = false) (view : ProcessView) (now : UInt64)
    (hG : ∀ phase, G { c with phase := phase } (.watch view now)) :
    Permits (step options uid) G c (List.replicate 4 (.watch view now)) := by
  refine ⟨hG c.phase, ?_⟩
  rw [step_polling hp hs]
  exact ⟨hG _, hG _, hG _, trivial⟩

/-- They are `observed_process::poll`. -/
theorem conclude_eq_poll (ha : c.observer.attached = true) (view : ProcessView) (now : UInt64)
    (seen : List Operation) :
    let c' := c.conclude options uid
      ((pollReads c.observer.process).run ⟨c.memory, now, view⟩) seen
    (c'.observer, c'.memory) = c.observer.poll ⟨c.memory, now, view⟩ := by
  dsimp only
  rw [ObservedProcess.poll, if_pos ha]
  generalize hr : (pollReads c.observer.process).run ⟨c.memory, now, view⟩ = r
  have hmem : (c.conclude options uid r seen).memory =
      if r.isAlive then c.memory.renewLease r.now else c.memory := by
    have hp : (c.conclude options uid r seen).memory =
        (c.perform uid
          (if r.isAlive then [.renew r.now defaultWatcherLeaseNs] else [])).memory := by
      unfold conclude
      dsimp only
      split <;> rfl
    rw [hp]
    split
    · simp [perform, memory, Client.operate]
    · rfl
  rw [hmem, (conclude_observer options uid c r seen).1]

theorem poll_alone (hp : c.phase = .polling) (hs : c.stopRequested = false)
    (ha : c.observer.attached = true) (view : ProcessView) (now : UInt64) :
    let c' := run (step options uid) c (List.replicate 4 (.watch view now))
    (c'.observer, c'.memory) = c.observer.poll ⟨c.memory, now, view⟩ := by
  intro c'
  have hc : c' = _ := run_poll_steps hp hs view now
  rw [hc]
  exact conclude_eq_poll ha view now c.history

end Runs

def attachedView : ProcessView where
  status := some ⟨⟨1, 1⟩, {}⟩
  stat := some ⟨⟨1, 1⟩, 0, 1⟩
  exitReadable := false
  noSuchProcess := false

theorem poll_alone_attached :
    let c := run (step { pid := 1 } 0) (start { pid := 1 } 0 ⟨⟨1, 1⟩, true⟩ [])
      [.watch attachedView 5, .outside (.call 6 (.setChannelActive .main true))]
    let c' := run (step { pid := 1 } 0) c (List.replicate 4 (.watch attachedView 7))
    (c'.observer, c'.memory) = c.observer.poll ⟨c.memory, 7, attachedView⟩ :=
  poll_alone rfl rfl rfl attachedView 7

end Console

end Peepbooth
