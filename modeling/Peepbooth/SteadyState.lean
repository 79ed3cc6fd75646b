import Peepbooth.FirstObservation
import Peepbooth.Cadence

/-! A watcher that polls exactly every interval, on a process that beats one
channel at least every 100 ms. -/

namespace Peepbooth

open Schedule

/-- The process shows itself running under its identity. -/
structure ProcessView.Shows (v : ProcessView) (identity : ProcessIdentity) : Prop where
  status : v.status.isSome = true
  stat : v.stat.map (·.startTicks) = some identity.startTicks
  exitReadable : v.exitReadable = false
  noSuchProcess : v.noSuchProcess = false

section Views

variable {v : ProcessView} {process : ProcessHandle}

theorem ProcessView.Shows.alive (h : v.Shows process.identity) (m : SharedState) (now : UInt64) :
    process.alive.run ⟨m, now, v⟩ = true := by
  have hg : process.signalled v = false := by
    rw [ProcessHandle.signalled, h.exitReadable, h.noSuchProcess, ite_self]
  obtain ⟨values, hv, ht⟩ := Option.map_eq_some_iff.mp h.stat
  simp [ProcessHandle.alive_eq, hg, hv, ht]

theorem ProcessView.Shows.sample (h : v.Shows process.identity) (m : SharedState) (now : UInt64) :
    ∃ sample, (sampleProcess process.identity.pid).run ⟨m, now, v⟩ = some sample ∧
      sample.identity = process.identity := by
  obtain ⟨file, hf⟩ := Option.isSome_iff_exists.mp h.status
  obtain ⟨values, hv, ht⟩ := Option.map_eq_some_iff.mp h.stat
  refine ⟨_, by simp [sampleProcess, hf, hv]; rfl, ?_⟩
  exact ProcessIdentity.ext rfl ht

end Views

namespace Console

variable {options : ConsoleOptions} {uid : UInt32} {c : Console} {r : PollReads}

theorem conclude_printed (options : ConsoleOptions) (uid : UInt32) (seen : List Operation)
    (h : (c.observer.conclude r).latest.status = .sampled) :
    (c.conclude options uid r seen).printed =
        c.printed ++ [⟨seen, (c.observer.conclude r).latest⟩] ∧
      (c.conclude options uid r seen).phase = if options.once then .closing else .waiting := by
  unfold conclude
  dsimp only
  rw [h]
  exact ⟨rfl, rfl⟩

theorem poll_round (options : ConsoleOptions) (uid : UInt32) {process : ProcessHandle}
    {view : ProcessView} (now : UInt64)
    (hp : c.phase = .polling) (hs : c.stopRequested = false) (ho : c.observer.process = process)
    (hv : view.Shows process.identity) (honce : options.once = false) :
    let c' := run (step options uid) c (List.replicate 4 (.watch view now))
    c'.phase = .waiting ∧ c'.stopRequested = false ∧ c'.observer.process = process ∧
      c'.history = c.history ++ [.renew now defaultWatcherLeaseNs] ∧
      ∃ o, c'.printed = c.printed ++ [⟨c.history, o⟩] ∧ o.observedAtNs = now := by
  dsimp only
  rw [run_poll_steps hp hs, ho]
  obtain ⟨sample, hsample, hid⟩ := hv.sample c.memory now
  generalize hr : (pollReads process).run ⟨c.memory, now, view⟩ = r
  rw [pollReads_eq] at hr
  simp only [ReadProgram.run_bind, ReadProgram.run_load, ReadProgram.run_done, hsample,
    hv.alive c.memory now] at hr
  subst hr
  have hstatus := ObservedProcess.conclude_of_sample (o := c.observer)
    (r := ⟨some sample, snapshot.run ⟨c.memory, now, view⟩, true, now⟩) rfl rfl
    (hid.trans (congrArg _ ho.symm))
  obtain ⟨hprinted, hphase⟩ := conclude_printed options uid c.history hstatus
  obtain ⟨hobs, hstop⟩ := conclude_observer options uid c
    ⟨some sample, snapshot.run ⟨c.memory, now, view⟩, true, now⟩ c.history
  refine ⟨by rw [hphase, honce]; rfl, hstop.trans hs, ?_, ?_, _, hprinted,
    ObservedProcess.conclude_observedAtNs _ _⟩
  · rw [hobs, ObservedProcess.conclude_process, ho]
  · rw [conclude_history, if_pos rfl]

end Console

section Steady

variable (options : ConsoleOptions) (uid : UInt32) (process : ProcessHandle) (name : List UInt8)
  (ch : Fin heartbeatChannelCount) (a : UInt64)

def intervalNs : Nat := options.intervalMs.toNat * 1000000

/-- When the next poll is due, of a run that attached at `a`. -/
def Console.due (c : Console) : Nat := a.toNat + c.printed.length * intervalNs options

def Console.Sole (c : Console) : Prop := ∀ i, (c.memory.heartbeats i).active ≠ 0 ↔ i = ch

/-- When the channel was last beaten, or else the watcher attached, with `base`
done to the mapping by then. -/
def Console.beats (base : List Operation) (c : Console) : Beats :=
  beatsOf (fun i => if i = ch then some a else none) (c.history.drop base.length)

/-- The producer calls, and the watcher acts when its poll is due; the channel is
never silent for longer than 100 ms. -/
def Timely (base : List Operation) (c : Console) : ConsoleEvent → Prop
  | .outside (.call now _) => now.toNat ≤ c.due options a ∧ (c.beats ch a base).Within 100000000 now
  | .watch view now =>
    view.Shows process.identity ∧ now.toNat = c.due options a ∧
      (c.beats ch a base).Within 100000000 now
  | _ => False

/-- The events of a run that attaches at `a`, after `prior`, at its first attempt. -/
def attachEvents (prior : List Operation) (view : ProcessView) : List ConsoleEvent :=
  prior.map .outside ++ [.watch view a]

structure SteadyRun (prior : List Operation) (view : ProcessView) (es : List ConsoleEvent) :
    Prop where
  clocks : ((attachEvents a prior view ++ es).filterMap ConsoleEvent.clock).Pairwise (· ≤ ·)
  attached : (watch options uid process name (attachEvents a prior view)).phase = .polling
  sole : Always (Console.step options uid) (Console.Sole ch)
    (watch options uid process name (attachEvents a prior view)) es
  timely : Permits (Console.step options uid)
    (Timely options process ch a
      (watch options uid process name (attachEvents a prior view)).history)
    (watch options uid process name (attachEvents a prior view)) es

/-- The only active channel was published recently enough. -/
def Steadfast (l : Ledger) (now : UInt64) : Prop :=
  (∀ i, l.active i = true ↔ i = ch) ∧ l.Recent ch now (Console.staleAfterNs options)

/-- A poll that is under way has sampled the process, and found it alive. -/
def ConsolePhase.Sound : ConsolePhase → Prop
  | .attaching _ | .pausing _ => False
  | .sampled sample | .snapped sample _ _ =>
    ∃ s, sample = some s ∧ s.identity = process.identity
  | .judged sample _ _ isAlive => (∃ s, sample = some s ∧ s.identity = process.identity) ∧
    isAlive = true
  | _ => True

def ConsolePhase.over : ConsolePhase → Prop
  | .closing | .finished _ => True
  | _ => False

def Console.renewedAt (c : Console) : Nat :=
  a.toNat + (c.printed.length - 1) * intervalNs options

structure Steady (base : List Operation) (c : Console) : Prop where
  history : base <+: c.history
  sound : c.phase.Sound process
  lease : (ledgerOf c.history).until_ =
    some (min (c.renewedAt options a + 3000000000) (2 ^ 64 - 1))
  cadence : ∃ beat, c.beats ch a base ch = some beat ∧ beat.toNat ≤ c.due options a ∧
    Cadence a.toNat (intervalNs options) (c.renewedAt options a) beat.toNat
      ((ledgerOf c.history).stamp ch)
  once : options.once = true → c.printed = [] ∨ c.phase.over
  taken : ∀ t, c.phase.taken = some t → ∀ now : UInt64, now.toNat = c.due options a →
    a.toNat + 1000000000 ≤ now.toNat → Steadfast options ch (ledgerOf t.1) now
  printed : ∀ p ∈ c.printed, a.toNat + 1000000000 ≤ p.observation.observedAtNs.toNat →
    Steadfast options ch (ledgerOf p.seen) p.observation.observedAtNs

variable {options uid process name ch a} {base : List Operation} {c : Console} {now : UInt64}

theorem Console.due_le : c.due options a ≤ c.renewedAt options a + intervalNs options := by
  unfold due renewedAt
  cases c.printed.length with
  | zero => simp
  | succ k => rw [Nat.add_sub_cancel, Nat.succ_mul, Nat.add_assoc]

theorem Console.due_eq (h : c.printed ≠ []) :
    c.due options a = c.renewedAt options a + intervalNs options := by
  unfold due renewedAt
  cases hk : c.printed.length with
  | zero => exact absurd (List.length_eq_zero_iff.mp hk) h
  | succ k => rw [Nat.add_sub_cancel, Nat.succ_mul, Nat.add_assoc]

theorem Console.beats_concat {c' : Console} {op : Operation} (hb : base <+: c.history)
    (h : c'.history = c.history ++ [op]) :
    c'.beats ch a base = (c.beats ch a base).record op := by
  rw [beats, h, List.drop_append_of_le_length hb.length_le, beatsOf_concat, beats]

theorem Steady.call (h : Steady options process ch a base c) {call : Call}
    (hG : Timely options process ch a base c (.outside (.call now call)))
    (hact : (ledgerOf (c.perform uid [.call now call]).history).active ch = true) :
    Steady options process ch a base (c.perform uid [.call now call]) := by
  obtain ⟨hdue, hwithin⟩ := hG
  obtain ⟨beat, hbeat, hle, hcad⟩ := h.cadence
  have hhist : (c.perform uid [.call now call]).history = c.history ++ [.call now call] := rfl
  have hled : ledgerOf (c.perform uid [.call now call]).history =
      (ledgerOf c.history).call now call := by rw [hhist, ledgerOf_concat]; rfl
  rw [hled] at hact
  have hb : now.toNat ≤ beat.toNat + 100000000 := by simpa [hbeat] using hwithin ch
  obtain ⟨beat', hbeat', hor, hcad'⟩ :=
    Ledger.cadence_call hbeat hcad h.lease hb (hdue.trans Console.due_le) hact
  refine ⟨h.history.trans (List.prefix_append _ _), h.sound, ?_, ⟨beat', ?_, ?_, ?_⟩, h.once,
    h.taken, h.printed⟩
  · rw [hled, Ledger.call_until]
    exact h.lease
  · rw [Console.beats_concat h.history hhist]
    exact hbeat'
  · rcases hor with rfl | rfl
    · exact hle
    · exact hdue
  · rw [hled]
    exact hcad'

theorem Steady.moved (h : Steady options process ch a base c) {c' : Console}
    (hh : c'.history = c.history) (hp : c'.printed = c.printed) (hs : c'.phase.Sound process)
    (ht : c'.phase.taken = none ∨ c'.phase.taken = c.phase.taken)
    (ho : c.phase.over → c'.phase.over) : Steady options process ch a base c' := by
  have hdue : c'.due options a = c.due options a := by rw [Console.due, hp]; rfl
  have hren : c'.renewedAt options a = c.renewedAt options a := by
    rw [Console.renewedAt, hp]; rfl
  have hbeats : c'.beats ch a base = c.beats ch a base := by rw [Console.beats, hh]; rfl
  refine ⟨hh ▸ h.history, hs, ?_, ?_, fun hopt => ?_, fun t htt => ?_, ?_⟩
  · rw [hh, hren]
    exact h.lease
  · rw [hh, hren, hdue, hbeats]
    exact h.cadence
  · rw [hp]
    exact (h.once hopt).imp_right ho
  · rcases ht with hn | he
    · rw [hn] at htt
      cases htt
    · rw [hdue]
      exact h.taken t (he ▸ htt)
  · rw [hp]
    exact h.printed

/-- What the snapshot of a poll that is due finds. -/
theorem Steady.steadfast (h : Steady options process ch a base c)
    (hi : options.once = true ∨
      intervalNs options ≤ (Console.staleAfterNs options).toNat + 2400000000)
    (hs : 1000000000 ≤ (Console.staleAfterNs options).toNat) (hover : ¬c.phase.over)
    (hact : ∀ i, (ledgerOf c.history).active i = true ↔ i = ch)
    (hnow : now.toNat = c.due options a) (hwithin : (c.beats ch a base).Within 100000000 now)
    (ha : a.toNat + 1000000000 ≤ now.toNat) :
    Steadfast options ch (ledgerOf c.history) now := by
  obtain ⟨beat, hbeat, -, hcad⟩ := h.cadence
  have hb : now.toNat ≤ beat.toNat + 100000000 := by simpa [hbeat] using hwithin ch
  have hne : c.printed ≠ [] := by
    intro hnil
    rw [hnow, Console.due, hnil, List.length_nil] at ha
    omega
  have hint := hi.resolve_left fun hopt => (h.once hopt).elim hne hover
  rw [hnow, Console.due_eq hne] at hb ha
  obtain ⟨ht, hle⟩ := hcad.recent hb ha hs hint
  refine ⟨hact, ?_⟩
  rw [Ledger.stamp] at ht hle
  cases hp : (ledgerOf c.history).published ch with
  | none => simp [hp] at ht
  | some t =>
    rw [hp, Option.getD_some] at ht hle
    refine ⟨t, hp, fun h0 => ht (by rw [h0]; rfl), ?_⟩
    rw [hnow, Console.due_eq hne]
    exact hle

theorem Steady.conclude (h : Steady options process ch a base c)
    (ho : c.observer.process = process) {sample : Option ProcessSample} {w : WatchdogSnapshot}
    {seen : List Operation} {isAlive : Bool} (hph : c.phase = .judged sample w seen isAlive)
    (hnow : now.toNat = c.due options a) :
    Steady options process ch a base
      (c.conclude options uid ⟨sample, w, isAlive, now⟩ seen) := by
  have hsound := h.sound
  rw [hph] at hsound
  obtain ⟨⟨s, rfl, hs⟩, rfl⟩ := hsound
  obtain ⟨beat, hbeat, hle, hcad⟩ := h.cadence
  have hstatus := ObservedProcess.conclude_of_sample (o := c.observer)
    (r := ⟨some s, w, true, now⟩) rfl rfl (hs.trans (congrArg _ ho.symm))
  have hobs := c.observer.conclude_observedAtNs ⟨some s, w, true, now⟩
  obtain ⟨hp, hphase⟩ := Console.conclude_printed options uid seen hstatus
  have hh := Console.conclude_history options uid c ⟨some s, w, true, now⟩ seen
  rw [if_pos rfl] at hh
  have hren : (c.conclude options uid ⟨some s, w, true, now⟩ seen).renewedAt options a =
      now.toNat := by
    rw [Console.renewedAt, hp, List.length_append, hnow]
    rfl
  have hdue : c.due options a ≤
      (c.conclude options uid ⟨some s, w, true, now⟩ seen).due options a := by
    rw [Console.due, Console.due, hp, List.length_append]
    exact Nat.add_le_add_left (Nat.mul_le_mul_right _ (Nat.le_add_right _ _)) _
  have hlast : c.renewedAt options a ≤ now.toNat := by
    rw [hnow, Console.due, Console.renewedAt]
    exact Nat.add_le_add_left (Nat.mul_le_mul_right _ (Nat.sub_le _ _)) _
  refine ⟨hh ▸ h.history.trans (List.prefix_append _ _), ?_, ?_, ⟨beat, ?_, hle.trans hdue, ?_⟩,
    fun hopt => .inr ?_, fun t ht => ?_, fun p hmem => ?_⟩
  · rw [hphase]
    split <;> trivial
  · rw [hh, hren, ledgerOf_concat]
    rfl
  · rw [Console.beats_concat h.history hh]
    exact hbeat
  · rw [hh, hren, ledgerOf_concat]
    exact hcad.renew hlast (hnow ▸ hle)
  · rw [hphase, if_pos hopt]
    trivial
  · rw [hphase] at ht
    split at ht <;> cases ht
  · rw [hp, List.mem_append, List.mem_singleton] at hmem
    rcases hmem with hold | rfl
    · exact h.printed p hold
    · rw [hobs]
      exact h.taken (seen, w) (by rw [hph]; rfl) now hnow

theorem Steady.watch (h : Steady options process ch a base c)
    (hi : options.once = true ∨
      intervalNs options ≤ (Console.staleAfterNs options).toNat + 2400000000)
    (hs : 1000000000 ≤ (Console.staleAfterNs options).toNat) (ho : c.observer.process = process)
    (hact : ∀ i, (ledgerOf c.history).active i = true ↔ i = ch) {view : ProcessView}
    (hG : Timely options process ch a base c (.watch view now)) :
    Steady options process ch a base (c.step options uid (.watch view now)) := by
  obtain ⟨hview, hnow, hwithin⟩ := hG
  have hsound := h.sound
  simp only [Console.step, Console.advance]
  cases hph : c.phase with
  | attaching n => simp [hph, ConsolePhase.Sound] at hsound
  | pausing n => simp [hph, ConsolePhase.Sound] at hsound
  | polling =>
    dsimp only
    split
    · exact h.moved rfl rfl trivial (.inl rfl) fun _ => trivial
    · refine h.moved rfl rfl ?_ (.inl rfl) (by rw [hph]; exact False.elim)
      rw [ho]
      exact hview.sample _ _
  | sampled sample =>
    have hover : ¬c.phase.over := by rw [hph]; exact id
    refine ⟨h.history, by rw [hph] at hsound; exact hsound, h.lease, h.cadence,
      fun hopt => (h.once hopt).imp_right (absurd · hover), fun t ht now' hnow' ha => ?_, h.printed⟩
    obtain rfl := Option.some.inj ht
    obtain rfl : now' = now := UInt64.toNat_inj.mp (hnow'.trans hnow.symm)
    exact h.steadfast hi hs hover hact hnow hwithin ha
  | snapped sample snap seen =>
    rw [hph] at hsound
    refine h.moved rfl rfl ⟨hsound, ?_⟩ (.inr (by rw [hph]; rfl)) (by rw [hph]; exact False.elim)
    rw [ho]
    exact hview.alive _ _
  | judged sample snap seen isAlive => exact h.conclude ho hph hnow
  | waiting =>
    refine h.moved rfl rfl ?_ (.inl ?_) (by rw [hph]; exact False.elim) <;> dsimp only <;> split
    · trivial
    · trivial
    · rfl
    · rfl
  | closing =>
    have halive : c.observer.process.alive.run ⟨c.memory, now, view⟩ = true := by
      rw [ho]
      exact hview.alive _ _
    dsimp only [Console.close]
    rw [if_pos halive]
    exact h.moved rfl rfl trivial (.inl rfl) fun _ => trivial
  | finished code => exact h

theorem Console.memory_eq (hb : Console.Backed options uid process name c) {m : SharedState}
    (hm : (clientAfter process.identity uid name c.history).mapping = some m) : c.memory = m := by
  rw [memory, ← Option.some_inj, Option.some_get, hb.client, hm]

theorem Console.sole_iff (hb : Console.Backed options uid process name c)
    (hc : (c.history.filterMap Operation.clock).Pairwise (· ≤ ·)) :
    c.Sole ch ↔ ∀ i, (ledgerOf c.history).active i = true ↔ i = ch := by
  obtain ⟨m, -, hk⟩ := keeps_clientAfter process.identity uid name hc
  have hm := Console.memory_eq hb hk.mapping
  refine forall_congr' fun i => iff_congr ?_ Iff.rfl
  rw [hm, hk.active i]
  cases (ledgerOf c.history).active i <;> simp

theorem attached_history {prior : List Operation} {view : ProcessView}
    (h : (watch options uid process name (attachEvents a prior view)).phase = .polling) :
    (watch options uid process name (attachEvents a prior view)).history = prior ++ [.attach a] ∧
      (watch options uid process name (attachEvents a prior view)).printed = [] := by
  rw [Peepbooth.watch, attachEvents, run_append, Console.run_outside, run_cons, run_nil] at h ⊢
  generalize hc : (Console.start options uid process name).perform uid prior = c at h ⊢
  have hph : c.phase = .attaching 0 := by rw [← hc]; rfl
  have hatt : c.observer.attached = false := by rw [← hc]; rfl
  have hhist : c.history = prior := by rw [← hc]; rfl
  have hpr : c.printed = [] := by rw [← hc]; rfl
  simp only [Console.step, Console.advance, hph] at h ⊢
  rw [← hhist, ← hpr]
  exact Console.attempt_polling hatt h

theorem attached_calls {prior : List Operation} {view : ProcessView} {es : List ConsoleEvent}
    (hc : ((attachEvents a prior view ++ es).filterMap ConsoleEvent.clock).Pairwise (· ≤ ·))
    (h : (watch options uid process name (attachEvents a prior view)).phase = .polling) :
    ((watch options uid process name (attachEvents a prior view)).history.filterMap
      Operation.clock ++ es.filterMap ConsoleEvent.callClock).Pairwise (· ≤ ·) := by
  have hpair := hc.sublist (callClock_sublist (attachEvents a prior view ++ es))
  have hop : ConsoleEvent.callClock ∘ ConsoleEvent.outside = Operation.clock := rfl
  rw [(attached_history h).1]
  simpa [attachEvents, List.filterMap_map, List.filterMap_cons, hop, Operation.clock_attach]
    using hpair

theorem attaches (options : ConsoleOptions) (uid : UInt32) (name : List UInt8) (a : UInt64)
    (prior : List Operation) {view : ProcessView}
    (hc : (prior.filterMap Operation.clock).Pairwise (· ≤ ·))
    (hv : view.Shows process.identity) (hopens : view.stateOpens = true) :
    (watch options uid process name (attachEvents a prior view)).phase = .polling ∧
      (watch options uid process name (attachEvents a prior view)).stopRequested = false := by
  have hb := (Console.Backed.start options uid process name).perform prior
  obtain ⟨m, hvalid, hk⟩ := keeps_clientAfter process.identity uid name hc
  have hm := Console.memory_eq hb hk.mapping
  rw [Peepbooth.watch, attachEvents, run_append, Console.run_outside, run_cons, run_nil]
  generalize hc : (Console.start options uid process name).perform uid prior = c at hm ⊢
  have hph : c.phase = .attaching 0 := by rw [← hc]; rfl
  have hstop : c.stopRequested = false := by rw [← hc]; rfl
  have hatt : c.observer.attached = false := by rw [← hc]; rfl
  have ho : c.observer.process = process := by rw [← hc]; rfl
  have halive : c.observer.process.alive.run ⟨c.memory, a, view⟩ = true := by
    rw [ho]
    exact hv.alive _ _
  have htry : c.observer.tryAttach uid ⟨c.memory, a, view⟩ =
      ({ c.observer with attached := true }, [.attach a]) := by
    have hval : c.memory.validState c.observer.process.identity uid = true := by
      rw [hm, ho, hvalid]
    simp [ObservedProcess.tryAttach, hatt, halive, hopens, hval]
  simp [Console.step, Console.advance, hph, Console.attempt, hstop, halive, htry, Console.settle,
    Console.perform]

/-- The steps of a steady run, from the attachment on. -/
theorem SteadyRun.always {prior : List Operation} {view : ProcessView} {es : List ConsoleEvent}
    (h : SteadyRun options uid process name ch a prior view es)
    (hi : options.once = true ∨
      intervalNs options ≤ (Console.staleAfterNs options).toNat + 2400000000)
    (hs : 1000000000 ≤ (Console.staleAfterNs options).toNat) :
    Always (Console.step options uid)
      (Steady options process ch a
        (watch options uid process name (attachEvents a prior view)).history)
      (watch options uid process name (attachEvents a prior view)) es := by
  obtain ⟨hhist, hprinted⟩ := attached_history h.attached
  have hback := Console.backed_run options uid process name (attachEvents a prior view)
  have hcalls := attached_calls h.clocks h.attached
  have hG := (((h.timely.and (permits_of_always h.sole)).and
    (permits_of_always (Console.always_clocks hcalls))).and
    (permits_of_always (always_of_step (fun _ e hb => hb.step e) hback es)))
  refine always_of_permits (fun c e hst hg => ?_) ?_ hG
  · obtain ⟨⟨⟨htime, hsole, hsole'⟩, hclk, hclk'⟩, hb, hb'⟩ := hg
    rw [Console.sole_iff hb hclk] at hsole
    rw [Console.sole_iff hb' hclk'] at hsole'
    cases e with
    | outside op =>
      cases op with
      | call now call => exact hst.call htime ((hsole' ch).mpr rfl)
      | _ => exact htime.elim
    | watch view now => exact hst.watch hi hs hb.observer.1 hsole htime
    | interrupt => exact htime.elim
  · have hattached := h.attached
    generalize watch options uid process name (attachEvents a prior view) = c at *
    have hlen : c.renewedAt options a = a.toNat := by
      rw [Console.renewedAt, hprinted, List.length_nil, Nat.zero_sub, Nat.zero_mul, Nat.add_zero]
    have hbeats : c.beats ch a c.history ch = some a := by
      rw [Console.beats, List.drop_length]
      exact if_pos rfl
    refine ⟨List.prefix_rfl, ?_, ?_, ⟨a, hbeats, Nat.le_add_right _ _, ?_⟩,
      fun _ => .inl hprinted, fun t ht => ?_, fun p hp => ?_⟩
    · rw [hattached]
      trivial
    · rw [hlen, hhist, ledgerOf_concat]
      rfl
    · rw [hlen]
      exact Cadence.start _ _
    · rw [hattached] at ht
      cases ht
    · rw [hprinted] at hp
      cases hp

theorem healthy_of_steadfast {p : Printed} (hv : Console.Verdict options uid process name p)
    (hc : (p.seen.filterMap Operation.clock).Pairwise (· ≤ ·))
    (h : Steadfast options ch (ledgerOf p.seen) p.observation.observedAtNs) :
    p.observation.responsiveness = some .healthy := by
  obtain ⟨cpu, hcpu⟩ := hv.responsiveness
  obtain ⟨sequence, hw⟩ := ledger_heartbeats hv.taken hc
  rw [hcpu, Option.some_inj, classifyHealth_eq_healthy, mem_heartbeats hw]
  refine ⟨⟨ch, (h.1 ch).mpr rfl⟩, fun hb hmem hactive => ?_⟩
  rw [hw] at hmem
  obtain ⟨i, -, rfl⟩ := List.mem_map.mp hmem
  obtain rfl := (h.1 i).mp hactive
  exact heartbeat_stale.mpr h.2

theorem SteadyRun.healthy {prior : List Operation} {view : ProcessView} {es : List ConsoleEvent}
    (h : SteadyRun options uid process name ch a prior view es)
    (hi : options.once = true ∨
      intervalNs options ≤ (Console.staleAfterNs options).toNat + 2400000000)
    (hs : 1000000000 ≤ (Console.staleAfterNs options).toNat) {p : Printed}
    (hp : p ∈ (Peepbooth.watch options uid process name (attachEvents a prior view ++ es)).printed)
    (ha : a.toNat + 1000000000 ≤ p.observation.observedAtNs.toNat) :
    p.observation.responsiveness = some .healthy := by
  have hlast := (h.always hi hs).last
  rw [Peepbooth.watch, ← run_append] at hlast
  have hc := h.clocks.sublist (callClock_sublist _)
  obtain ⟨hpre, hv⟩ := (Console.backed_run options uid process name
    (attachEvents a prior view ++ es)).printed p hp
  exact healthy_of_steadfast hv (printed_clocks hc hpre) (hlast.printed p hp ha)

theorem toNat_staleAfterNs (h : options.InRange) :
    (Console.staleAfterNs options).toNat = options.staleMs.toNat * 1000000 := by
  have hs := h.staleMs
  rw [Console.staleAfterNs, UInt64.toNat_mul, UInt64.ofInt, UInt64.toNat_ofNat']
  have hm : (1000000 : UInt64).toNat = 1000000 := by decide
  rw [hm]
  omega

end Steady

end Peepbooth
