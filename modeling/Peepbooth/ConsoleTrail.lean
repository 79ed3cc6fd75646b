import Peepbooth.Trail
import Peepbooth.ConsoleText
import Peepbooth.Program

/-! What the lines of the console show of the breadcrumbs that the producer publishes. -/

namespace Peepbooth

open Schedule

def Operation.isCall : Operation → Bool
  | .call _ _ => true
  | _ => false

theorem operate_ring {c : Client} {m : SharedState} (hm : c.mapping = some m)
    (identity : ProcessIdentity) (uid : UInt32) {op : Operation} (ho : op.isCall = false) :
    ∃ m', (c.operate identity uid op).mapping = some m' ∧ m'.ring = m.ring := by
  cases op with
  | attach now =>
    refine ⟨if m.validState identity uid then m.renewLease now else m,
      by simp [Client.operate, hm], ?_⟩
    split <;> rfl
  | renew now duration => exact ⟨m.renewLease now duration, by simp [Client.operate, hm], rfl⟩
  | release => exact ⟨m.release, by simp [Client.operate, hm], rfl⟩
  | call now call => cases ho

namespace Console

variable {options : ConsoleOptions} {uid : UInt32} {c : Console} {w : World}

theorem memory_of_mapping {m : SharedState} (h : c.client.mapping = some m) : c.memory = m := by
  simp [memory, h]

theorem mapping_memory (c : Console) : c.client.mapping = some c.memory :=
  (Option.some_get c.mapped).symm

theorem perform_ring {ops : List Operation} (ho : ∀ op ∈ ops, op.isCall = false) :
    (c.perform uid ops).memory.ring = c.memory.ring := by
  have h : ∃ m', (c.perform uid ops).client.mapping = some m' ∧ m'.ring = c.memory.ring := by
    refine invariant_of_permits
      (I := fun d : Client => ∃ m', d.mapping = some m' ∧ m'.ring = c.memory.ring)
      (G := fun _ op => op.isCall = false) (fun d op hd hop => ?_) ⟨_, c.mapping_memory, rfl⟩
      (permits_of_forall fun op hop _ => ho op hop)
    obtain ⟨m, hm, hr⟩ := hd
    obtain ⟨m', hm', hr'⟩ := operate_ring hm c.observer.process.identity uid hop
    exact ⟨m', hm', hr'.trans hr⟩
  obtain ⟨m', hm', hr⟩ := h
  rw [memory_of_mapping hm', hr]

theorem settle_memory : (c.settle options).memory = c.memory := by
  unfold settle
  repeat' split
  all_goals rfl

/-- Nothing that the watcher does reaches the ring. -/
theorem advance_ring : (c.advance options uid w).memory.ring = c.memory.ring := by
  unfold advance
  split
  · unfold attempt
    split
    · have hring : (c.perform uid (c.observer.tryAttach uid w).2).memory.ring = c.memory.ring := by
        refine perform_ring fun op hop => ?_
        rcases tryAttach_cases c.observer uid w with hr | hr <;> rw [hr] at hop
        · cases hop
        · rw [List.mem_singleton.mp hop]
          rfl
      dsimp only
      split
      · rw [settle_memory]
        exact hring
      · exact hring
    · rw [settle_memory]
  · split
    · rw [settle_memory]
    · rfl
  · split <;> rfl
  · rfl
  · rfl
  · next sample snapshot seen isAlive _ =>
    have hring : (c.perform uid (if isAlive then [.renew w.clock defaultWatcherLeaseNs]
        else [])).memory.ring = c.memory.ring := by
      refine perform_ring fun op hop => ?_
      cases isAlive with
      | false => cases hop
      | true =>
        rw [List.mem_singleton.mp hop]
        rfl
    unfold conclude
    dsimp only
    split <;> exact hring
  · rfl
  · unfold close
    split <;> rfl
  · rfl

/-- A poll has its snapshot in hand from one operation on, and reports it in a later one. -/
def reader : Reader Console (List Breadcrumb) where
  pending c := c.phase.taken.map fun t => t.2.breadcrumbs.map (·.2)
  lines c := c.printed.map fun p => p.observation.watchdog.breadcrumbs.map (·.2)

theorem settle_taken : (c.settle options).phase.taken = none := by
  unfold settle
  repeat' split
  all_goals rfl

theorem moves_of_eq {c' : Console} {x : List Breadcrumb} (hp : c'.printed = c.printed)
    (ht : c'.phase.taken = none ∨ c'.phase.taken = c.phase.taken) : reader.Moves x c c' := by
  refine .rest (congrArg (List.map _) hp) ?_
  rcases ht with ht | ht
  · exact .inl (congrArg (Option.map _) ht)
  · exact .inr (congrArg (Option.map _) ht)

theorem settle_moves {c' : Console} {x : List Breadcrumb} (hp : c'.printed = c.printed) :
    reader.Moves x c (c'.settle options) :=
  moves_of_eq (settle_printed.trans hp) (.inl settle_taken)

theorem conclude_moves {x : List Breadcrumb} {r : PollReads} {seen : List Operation}
    (hc : c.phase.taken = some (seen, r.snapshot)) :
    reader.Moves x c (c.conclude options uid r seen) := by
  unfold conclude
  dsimp only
  split
  · exact .rest rfl (.inl rfl)
  · refine .report (r.snapshot.breadcrumbs.map (·.2)) ?_ ?_ ?_
    · exact congrArg (Option.map _) hc
    · simp only [reader, perform, List.map_append, List.map_cons, List.map_nil,
        ObservedProcess.conclude_watchdog]
    · cases ho : options.once <;> simp [reader, ConsolePhase.taken]
  · exact .rest rfl (.inl rfl)
  · exact .rest rfl (.inl rfl)

theorem advance_moves {x : List Breadcrumb}
    (hx : (snapshot.run w).breadcrumbs.map (·.2) = x) :
    reader.Moves x c (c.advance options uid w) := by
  unfold advance
  split
  · unfold attempt
    split
    · dsimp only
      split
      · exact settle_moves rfl
      · exact .rest rfl (.inl rfl)
    · exact settle_moves rfl
  · split
    · exact settle_moves rfl
    · exact .rest rfl (.inl rfl)
  · split <;> exact .rest rfl (.inl rfl)
  · exact .look rfl (congrArg some hx)
  · next sample snap seen hph => exact moves_of_eq rfl (.inr (by rw [hph]; rfl))
  · next sample snap seen isAlive hph => exact conclude_moves (by rw [hph]; rfl)
  · refine .rest rfl (.inl ?_)
    dsimp only [reader]
    split <;> rfl
  · unfold close
    split <;> exact .rest rfl (.inl rfl)
  · exact .rest rfl (.inr rfl)

end Console

/-- The newest eight of the newest 128 are the newest eight. -/
theorem rtake_rtake (l : List Breadcrumb) : recentOf (l.rtake 128) = l.rtake 8 := by
  have hdrop : l.length - 128 + (l.length - (l.length - 128) - 8) = l.length - 8 := by omega
  rw [recentOf, List.rtake, List.rtake, List.length_drop, List.drop_drop, hdrop]

def Line.shown : Line → Option ProcessObservation
  | .observation p => some p.observation
  | _ => none

namespace Program

variable {arguments : List Text} {identity : ProcessIdentity} {uid : UInt32} {p : Program}

/-- The observations on the output. -/
def printed (p : Program) : List ProcessObservation := p.output.filterMap Line.shown

/-- What an event adds to the trail of breadcrumbs. -/
def publishes (p : Program) : ProgramEvent → List Breadcrumb
  | .outside op => p.memory.publishes op
  | _ => []

def reader : Reader Program (List Breadcrumb) where
  pending p :=
    match p.stage with
    | .watching _ c => Console.reader.pending c
    | _ => none
  lines p := p.printed.map fun o => o.watchdog.breadcrumbs.map (·.2)

theorem printed_lines (c : Console) :
    c.lines.filterMap Line.shown = c.printed.map (·.observation) := by
  have hexited : (c.lifecycle.map Line.exited).toList.filterMap Line.shown = [] := by
    cases c.lifecycle <;> rfl
  rw [Console.lines, List.filterMap_append, hexited, List.append_nil, List.filterMap_map]
  exact congrFun (List.filterMap_eq_map (f := fun p : Printed => p.observation)) c.printed

theorem reader_lines {c : Console} (h : p.output = c.lines) :
    reader.lines p = Console.reader.lines c := by
  have ho : p.printed = c.printed.map (·.observation) := by
    rw [printed, h, printed_lines]
  simp only [reader, Console.reader, ho, List.map_map]
  rfl

theorem mapped_trails {m : Mapped} {trail : List Breadcrumb} (h : m.memory.Trails trail)
    (op : Operation) :
    (m.operate identity uid op).memory.Trails (trail ++ m.memory.publishes op) := by
  obtain ⟨m', hm', ht⟩ := trails_operate h (Option.some_get m.2).symm identity uid op
  have he : (m.operate identity uid op).memory = m' := by simp [Mapped.memory, Mapped.operate, hm']
  rw [he]
  exact ht

theorem perform_trails {c : Console} {trail : List Breadcrumb} (h : c.memory.Trails trail)
    (op : Operation) :
    (c.perform uid [op]).memory.Trails (trail ++ c.memory.publishes op) := by
  obtain ⟨m', hm', ht⟩ := trails_operate h c.mapping_memory c.observer.process.identity uid op
  rw [Console.memory_of_mapping hm']
  exact ht

theorem watch_ring {o : ConsoleOptions} {c : Console} (view : ProcessView) (now : UInt64) :
    (p.watch uid o c view now).memory.ring = c.memory.ring := by
  unfold watch
  split
  · refine Console.perform_ring fun op hop => ?_
    unfold Console.farewell at hop
    split at hop
    · rw [List.mem_singleton.mp hop]
      rfl
    · cases hop
  · exact Console.advance_ring

/-- One event extends the trail by what it publishes. -/
theorem trails_step {trail : List Breadcrumb} (h : p.memory.Trails trail) (e : ProgramEvent) :
    (p.step arguments identity uid e).memory.Trails (trail ++ p.publishes e) := by
  have hkept {q : Program} (hr : q.memory.ring = p.memory.ring) :
      q.memory.Trails (trail ++ []) := by
    rw [List.append_nil]
    exact h.of_ring hr
  cases hst : p.stage with
  | launched m =>
    have hm : p.memory = m.memory := by simp only [memory, hst, Mapped.memory]
    cases e with
    | outside op =>
      simp only [step, hst, publishes, hm]
      exact mapped_trails (hm ▸ h) op
    | signal =>
      simp only [step, hst]
      exact hkept (congrArg SharedState.ring hm.symm)
    | step view pidfdOpen now =>
      simp only [step, hst]
      refine hkept ?_
      rw [hm]
      unfold enter
      dsimp only
      split <;> rfl
  | opening m o =>
    have hm : p.memory = m.memory := by simp only [memory, hst, Mapped.memory]
    cases e with
    | outside op =>
      simp only [step, hst, publishes, hm]
      exact mapped_trails (hm ▸ h) op
    | signal =>
      simp only [step, hst]
      exact hkept (congrArg SharedState.ring hm.symm)
    | step view pidfdOpen now =>
      simp only [step, hst]
      refine hkept ?_
      rw [hm]
      unfold openProcess
      split <;> rfl
  | watching o c =>
    have hm : p.memory = c.memory := by simp only [memory, hst]
    cases e with
    | outside op =>
      simp only [step, hst, publishes, hm]
      exact perform_trails (hm ▸ h) op
    | signal =>
      simp only [step, hst]
      exact hkept (congrArg SharedState.ring hm.symm)
    | step view pidfdOpen now =>
      simp only [step, hst]
      exact hkept ((watch_ring view now).trans (congrArg SharedState.ring hm.symm))
  | exited m code =>
    have hm : p.memory = m.memory := by simp only [memory, hst, Mapped.memory]
    cases e with
    | outside op =>
      simp only [step, hst, publishes, hm]
      exact mapped_trails (hm ▸ h) op
    | signal | step =>
      simp only [step, hst]
      exact hkept rfl

theorem watch_moves {o : ConsoleOptions} {c : Console} {x : List Breadcrumb}
    (hst : p.stage = .watching o c) (ho : p.output = c.lines) (view : ProcessView) (now : UInt64)
    (hx : (snapshot.run ⟨c.memory, now, view⟩).breadcrumbs.map (·.2) = x) :
    reader.Moves x p (p.watch uid o c view now) := by
  have hlines := reader_lines ho
  have hpending : reader.pending p = Console.reader.pending c := by simp only [reader, hst]
  unfold watch
  split
  · exact .rest rfl (.inl rfl)
  · have hmoves : Console.reader.Moves x c (c.advance o uid ⟨c.memory, now, view⟩) :=
      Console.advance_moves hx
    cases hmoves with
    | rest hl hp =>
      refine .rest ((reader_lines rfl).trans (hl.trans hlines.symm)) ?_
      exact hpending ▸ hp
    | look hl hp => exact .look ((reader_lines rfl).trans (hl.trans hlines.symm)) hp
    | report y hy hl hp =>
      refine .report y (hpending.trans hy) ((reader_lines rfl).trans ?_) hp
      exact hlines ▸ hl

theorem moves_step {x : List Breadcrumb} (ha : p.Agrees arguments) (e : ProgramEvent)
    (hx : ∀ w : World, w.mem = p.memory → (snapshot.run w).breadcrumbs.map (·.2) = x) :
    reader.Moves x p (p.step arguments identity uid e) := by
  unfold Agrees at ha
  cases hst : p.stage with
  | launched m =>
    rw [hst] at ha
    cases e with
    | outside op | signal =>
      simp only [step, hst]
      exact .rest rfl (.inl rfl)
    | step view pidfdOpen now =>
      simp only [step, hst]
      unfold enter
      dsimp only
      split
      · refine .rest ?_ (.inl rfl)
        simp only [reader, printed, ha.1]
        rfl
      · exact .rest rfl (.inl rfl)
      · exact .rest rfl (.inl rfl)
  | opening m o =>
    cases e with
    | outside op | signal =>
      simp only [step, hst]
      exact .rest rfl (.inl rfl)
    | step view pidfdOpen now =>
      simp only [step, hst]
      unfold openProcess
      split <;> exact .rest rfl (.inl rfl)
  | watching o c =>
    rw [hst] at ha
    have hm : p.memory = c.memory := by simp only [memory, hst]
    cases e with
    | outside op | signal =>
      simp only [step, hst]
      exact .rest rfl (.inr (by simp only [reader, hst]; rfl))
    | step view pidfdOpen now =>
      simp only [step, hst]
      exact watch_moves hst ha.2.2.1 view now (hx _ hm.symm)
  | exited m code =>
    cases e with
    | outside op =>
      simp only [step, hst]
      exact .rest rfl (.inl rfl)
    | signal | step =>
      simp only [step, hst]
      exact .rest rfl (.inr rfl)

section Runs

variable (arguments : List Text) (identity : ProcessIdentity) (uid : UInt32) (m : Mapped)

/-- All the breadcrumbs that a lease has let through in a run of the program. -/
def trail (es : List ProgramEvent) : List Breadcrumb :=
  emitted (step arguments identity uid) publishes (launch m) es

variable {arguments identity uid m}

theorem trails_run (hm : m.memory.Fresh) (es : List ProgramEvent) :
    (run (step arguments identity uid) (launch m) es).memory.Trails
      (trail arguments identity uid m es) := by
  induction es using List.reverseRecOn with
  | nil => exact hm.trails
  | append_singleton es e ih =>
    rw [run_concat, trail, emitted_concat]
    exact trails_step ih e

/-- Every observation on the output shows the last eight breadcrumbs that had been let through
at one moment, its mark. The marks are in order, and those of all observations but the first
that comes after some moment lie after that moment too: nothing is missed as long as no more
than eight breadcrumbs come between two polls. -/
theorem breadcrumbs_in_order (hm : m.memory.Fresh) (es : List ProgramEvent)
    (hl : (trail arguments identity uid m es).length < 2 ^ 64) :
    ∃ marks : List Nat, marks.Pairwise (· ≤ ·) ∧
      (∀ n ∈ marks, n ≤ (trail arguments identity uid m es).length) ∧
      List.Forall₂ (fun o n => recentOf (o.watchdog.breadcrumbs.map (·.2)) =
          ((trail arguments identity uid m es).take n).rtake 8)
        (run (step arguments identity uid) (launch m) es).printed marks ∧
      ∀ pre, pre <+: es → ∀ i n,
        (run (step arguments identity uid) (launch m) pre).printed.length < i →
        marks[i]? = some n → (trail arguments identity uid m pre).length ≤ n := by
  have hmoves (pre : List ProgramEvent) (e : ProgramEvent) (hpre : pre ++ [e] <+: es) :
      reader.Moves ((trail arguments identity uid m pre).rtake 128)
        (run (step arguments identity uid) (launch m) pre)
        (run (step arguments identity uid) (launch m) (pre ++ [e])) := by
    have hagrees : (run (step arguments identity uid) (launch m) pre).Agrees arguments :=
      invariant_of_step (I := Program.Agrees arguments) (fun _ e hp => hp.step e)
        (Agrees.launch arguments m) pre
    have hlen : (trail arguments identity uid m pre).length < 2 ^ 64 :=
      (emitted_mono ((List.prefix_append pre [e]).trans hpre)).length_le.trans_lt hl
    rw [run_concat]
    refine moves_step hagrees e fun w hw => ?_
    exact SharedState.Trails.snapshot (hw ▸ trails_run hm pre) hlen
  obtain ⟨marks, h, -⟩ :=
    Reader.exists_inOrder reader (fun l => l.rtake 128) publishes rfl rfl hmoves
  refine ⟨marks, h.sorted, h.le, ?_, fun pre hpre i n hi hn => h.fresh pre hpre i n ?_ hn⟩
  · refine (List.forall₂_map_left_iff.mp h.shown).imp fun o n ho => ?_
    rw [ho]
    exact rtake_rtake _
  · simpa [reader] using hi

/-- Two breadcrumbs, one before each of two polls. -/
def eventful : List ProgramEvent :=
  List.replicate 3 (.step runningView true 5) ++
    (.outside (.call 6 (.breadcrumb ⟨1, 0, 0, 0, 0⟩)) ::
      List.replicate 4 (.step runningView true 7) ++
    (.outside (.call 8 (.breadcrumb ⟨2, 0, 0, 0, 0⟩)) ::
      List.replicate 5 (.step runningView false 9)))

theorem breadcrumbs_in_order_eventful :
    ∃ marks : List Nat, marks.Pairwise (· ≤ ·) ∧
      (∀ n ∈ marks,
        n ≤ (trail (["--pid", "1"].map text) ⟨1, 1⟩ 0 startedProducer eventful).length) ∧
      List.Forall₂ (fun o n => recentOf (o.watchdog.breadcrumbs.map (·.2)) =
          ((trail (["--pid", "1"].map text) ⟨1, 1⟩ 0 startedProducer eventful).take n).rtake 8)
        (run (step (["--pid", "1"].map text) ⟨1, 1⟩ 0) (launch startedProducer)
          eventful).printed marks ∧
      ∀ pre, pre <+: eventful → ∀ i n,
        (run (step (["--pid", "1"].map text) ⟨1, 1⟩ 0) (launch startedProducer)
          pre).printed.length < i → marks[i]? = some n →
        (trail (["--pid", "1"].map text) ⟨1, 1⟩ 0 startedProducer pre).length ≤ n :=
  breadcrumbs_in_order ⟨rfl, rfl, rfl, fun _ => rfl, fun _ => rfl⟩ eventful (by decide)

end Runs

end Program

end Peepbooth
