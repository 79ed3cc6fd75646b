import Peepbooth.Granted
import Peepbooth.Program

/-! How the program ends: after a signal, with `--once`, and what it leaves to the producer
when it has gone. -/

namespace Peepbooth

open Schedule

section Calls

variable {c : Client} {m : SharedState}

end Calls

namespace Program

variable {arguments : List Text} {identity : ProcessIdentity} {uid : UInt32} {p : Program}

end Program

/-- What the program does next, as against what happens to it. -/
def ProgramEvent.isStep : ProgramEvent → Bool
  | .step .. => true
  | _ => false

def Line.isObservation : Line → Bool
  | .observation _ => true
  | _ => false

namespace Console

variable {options : ConsoleOptions} {uid : UInt32} {c : Console} {w : World}

theorem lines_observations (c : Console) :
    c.lines.countP Line.isObservation = c.printed.length := by
  have hp : (c.printed.map Line.observation).countP Line.isObservation = c.printed.length := by
    rw [List.countP_map]
    exact List.countP_eq_length.mpr fun _ _ => rfl
  cases hl : c.lifecycle <;> simp [lines, hl, hp, Line.isObservation]

/-- The operations that are left once a stop has been requested. -/
def stepsLeft (c : Console) : Nat :=
  match c.phase with
  | .finished _ => 0
  | .closing | .attaching _ => 1
  | .polling | .pausing _ => 2
  | .waiting => 3
  | .judged .. => 4
  | .snapped .. => 5
  | .sampled _ => 6

/-- The observations that are printed, and the one that a poll under way has still to print. -/
def promised (c : Console) : Nat :=
  c.printed.length + match c.phase with
    | .sampled _ | .snapped .. | .judged .. => 1
    | _ => 0

/-- Nothing is begun any more. -/
structure Winds (c c' : Console) : Prop where
  stop : c'.stopRequested = true
  left : c'.stepsLeft ≤ c.stepsLeft - 1
  promised : c'.promised ≤ c.promised

theorem winds_settle (hs : c.stopRequested = true) :
    Winds c (c.settle options) := by
  have he : c.settle options = { c with phase := .finished 0 } := if_pos hs
  rw [he]
  exact ⟨hs, Nat.zero_le _, Nat.le_add_right _ _⟩

theorem winds_advance (options : ConsoleOptions) (uid : UInt32) (w : World)
    (hs : c.stopRequested = true) : Winds c (c.advance options uid w) := by
  unfold advance
  cases hph : c.phase with
  | attaching n =>
    have he : c.attempt options uid n w = c.settle options := if_neg (by simp [hs])
    dsimp only
    rw [he]
    exact winds_settle hs
  | pausing n =>
    dsimp only
    split
    · exact winds_settle hs
    · exact ⟨hs, by simp [stepsLeft, hph], by simp [promised, hph]⟩
  | polling =>
    dsimp only
    rw [if_pos hs]
    exact ⟨hs, by simp [stepsLeft, hph], by simp [promised, hph]⟩
  | sampled | snapped => exact ⟨hs, by simp [stepsLeft, hph], by simp [promised, hph]⟩
  | judged sample snap seen isAlive =>
    dsimp only
    unfold conclude
    dsimp only
    split
    · exact ⟨hs, by simp [stepsLeft, hph], by simp [promised, hph, perform]⟩
    · refine ⟨hs, ?_, ?_⟩
      · cases options.once <;> simp [stepsLeft, hph]
      · cases options.once <;> simp [promised, hph, perform]
    · exact ⟨hs, by simp [stepsLeft, fail], by simp [promised, hph, perform, fail]⟩
    · exact ⟨hs, by simp [stepsLeft, fail], by simp [promised, hph, perform, fail]⟩
  | waiting =>
    dsimp only
    refine ⟨hs, ?_, ?_⟩
    · split <;> simp [stepsLeft, hph]
    · split <;> simp [promised, hph]
  | closing =>
    dsimp only [close]
    split
    · exact ⟨hs, by simp [stepsLeft], by simp [promised, hph]⟩
    · exact ⟨hs, by simp [stepsLeft], by simp [promised, hph]⟩
  | finished code => exact ⟨hs, by simp [stepsLeft, hph], le_rfl⟩

end Console

namespace Program

variable {arguments : List Text} {identity : ProcessIdentity} {uid : UInt32} {p : Program}

def Exited (p : Program) : Prop := ∃ m code, p.stage = .exited m code

def observations (p : Program) : Nat := p.output.countP Line.isObservation

/-- The program has seen a signal, has at most `n` operations left, and will not print more
than `k` observations in all. -/
def Stopping (k n : Nat) (p : Program) : Prop :=
  match p.stage with
  | .launched _ => False
  | .opening _ _ => p.stopRequested = true ∧ 3 ≤ n ∧ p.observations ≤ k
  | .watching _ c => c.stopRequested = true ∧ c.stepsLeft + 1 ≤ n ∧ c.promised ≤ k
  | .exited _ _ => p.observations ≤ k

def Winding (arguments : List Text) (k n : Nat) (p : Program) : Prop :=
  p.Agrees arguments ∧ p.Stopping k n

theorem Stopping.wait {k n : Nat} (h : p.Stopping k n) {e : ProgramEvent}
    (he : e.isStep = false) : (p.step arguments identity uid e).Stopping k n := by
  unfold Stopping at h
  cases hst : p.stage with
  | launched m =>
    rw [hst] at h
    cases h
  | opening m o =>
    rw [hst] at h
    cases e with
    | step => cases he
    | outside op =>
      simp only [step, hst]
      exact h
    | signal =>
      simp only [step, hst]
      exact ⟨rfl, h.2⟩
  | watching o c =>
    rw [hst] at h
    cases e with
    | step => cases he
    | outside op =>
      simp only [step, hst]
      exact h
    | signal =>
      simp only [step, hst]
      exact ⟨rfl, h.2⟩
  | exited m code =>
    rw [hst] at h
    cases e with
    | step => cases he
    | outside op =>
      simp only [step, hst]
      exact h
    | signal =>
      simp only [step, hst]
      rw [Stopping, hst]
      exact h

theorem Stopping.act {k n : Nat} (h : p.Stopping k n) (hp : p.Agrees arguments)
    {e : ProgramEvent} (he : e.isStep = true) :
    (p.step arguments identity uid e).Stopping k (n - 1) := by
  unfold Stopping at h
  unfold Program.Agrees at hp
  cases e with
  | outside | signal => cases he
  | step view pidfdOpen now =>
    cases hst : p.stage with
    | launched m =>
      rw [hst] at h
      cases h
    | opening m o =>
      rw [hst] at h
      obtain ⟨hs, hn, hk⟩ := h
      simp only [step, hst, openProcess]
      split
      · exact hk
      · refine ⟨hs, ?_, ?_⟩
        · simp only [console, Console.stepsLeft]
          omega
        · exact Nat.zero_le k
    | watching o c =>
      rw [hst] at h hp
      obtain ⟨hs, hn, hk⟩ := h
      have hout : p.observations = c.printed.length := by
        rw [observations, hp.2.2.1, Console.lines_observations]
      simp only [step, hst, watch]
      split
      · next code hph =>
        refine le_trans (le_of_eq hout) (le_trans ?_ hk)
        exact Nat.le_add_right _ _
      · next hnf =>
        obtain ⟨hs', hl, hpr⟩ := Console.winds_advance o uid ⟨c.memory, now, view⟩ hs
        have hpos : 1 ≤ c.stepsLeft := by
          unfold Console.stepsLeft
          split <;> first | omega | exact absurd ‹_› (hnf _)
        refine ⟨hs', ?_, hpr.trans hk⟩
        have hstep : c.step o uid (.watch view now) = c.advance o uid ⟨c.memory, now, view⟩ := rfl
        rw [hstep]
        omega
    | exited m code =>
      rw [hst] at h
      simp only [step, hst]
      rw [Stopping, hst]
      exact h

theorem Stopping.exited {k : Nat} (h : p.Stopping k 0) : p.Exited ∧ p.observations ≤ k := by
  unfold Stopping at h
  cases hst : p.stage with
  | launched m =>
    rw [hst] at h
    cases h
  | opening m o =>
    rw [hst] at h
    omega
  | watching o c =>
    rw [hst] at h
    omega
  | exited m code =>
    rw [hst] at h
    exact ⟨⟨m, code, hst⟩, h⟩

theorem Agrees.stopping (h : p.Agrees arguments) :
    (p.step arguments identity uid .signal).Stopping (p.observations + 1) 7 := by
  unfold Program.Agrees at h
  cases hst : p.stage with
  | launched m =>
    simp only [Program.step, hst]
    exact Nat.le_succ _
  | opening m o =>
    simp only [Program.step, hst]
    exact ⟨rfl, by omega, Nat.le_succ _⟩
  | watching o c =>
    rw [hst] at h
    have hout : p.observations = c.printed.length := by
      rw [observations, h.2.2.1, Console.lines_observations]
    simp only [Program.step, hst]
    refine ⟨rfl, ?_, ?_⟩
    · simp only [Console.step, Console.stepsLeft]
      split <;> omega
    · simp only [Console.step, Console.promised, hout]
      split <;> omega
  | exited m code =>
    simp only [Program.step, hst]
    rw [Stopping, hst]
    exact Nat.le_succ _

/-- Once it has been sent a signal the program exits within seven operations of its own, and
prints one observation at most. -/
theorem signal_exits (arguments : List Text) (identity : ProcessIdentity) (uid : UInt32)
    (m : Mapped) (before after : List ProgramEvent) (h : 7 ≤ after.countP ProgramEvent.isStep) :
    (run (step arguments identity uid) (launch m) (before ++ .signal :: after)).Exited ∧
      (run (step arguments identity uid) (launch m) (before ++ .signal :: after)).observations ≤
        (run (step arguments identity uid) (launch m) before).observations + 1 := by
  rw [run_append, run_cons]
  have hp : (run (step arguments identity uid) (launch m) before).Agrees arguments :=
    invariant_of_step (I := Program.Agrees arguments) (fun _ e hp => hp.step e)
      (Agrees.launch arguments m) before
  generalize run (step arguments identity uid) (launch m) before = p at hp ⊢
  have hstart : (p.step arguments identity uid .signal).Winding arguments (p.observations + 1) 7 :=
    ⟨hp.step .signal, hp.stopping⟩
  have hend : (run (step arguments identity uid) (p.step arguments identity uid .signal)
      after).Winding arguments (p.observations + 1) (7 - after.countP ProgramEvent.isStep) :=
    run_countdown (fun n q e he hq => ⟨hq.1.step e, hq.2.act hq.1 he⟩)
      (fun n q e he hq => ⟨hq.1.step e, hq.2.wait he⟩) hstart after
  rw [Nat.sub_eq_zero_of_le h] at hend
  exact hend.2.exited

theorem signal_exits_polling :
    (run (step (["--pid", "1"].map text) ⟨1, 1⟩ 0) (launch startedProducer)
        (List.replicate 4 (.step runningView true 5) ++
          .signal :: List.replicate 7 (.step runningView true 5))).Exited ∧
      (run (step (["--pid", "1"].map text) ⟨1, 1⟩ 0) (launch startedProducer)
          (List.replicate 4 (.step runningView true 5) ++
            .signal :: List.replicate 7 (.step runningView true 5))).observations ≤
        (run (step (["--pid", "1"].map text) ⟨1, 1⟩ 0) (launch startedProducer)
          (List.replicate 4 (.step runningView true 5))).observations + 1 :=
  signal_exits _ _ _ _ _ _ (by decide)

end Program

namespace Console

variable {options : ConsoleOptions} {uid : UInt32} {c : Console} {w : World}

/-- The operations that are left to a console that polls once. -/
def onceLeft (c : Console) : Nat :=
  match c.phase with
  | .finished _ => 0
  | .closing => 1
  | .judged .. => 2
  | .snapped .. => 3
  | .sampled _ => 4
  | .polling => 5
  | .waiting => 6
  | .pausing n => 2 * (50 - n) + 5
  | .attaching n => 2 * (50 - n) + 6

/-- A console is between two attempts only while it has one left. -/
def Attempting (c : Console) : Prop := ∀ n, c.phase = .pausing n → n < 50

theorem settle_onceLeft (options : ConsoleOptions) (c : Console) :
    (c.settle options).onceLeft ≤ 5 ∧ (c.settle options).Attempting := by
  unfold settle
  repeat' split
  all_goals exact ⟨by simp [onceLeft, fail], fun n hn => by simp [fail] at hn⟩

theorem advance_onceLeft (uid : UInt32) (w : World) (ho : options.once = true)
    (h : c.Attempting) :
    (c.advance options uid w).onceLeft ≤ c.onceLeft - 1 ∧
      (c.advance options uid w).Attempting := by
  obtain ⟨hsettle, hattempting⟩ := settle_onceLeft options c
  unfold advance
  cases hph : c.phase with
  | attaching n =>
    dsimp only
    unfold attempt
    split
    · next hn =>
      dsimp only
      split
      · refine (settle_onceLeft options _).imp_left fun hle => hle.trans ?_
        simp only [onceLeft, hph]
        omega
      · refine ⟨by simp [onceLeft, hph], fun i hi => ?_⟩
        obtain rfl : n = i := by simpa using hi
        exact hn.1
    · refine ⟨hsettle.trans ?_, hattempting⟩
      simp only [onceLeft, hph]
      omega
  | pausing n =>
    have hn := h n hph
    dsimp only
    split
    · refine ⟨hsettle.trans ?_, hattempting⟩
      simp only [onceLeft, hph]
      omega
    · refine ⟨?_, fun i hi => by simp at hi⟩
      simp only [onceLeft, hph]
      omega
  | polling =>
    dsimp only
    split <;> exact ⟨by simp [onceLeft, hph], fun i hi => by simp at hi⟩
  | sampled | snapped => exact ⟨by simp [onceLeft, hph], fun i hi => by simp at hi⟩
  | judged sample snap seen isAlive =>
    dsimp only
    unfold conclude
    dsimp only
    split
    · exact ⟨by simp [onceLeft, hph], fun i hi => by simp at hi⟩
    · exact ⟨by simp [onceLeft, hph, ho], fun i hi => by simp [ho] at hi⟩
    · exact ⟨by simp [onceLeft, fail], fun i hi => by simp [fail] at hi⟩
    · exact ⟨by simp [onceLeft, fail], fun i hi => by simp [fail] at hi⟩
  | waiting =>
    dsimp only
    split <;> exact ⟨by simp [onceLeft, hph], fun i hi => by simp at hi⟩
  | closing =>
    dsimp only [close]
    split <;> exact ⟨by simp [onceLeft], fun i hi => by simp at hi⟩
  | finished code => exact ⟨by simp [onceLeft, hph], h⟩

end Console

namespace Program

variable {arguments : List Text} {identity : ProcessIdentity} {uid : UInt32} {p : Program}

/-- The program polls once at most, and has at most `n` operations left. -/
def Brief (arguments : List Text) (n : Nat) (p : Program) : Prop :=
  p.Agrees arguments ∧
    match p.stage with
    | .launched _ => 109 ≤ n
    | .opening _ _ => 108 ≤ n
    | .watching _ c => c.onceLeft + 1 ≤ n ∧ c.Attempting
    | .exited _ _ => True

theorem Brief.wait {n : Nat} (h : p.Brief arguments n) {e : ProgramEvent}
    (he : e.isStep = false) : (p.step arguments identity uid e).Brief arguments n := by
  refine ⟨h.1.step e, ?_⟩
  have hleft := h.2
  cases hst : p.stage <;> rw [hst] at hleft <;> cases e <;>
    simp only [step, hst] <;> trivial

theorem Brief.act (ho : (parseCommandLine arguments).action = .run →
    (parseCommandLine arguments).options.once = true) {n : Nat} (h : p.Brief arguments n)
    {e : ProgramEvent} (he : e.isStep = true) :
    (p.step arguments identity uid e).Brief arguments (n - 1) := by
  refine ⟨h.1.step e, ?_⟩
  obtain ⟨hp, hleft⟩ := h
  unfold Program.Agrees at hp
  cases e with
  | outside | signal => cases he
  | step view pidfdOpen now =>
    cases hst : p.stage with
    | launched m =>
      rw [hst] at hleft
      cases ha : (parseCommandLine arguments).action with
      | help | error => simp only [step, hst, enter, ha]
      | run =>
        simp only [step, hst, enter, ha]
        exact Nat.le_sub_one_of_lt hleft
    | opening m o =>
      rw [hst] at hleft
      cases hv : view.stat with
      | none => simp only [step, hst, openProcess, hv]
      | some values =>
        simp only [step, hst, openProcess, hv]
        refine ⟨?_, fun i hi => by cases hi⟩
        simp only [console, Console.onceLeft]
        omega
    | watching o c =>
      rw [hst] at hleft hp
      obtain ⟨hn, hatt⟩ := hleft
      by_cases hf : ∃ code, c.phase = .finished code
      · obtain ⟨code, hf⟩ := hf
        simp only [step, hst, watch, hf]
      · have hpos : 1 ≤ c.onceLeft := by
          unfold Console.onceLeft
          split <;> first | omega | exact absurd ⟨_, ‹_›⟩ hf
        have hwatch : p.watch uid o c view now =
            { p with
              stage := .watching o (c.step o uid (.watch view now))
              output := (c.step o uid (.watch view now)).lines
              error := (c.step o uid (.watch view now)).error.toList
              own := p.own ++ (c.step o uid (.watch view now)).history.drop c.history.length } := by
          unfold watch
          split
          · next code hph => exact absurd ⟨code, hph⟩ hf
          · rfl
        simp only [step, hst, hwatch]
        obtain ⟨hl, hatt'⟩ := Console.advance_onceLeft uid ⟨c.memory, now, view⟩
          (hp.2.1 ▸ ho hp.1) hatt
        have hstep : c.step o uid (.watch view now) = c.advance o uid ⟨c.memory, now, view⟩ := rfl
        refine ⟨?_, hatt'⟩
        rw [hstep]
        omega
    | exited m code =>
      simp only [step, hst]

theorem Report.observations {parsed : ParsedCommandLine} {output : List Line} {error : List String}
    {code : Nat} {attached : Bool} (h : Report parsed output error code attached)
    (ho : parsed.action = .run → parsed.options.once = true) :
    output.countP Line.isObservation ≤ 1 := by
  have hcount (printed : List Printed) :
      (printed.map Line.observation).countP Line.isObservation = printed.length := by
    rw [List.countP_map]
    exact List.countP_eq_length.mpr fun _ _ => rfl
  cases h with
  | help | usage | noProcess => simp [Line.isObservation]
  | failed ha _ e printed _ _ honce =>
    rw [hcount]
    exact honce (ho ha)
  | done ha _ printed lifecycle _ honce =>
    have hnone : ((lifecycle.map Line.exited).toList).countP Line.isObservation = 0 := by
      cases lifecycle <;> rfl
    rw [List.countP_append, hcount, hnone]
    exact honce (ho ha)

theorem Brief.exited (ho : (parseCommandLine arguments).action = .run →
    (parseCommandLine arguments).options.once = true) (h : p.Brief arguments 0) :
    p.Exited ∧ p.observations ≤ 1 := by
  obtain ⟨hp, hleft⟩ := h
  unfold Program.Agrees at hp
  cases hst : p.stage with
  | launched m | opening m o =>
    rw [hst] at hleft
    cases hleft
  | watching o c =>
    rw [hst] at hleft
    omega
  | exited m code =>
    rw [hst] at hp
    refine ⟨⟨m, code, hst⟩, ?_⟩
    cases code with
    | none => simp [observations, hp.2.1]
    | some code =>
      obtain ⟨attached, held, hr, -⟩ := hp
      exact hr.observations ho

/-- With `--once` the program exits within 109 operations of its own, whatever it sees and
without any signal, and prints one observation at most. -/
theorem once_exits (arguments : List Text) (identity : ProcessIdentity) (uid : UInt32)
    (m : Mapped) (ho : (parseCommandLine arguments).action = .run →
      (parseCommandLine arguments).options.once = true) (es : List ProgramEvent)
    (h : 109 ≤ es.countP ProgramEvent.isStep) :
    (run (step arguments identity uid) (launch m) es).Exited ∧
      (run (step arguments identity uid) (launch m) es).observations ≤ 1 := by
  have hend : (run (step arguments identity uid) (launch m) es).Brief arguments
      (109 - es.countP ProgramEvent.isStep) :=
    run_countdown (fun n q e he hq => hq.act ho he) (fun n q e he hq => hq.wait he)
      ⟨Agrees.launch arguments m, le_rfl⟩ es
  rw [Nat.sub_eq_zero_of_le h] at hend
  exact hend.exited ho

theorem once_exits_running :
    (run (step (["--pid", "1", "--once"].map text) ⟨1, 1⟩ 0) (launch startedProducer)
        (List.replicate 109 (.step runningView true 5))).Exited ∧
      (run (step (["--pid", "1", "--once"].map text) ⟨1, 1⟩ 0) (launch startedProducer)
        (List.replicate 109 (.step runningView true 5))).observations ≤ 1 :=
  once_exits _ _ _ _ (by decide) _ (by simp only [List.countP_replicate]; decide)

end Program

end Peepbooth
