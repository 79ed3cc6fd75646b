import Peepbooth.ConsoleWatch

/-! The program from its arguments to its exit code: `main`, the handle on the process,
`run_console_watch`, and the destructors at its end. -/

namespace Peepbooth

open Schedule

/-- The memory that a running producer shares. -/
abbrev Mapped := {c : Client // c.mapping.isSome = true}

def Mapped.memory (m : Mapped) : SharedState := m.1.mapping.get m.2

def Mapped.operate (identity : ProcessIdentity) (uid : UInt32) (m : Mapped) (op : Operation) :
    Mapped :=
  ⟨m.1.operate identity uid op, operate_isSome op m.2⟩

/-- A line on the output. -/
inductive Line
  | usage
  | observation (p : Printed)
  | exited (lifecycle : UInt32)

def usageText : String := "usage: monitor --pid PID [--interval-ms N] [--stale-ms N] [--once]\n"

def noProcessMessage (pid : UInt32) : String :=
  "monitor: PID " ++ toString pid ++ " does not identify a running process\n"

/-- A program that a signal has killed has no code. -/
inductive ProgramStage
  | launched (m : Mapped)
  | opening (m : Mapped) (options : ConsoleOptions)
  | watching (options : ConsoleOptions) (c : Console)
  | exited (m : Mapped) (code : Option Nat)

/-- `own` is what the program has done to the memory of the producer. -/
structure Program where
  stage : ProgramStage
  stopRequested : Bool := false
  output : List Line := []
  error : List String := []
  own : List Operation := []

/-- `outside` is the producer or another watcher. `step` is the next thing that the program
does, on a process that shows `view`; `pidfdOpen` says whether it gets a descriptor. -/
inductive ProgramEvent
  | outside (op : Operation)
  | signal
  | step (view : ProcessView) (pidfdOpen : Bool) (now : UInt64)

def Console.lines (c : Console) : List Line :=
  c.printed.map .observation ++ (c.lifecycle.map .exited).toList

/-- The destructor of the session, which only one that has attached does anything for. -/
def Console.farewell (c : Console) : List Operation :=
  if c.observer.attached then [.release] else []

namespace Program

variable (arguments : List Text) (identity : ProcessIdentity) (uid : UInt32)

/-- What `run_console_watch` starts with once it has its handle. -/
def console (m : Mapped) (o : ConsoleOptions) (startTicks : UInt64)
    (pidfdOpen stopRequested : Bool) : Console where
  client := m.1
  mapped := m.2
  observer :=
    { process := ⟨⟨o.pid, startTicks⟩, pidfdOpen⟩
      staleAfterNs := Console.staleAfterNs o
      latest := { identity := ⟨o.pid, startTicks⟩ } }
  stopRequested := stopRequested

/-- `main`, up to the installation of the handlers -/
def enter (p : Program) (m : Mapped) : Program :=
  let parsed := parseCommandLine arguments
  match parsed.action with
  | .help => { p with stage := .exited m (some 0), output := [.usage] }
  | .error => { p with stage := .exited m (some 2), error := [usageText] }
  | .run => { p with stage := .opening m parsed.options }

/-- `process_handle::attach`, at the head of `run_console_watch` -/
def openProcess (p : Program) (m : Mapped) (o : ConsoleOptions) (view : ProcessView)
    (pidfdOpen : Bool) : Program :=
  match view.stat with
  | none => { p with stage := .exited m (some 1), error := [noProcessMessage o.pid] }
  | some values =>
    { p with stage := .watching o (console m o values.startTicks pidfdOpen p.stopRequested) }

def watch (p : Program) (o : ConsoleOptions) (c : Console) (view : ProcessView) (now : UInt64) :
    Program :=
  match c.phase with
  | .finished code =>
    let c' := c.perform uid c.farewell
    { p with stage := .exited ⟨c'.client, c'.mapped⟩ (some code), own := p.own ++ c.farewell }
  | _ =>
    let c' := c.step o uid (.watch view now)
    { p with
      stage := .watching o c'
      output := c'.lines
      error := c'.error.toList
      own := p.own ++ c'.history.drop c.history.length }

/-- A signal before the handlers are installed kills the program. -/
def step (p : Program) : ProgramEvent → Program
  | .outside op =>
    match p.stage with
    | .launched m => { p with stage := .launched (m.operate identity uid op) }
    | .opening m o => { p with stage := .opening (m.operate identity uid op) o }
    | .watching o c => { p with stage := .watching o (c.step o uid (.outside op)) }
    | .exited m code => { p with stage := .exited (m.operate identity uid op) code }
  | .signal =>
    match p.stage with
    | .launched m => { p with stage := .exited m none }
    | .opening _ _ => { p with stopRequested := true }
    | .watching o c =>
      { p with stage := .watching o (c.step o uid .interrupt), stopRequested := true }
    | .exited _ _ => p
  | .step view pidfdOpen now =>
    match p.stage with
    | .launched m => p.enter arguments m
    | .opening m o => p.openProcess m o view pidfdOpen
    | .watching o c => p.watch uid o c view now
    | .exited _ _ => p

def launch (m : Mapped) : Program := { stage := .launched m }

def exitCode (p : Program) : Option Nat :=
  match p.stage with
  | .exited _ code => code
  | _ => none

/-- The memory of the producer. -/
def memory (p : Program) : SharedState :=
  match p.stage with
  | .launched m | .opening m _ | .exited m _ => m.1.mapping.get m.2
  | .watching _ c => c.memory

end Program

namespace Console

variable {options : ConsoleOptions} {uid : UInt32} {c : Console} {w : World}

/-- What a console that stands in its phase has reported. -/
def Agrees (options : ConsoleOptions) (c : Console) : Prop :=
  match c.phase with
  | .attaching _ | .pausing _ =>
    c.observer.attached = false ∧ c.printed = [] ∧ c.error = none ∧ c.lifecycle = none
  | .finished code =>
    (options.once = true → c.printed.length ≤ 1) ∧
      (c.observer.attached = false → c.printed = [] ∧ c.lifecycle = none) ∧
      (code = 0 ∧ c.error = none ∨ code = 1 ∧ c.lifecycle = none ∧
        ∃ e : ConsoleError, c.error = some (e.message options.pid) ∧
          (e = .noState ↔ c.observer.attached = false))
  | .waiting =>
    c.observer.attached = true ∧ c.error = none ∧ c.lifecycle = none ∧ options.once = false
  | .closing =>
    c.observer.attached = true ∧ c.error = none ∧ c.lifecycle = none ∧
      (options.once = true → c.printed.length ≤ 1)
  | _ =>
    c.observer.attached = true ∧ c.error = none ∧ c.lifecycle = none ∧
      (options.once = true → c.printed = [])

theorem acceptSample_attached (o : ObservedProcess) (sample : Option ProcessSample)
    (w : WatchdogSnapshot) (now : UInt64) :
    (o.acceptSample sample w now).attached = o.attached := by
  cases sample with
  | none => rfl
  | some sample => simp only [ObservedProcess.acceptSample]; split <;> rfl

theorem conclude_attached (o : ObservedProcess) (r : PollReads) :
    (o.conclude r).attached = o.attached := by
  simp only [ObservedProcess.conclude]
  split <;> exact acceptSample_attached ..

theorem poll_attached (o : ObservedProcess) (w : World) :
    (o.poll w).1.attached = o.attached := by
  simp only [ObservedProcess.poll]
  split
  · exact conclude_attached ..
  · rfl

theorem Agrees.settle (hp : c.printed = []) (he : c.error = none) (hl : c.lifecycle = none) :
    Agrees options (c.settle options) := by
  unfold Console.settle
  split
  · exact ⟨by simp [hp], fun _ => ⟨hp, hl⟩, .inl ⟨rfl, he⟩⟩
  · split
    · next ha => exact ⟨ha, he, hl, fun _ => hp⟩
    · next ha =>
      exact ⟨by simp [fail, hp], fun _ => ⟨hp, hl⟩,
        .inr ⟨rfl, hl, .noState, rfl, iff_of_true rfl (by simpa [fail] using ha)⟩⟩

theorem Agrees.attempt (n : Nat) (hp : c.printed = [])
    (he : c.error = none) (hl : c.lifecycle = none) :
    Agrees options (c.attempt options uid n w) := by
  unfold Console.attempt
  split
  · dsimp only
    split
    · exact Agrees.settle hp he hl
    · next hna => exact ⟨by simpa using hna, hp, he, hl⟩
  · exact Agrees.settle hp he hl

theorem Agrees.conclude (r : PollReads) (seen : List Operation) (ha : c.observer.attached = true)
    (he : c.error = none) (hl : c.lifecycle = none) (hp : options.once = true → c.printed = []) :
    Agrees options (c.conclude options uid r seen) := by
  have hatt : (c.observer.conclude r).attached = true := (conclude_attached ..).trans ha
  have hfail (e : ConsoleError) (hne : e ≠ .noState) : Agrees options
      (Console.fail options { c.perform uid (if r.isAlive then
        [.renew r.now defaultWatcherLeaseNs] else []) with observer := c.observer.conclude r } e) :=
    ⟨fun ho => by simp [Console.fail, perform, hp ho], fun hn => by simp [Console.fail, hatt] at hn,
      .inr ⟨rfl, hl, e, rfl, iff_of_false hne (by simp [Console.fail, hatt])⟩⟩
  unfold Console.conclude
  dsimp only
  split
  · exact ⟨hatt, he, hl, fun ho => by simp [perform, hp ho]⟩
  · cases ho : options.once with
    | true => exact ⟨hatt, he, hl, fun _ => by simp [perform, hp ho]⟩
    | false => exact ⟨hatt, he, hl, ho⟩
  · exact hfail _ (by simp)
  · exact hfail _ (by simp)

theorem Agrees.advance (h : Agrees options c) : Agrees options (c.advance options uid w) := by
  unfold Agrees at h
  unfold Console.advance
  cases hph : c.phase with
  | attaching n =>
    rw [hph] at h
    exact Agrees.attempt n h.2.1 h.2.2.1 h.2.2.2
  | pausing n =>
    rw [hph] at h
    dsimp only
    split
    · exact Agrees.settle h.2.1 h.2.2.1 h.2.2.2
    · exact h
  | polling =>
    rw [hph] at h
    dsimp only
    split
    · exact ⟨h.1, h.2.1, h.2.2.1, fun ho => by simp [h.2.2.2 ho]⟩
    · exact h
  | sampled | snapped =>
    rw [hph] at h
    exact h
  | judged sample snap seen isAlive =>
    rw [hph] at h
    exact Agrees.conclude _ seen h.1 h.2.1 h.2.2.1 h.2.2.2
  | waiting =>
    rw [hph] at h
    obtain ⟨ha, he, hl, ho⟩ := h
    dsimp only
    split
    · exact ⟨ha, he, hl, by simp [ho]⟩
    · exact ⟨ha, he, hl, by simp [ho]⟩
  | closing =>
    rw [hph] at h
    obtain ⟨ha, he, hl, hp⟩ := h
    dsimp only [Console.close]
    split
    · exact ⟨hp, fun hn => by simp [ha] at hn, .inl ⟨rfl, he⟩⟩
    · refine ⟨hp, fun hn => ?_, .inl ⟨rfl, he⟩⟩
      rw [poll_attached, ha] at hn
      cases hn
  | finished code =>
    dsimp only
    unfold Agrees
    rw [hph] at h ⊢
    exact h

theorem Agrees.step (h : Agrees options c) (e : ConsoleEvent) :
    Agrees options (c.step options uid e) := by
  cases e with
  | watch view now => exact h.advance
  | outside op | interrupt =>
    unfold Agrees at h ⊢
    exact h

/-- What the program has done to the memory, as it should be for a session that is held or
not. -/
def Leased (attached : Bool) (own : List Operation) : Prop :=
  if attached then
    ∃ now rest, own = .attach now :: rest ∧
      ∀ op ∈ rest, ∃ now, op = .renew now defaultWatcherLeaseNs
  else own = []

theorem settle_attached : (c.settle options).observer.attached = c.observer.attached := by
  unfold settle
  repeat' split
  all_goals rfl

/-- What a console may do to the memory in one operation. -/
inductive Turn (now : UInt64) (c c' : Console) : List Operation → Prop
  | quiet (h : c'.observer.attached = c.observer.attached) : Turn now c c' []
  | renew (h : c'.observer.attached = c.observer.attached) (ha : c.observer.attached = true) :
    Turn now c c' [.renew now defaultWatcherLeaseNs]
  | attach (ha : c.observer.attached = false) (h : c'.observer.attached = true) :
    Turn now c c' [.attach now]

theorem attempt_turn (n : Nat) (ha : c.observer.attached = false) :
    ∃ ops, (c.attempt options uid n w).history = c.history ++ ops ∧
      Turn w.clock c (c.attempt options uid n w) ops := by
  unfold attempt
  split
  case isFalse =>
    exact ⟨[], by rw [settle_history, List.append_nil], .quiet settle_attached⟩
  dsimp only
  rcases tryAttach_cases c.observer uid w with hr | hr
  · rw [hr, if_neg (by simp [ha])]
    exact ⟨[], rfl, .quiet rfl⟩
  · rw [hr, if_pos rfl]
    exact ⟨[.attach w.clock], settle_history, .attach ha settle_attached⟩

theorem Agrees.turn (h : Agrees options c) (uid : UInt32) (w : World) :
    ∃ ops, (c.advance options uid w).history = c.history ++ ops ∧
      Turn w.clock c (c.advance options uid w) ops := by
  have hquiet {c' : Console} (hh : c'.history = c.history)
      (ha : c'.observer.attached = c.observer.attached) :
      ∃ ops, c'.history = c.history ++ ops ∧ Turn w.clock c c' ops :=
    ⟨[], by rw [hh, List.append_nil], .quiet ha⟩
  unfold Agrees at h
  unfold Console.advance
  cases hph : c.phase with
  | attaching n =>
    rw [hph] at h
    exact attempt_turn n h.1
  | pausing n =>
    dsimp only
    split
    · exact hquiet settle_history settle_attached
    · exact hquiet rfl rfl
  | polling =>
    dsimp only
    split <;> exact hquiet rfl rfl
  | judged sample snap seen isAlive =>
    rw [hph] at h
    have hatt := conclude_observer options uid c ⟨sample, snap, isAlive, w.clock⟩ seen
    have hsame : (c.conclude options uid ⟨sample, snap, isAlive, w.clock⟩ seen).observer.attached =
        c.observer.attached := by rw [hatt.1, conclude_attached]
    refine ⟨_, conclude_history .., ?_⟩
    cases isAlive with
    | true => exact .renew hsame h.1
    | false => exact .quiet hsame
  | closing =>
    dsimp only [Console.close]
    split
    · exact hquiet rfl rfl
    · exact hquiet rfl (poll_attached ..)
  | _ => exact hquiet rfl rfl

/-- What the program has done to the memory by the time its session is held, or not. -/
theorem Turn.leased {now : UInt64} {c' : Console} {ops own : List Operation}
    (h : Turn now c c' ops) (ho : Leased c.observer.attached own) :
    Leased c'.observer.attached (own ++ ops) := by
  cases h with
  | quiet h => rwa [h, List.append_nil]
  | renew h ha =>
    rw [h]
    rw [ha] at ho ⊢
    obtain ⟨t, rest, rfl, hrest⟩ := ho
    refine ⟨t, rest ++ [.renew now defaultWatcherLeaseNs], rfl, fun op hop => ?_⟩
    rcases List.mem_append.mp hop with hop | hop
    · exact hrest op hop
    · exact ⟨now, List.mem_singleton.mp hop⟩
  | attach ha h =>
    rw [ha] at ho
    obtain rfl : own = [] := ho
    rw [h]
    exact ⟨now, [], rfl, by simp⟩

end Console

namespace Program

open Console

variable {arguments : List Text} {identity : ProcessIdentity} {uid : UInt32} {p : Program}
  {m : Mapped}

/-- What the program has said by the time it exits with a code, and whether it has attached. -/
inductive Report (parsed : ParsedCommandLine) : List Line → List String → Nat → Bool → Prop
  | help (ha : parsed.action = .help) : Report parsed [.usage] [] 0 false
  | usage (ha : parsed.action = .error) : Report parsed [] [usageText] 2 false
  | noProcess (ha : parsed.action = .run) :
    Report parsed [] [noProcessMessage parsed.options.pid] 1 false
  | failed (ha : parsed.action = .run) (attached : Bool) (e : ConsoleError)
    (printed : List Printed) (hn : e = .noState ↔ attached = false)
    (hnone : attached = false → printed = [])
    (honce : parsed.options.once = true → printed.length ≤ 1) :
    Report parsed (printed.map .observation) [e.message parsed.options.pid] 1 attached
  | done (ha : parsed.action = .run) (attached : Bool) (printed : List Printed)
    (lifecycle : Option UInt32) (hnone : attached = false → printed = [] ∧ lifecycle = none)
    (honce : parsed.options.once = true → printed.length ≤ 1) :
    Report parsed (printed.map .observation ++ (lifecycle.map .exited).toList) [] 0 attached

/-- The stage, what has been said and what has been done agree. -/
def Agrees (arguments : List Text) (p : Program) : Prop :=
  let parsed := parseCommandLine arguments
  match p.stage with
  | .launched _ => p.output = [] ∧ p.error = [] ∧ p.own = []
  | .opening _ o =>
    parsed.action = .run ∧ o = parsed.options ∧ p.output = [] ∧ p.error = [] ∧ p.own = []
  | .watching o c =>
    parsed.action = .run ∧ o = parsed.options ∧ p.output = c.lines ∧ p.error = c.error.toList ∧
      c.Agrees o ∧ Leased c.observer.attached p.own
  | .exited _ none => p.own = [] ∧ p.output = [] ∧ p.error = []
  | .exited _ (some code) => ∃ attached held,
    Report parsed p.output p.error code attached ∧ Leased attached held ∧
      p.own = held ++ if attached then [.release] else []

theorem Agrees.launch (arguments : List Text) (m : Mapped) : (launch m).Agrees arguments :=
  ⟨rfl, rfl, rfl⟩

theorem Agrees.enter (ho : p.output = []) (he : p.error = []) (hw : p.own = []) :
    (p.enter arguments m).Agrees arguments := by
  unfold Program.enter
  dsimp only
  split
  · next ha =>
    rw [he]
    exact ⟨false, [], .help ha, rfl, hw⟩
  · next ha =>
    rw [ho]
    exact ⟨false, [], .usage ha, rfl, hw⟩
  · next ha => exact ⟨ha, rfl, ho, he, hw⟩

theorem Agrees.openProcess {o : ConsoleOptions} (view : ProcessView) (pidfdOpen : Bool)
    (ha : (parseCommandLine arguments).action = .run)
    (hopt : o = (parseCommandLine arguments).options)
    (ho : p.output = []) (he : p.error = []) (hw : p.own = []) :
    (p.openProcess m o view pidfdOpen).Agrees arguments := by
  unfold Program.openProcess
  split
  · rw [ho, hopt]
    exact ⟨false, [], .noProcess ha, rfl, hw⟩
  · exact ⟨ha, hopt, ho, he, ⟨rfl, rfl, rfl, rfl⟩, hw⟩

/-- A console that has finished says why. -/
theorem report_finished {o : ConsoleOptions} {c : Console} {code : Nat}
    (ha : (parseCommandLine arguments).action = .run)
    (hopt : o = (parseCommandLine arguments).options)
    (hc : c.Agrees o) (hph : c.phase = .finished code) :
    Report (parseCommandLine arguments) c.lines c.error.toList code c.observer.attached := by
  unfold Console.Agrees at hc
  rw [hph] at hc
  obtain ⟨honce, hnone, ⟨rfl, herr⟩ | ⟨rfl, hl, e, herr, hstate⟩⟩ := hc
  · rw [herr]
    exact .done ha _ c.printed c.lifecycle hnone (hopt ▸ honce)
  · have hlines : c.lines = c.printed.map .observation := by simp [lines, hl]
    rw [herr, hlines, hopt]
    exact .failed ha _ e c.printed hstate (fun hn => (hnone hn).1) (hopt ▸ honce)

theorem Agrees.watch {o : ConsoleOptions} {c : Console} (view : ProcessView) (now : UInt64)
    (ha : (parseCommandLine arguments).action = .run)
    (hopt : o = (parseCommandLine arguments).options)
    (ho : p.output = c.lines) (he : p.error = c.error.toList) (hc : c.Agrees o)
    (hw : Leased c.observer.attached p.own) :
    (p.watch uid o c view now).Agrees arguments := by
  unfold Program.watch
  split
  · next code hph =>
    have hr := report_finished ha hopt hc hph
    rw [← ho, ← he] at hr
    exact ⟨c.observer.attached, p.own, hr, hw, rfl⟩
  · obtain ⟨ops, hh, hturn⟩ := hc.turn uid ⟨c.memory, now, view⟩
    have hdrop : (c.step o uid (.watch view now)).history.drop c.history.length = ops := by
      rw [Console.step, hh, List.drop_left]
    have hleased := hturn.leased hw
    rw [← hdrop] at hleased
    exact ⟨ha, hopt, rfl, rfl, hc.step _, hleased⟩

theorem Agrees.step (h : p.Agrees arguments) (e : ProgramEvent) :
    (p.step arguments identity uid e).Agrees arguments := by
  unfold Program.Agrees at h
  cases hst : p.stage with
  | launched m =>
    rw [hst] at h
    obtain ⟨ho, he, hw⟩ := h
    cases e with
    | outside op => simpa [Program.step, hst, Program.Agrees] using ⟨ho, he, hw⟩
    | signal => simpa [Program.step, hst, Program.Agrees] using ⟨hw, ho, he⟩
    | step view pidfdOpen now =>
      simp only [Program.step, hst]
      exact Agrees.enter ho he hw
  | opening m o =>
    rw [hst] at h
    obtain ⟨ha, hopt, ho, he, hw⟩ := h
    cases e with
    | outside op => simpa [Program.step, hst, Program.Agrees] using ⟨ha, hopt, ho, he, hw⟩
    | signal => simpa [Program.step, hst, Program.Agrees] using ⟨ha, hopt, ho, he, hw⟩
    | step view pidfdOpen now =>
      simp only [Program.step, hst]
      exact Agrees.openProcess view pidfdOpen ha hopt ho he hw
  | watching o c =>
    rw [hst] at h
    obtain ⟨ha, hopt, ho, he, hc, hw⟩ := h
    cases e with
    | outside op =>
      simp only [Program.step, hst]
      exact ⟨ha, hopt, ho, he, hc.step _, hw⟩
    | signal =>
      simp only [Program.step, hst]
      exact ⟨ha, hopt, ho, he, hc.step _, hw⟩
    | step view pidfdOpen now =>
      simp only [Program.step, hst]
      exact Agrees.watch view now ha hopt ho he hc hw
  | exited m code =>
    rw [hst] at h
    cases e with
    | outside op =>
      simp only [Program.step, hst]
      cases code <;> exact h
    | signal | step =>
      simp only [Program.step, hst]
      rw [Program.Agrees, hst]
      exact h

/-- Whatever the arguments are and whatever happens meanwhile: when the program exits, its
output, its error output and its exit code are those of one of five reports, and what it has
done to the memory of the producer is nothing at all, or one attachment, renewals of the
lease and a release. -/
theorem exit_report (arguments : List Text) (identity : ProcessIdentity) (uid : UInt32)
    (m : Mapped) (es : List ProgramEvent) (code : Nat)
    (hx : (run (step arguments identity uid) (launch m) es).exitCode = some code) :
    ∃ attached, Report (parseCommandLine arguments)
        (run (step arguments identity uid) (launch m) es).output
        (run (step arguments identity uid) (launch m) es).error code attached ∧
      if attached then
        ∃ now renewals, (run (step arguments identity uid) (launch m) es).own =
            .attach now :: renewals ++ [.release] ∧
          ∀ op ∈ renewals, ∃ now, op = .renew now defaultWatcherLeaseNs
      else (run (step arguments identity uid) (launch m) es).own = [] := by
  have h : (run (step arguments identity uid) (launch m) es).Agrees arguments :=
    invariant_of_step (I := Program.Agrees arguments) (fun _ e hp => hp.step e)
      (Agrees.launch arguments m) es
  generalize run (step arguments identity uid) (launch m) es = p at h hx ⊢
  unfold exitCode at hx
  unfold Program.Agrees at h
  split at hx
  · next m' code' hst =>
    rw [hst] at h
    obtain rfl : code' = some code := hx
    obtain ⟨attached, held, hr, hl, hw⟩ := h
    refine ⟨attached, hr, ?_⟩
    cases attached with
    | true =>
      obtain ⟨now, rest, rfl, hrest⟩ := hl
      exact ⟨now, rest, hw, hrest⟩
    | false =>
      obtain rfl : held = [] := hl
      exact hw
  · cases hx

/-- A producer that has just started, and a process that looks alive. -/
def startedProducer : Mapped := ⟨clientAfter ⟨1, 1⟩ 0 [] [], rfl⟩

def runningView : ProcessView where
  status := some ⟨⟨1, 1⟩, {}⟩
  stat := some ⟨⟨1, 1⟩, 0, 1⟩
  exitReadable := false
  noSuchProcess := false

theorem exit_report_once :
    ∃ attached, Report (parseCommandLine (["--pid", "1", "--once"].map text))
        (run (step (["--pid", "1", "--once"].map text) ⟨1, 1⟩ 0) (launch startedProducer)
          (List.replicate 9 (.step runningView true 5))).output
        (run (step (["--pid", "1", "--once"].map text) ⟨1, 1⟩ 0) (launch startedProducer)
          (List.replicate 9 (.step runningView true 5))).error 0 attached ∧
      if attached then
        ∃ now renewals, (run (step (["--pid", "1", "--once"].map text) ⟨1, 1⟩ 0)
            (launch startedProducer) (List.replicate 9 (.step runningView true 5))).own =
            .attach now :: renewals ++ [.release] ∧
          ∀ op ∈ renewals, ∃ now, op = .renew now defaultWatcherLeaseNs
      else (run (step (["--pid", "1", "--once"].map text) ⟨1, 1⟩ 0) (launch startedProducer)
        (List.replicate 9 (.step runningView true 5))).own = [] :=
  exit_report _ _ _ _ _ 0 (by decide)

end Program

end Peepbooth
