import Peepbooth.ConsoleText
import Peepbooth.Health
import Peepbooth.Program
import Peepbooth.SteadyState
import Mathlib.Tactic.FieldSimp

/-! The verdict on the console can be checked against the line of heartbeats below it. -/

namespace Peepbooth

open BinaryFloat FixedPoint Schedule

/-- A heartbeat that is shown at `limit` milliseconds at most. -/
def Current (limit : Nat) (beat : String × Option Fixed) : Prop :=
  ∃ age, beat.2 = some age ∧ age.units ≤ limit

/-- A heartbeat that is shown as pending, or at `limit` milliseconds at least. -/
def Late (limit : Nat) (beat : String × Option Fixed) : Prop :=
  ∀ age, beat.2 = some age → limit ≤ age.units

/-- What is shown bears out the verdict. -/
def Display.Supports (limit : Nat) (d : Display) : Prop :=
  match d.health with
  | .awaitingHeartbeat => d.beats = []
  | .healthy => d.beats ≠ [] ∧ ∀ beat ∈ d.beats, Current limit beat
  | .degraded => (∃ beat ∈ d.beats, Current limit beat) ∧ ∃ beat ∈ d.beats, Late limit beat
  | .guiStalled =>
    (∃ beat ∈ d.beats, beat.1 = "gui" ∧ Late limit beat) ∧
      ∃ beat ∈ d.beats, beat.1 ≠ "gui" ∧ Current limit beat
  | .globallyStalledIdle =>
    d.beats ≠ [] ∧ (∀ beat ∈ d.beats, Late limit beat) ∧ d.cpu.units ≤ 200
  | .globallyStalledBusy =>
    d.beats ≠ [] ∧ (∀ beat ∈ d.beats, Late limit beat) ∧ 200 ≤ d.cpu.units

theorem channelName_gui (value : Channel) : channelName value = "gui" ↔ value = Channel.gui := by
  unfold channelName
  split_ifs with hm hg
  · rw [hm]
    decide
  · exact iff_of_true rfl hg
  all_goals exact iff_of_false (by decide) hg

/-- The limit of a watcher that is given in milliseconds, as an `int`. -/
structure InMilliseconds (staleAfter : UInt64) (limit : Nat) : Prop where
  nanoseconds : staleAfter.toNat = limit * 1000000
  small : limit ≤ 2147483647

section Beats

variable {h : HeartbeatSnapshot} {now staleAfter : UInt64} {limit : Nat}

theorem seconds_nonneg (ns : Nat) : 0 ≤ seconds ns :=
  round_nonneg (div_nonneg (round_nonneg (Nat.cast_nonneg ns)) (by norm_num))

theorem seconds_mono {m n : Nat} (h : m ≤ n) : seconds m ≤ seconds n :=
  round_mono (div_nonneg (round_nonneg (Nat.cast_nonneg m)) (by norm_num))
    (div_le_div_of_nonneg_right (round_mono (Nat.cast_nonneg m) (Nat.cast_le.mpr h)) (by norm_num))

/-- The units of an age are milliseconds. Whole milliseconds are shown as they are, although few
of them are a `double` of seconds. -/
theorem units_seconds (h : InMilliseconds staleAfter limit) :
    units 3 (seconds staleAfter.toNat) = limit := by
  have hexact : double (staleAfter.toNat : ℚ) = (limit : ℚ) * 1000000 := by
    rw [h.nanoseconds, double, BinaryFloat.round_natCast (by have := h.small; norm_num; omega)]
    push_cast
    rfl
  have hs : seconds staleAfter.toNat = double ((limit : ℚ) / 1000) := by
    rw [seconds, hexact]
    congr 1
    ring
  have herr := abs_round_sub_le 52 ((limit : ℚ) / 1000)
  have hlimit : (limit : ℚ) ≤ 2147483647 := by exact_mod_cast h.small
  rw [abs_of_nonneg (by positivity : (0 : ℚ) ≤ (limit : ℚ) / 1000)] at herr
  refine units_of_near (seconds_nonneg _) ?_
  rw [hs, double, abs_lt]
  obtain ⟨hlow, hhigh⟩ := abs_le.mp herr
  norm_num at hlow hhigh ⊢
  constructor <;> linarith

/-- The `double` of half a millisecond is the larger one. -/
example : fixed 3 (seconds 500000) = ⟨false, 1⟩ := by decide +kernel

theorem age_of_timestamp (ht : h.timestampNs ≠ 0) :
    h.age now = some (seconds (if now ≥ h.timestampNs then now - h.timestampNs else 0).toNat) :=
  if_neg ht

theorem current_of_stale (hs : InMilliseconds staleAfter limit)
    (hst : h.stale now staleAfter = false) : Current limit (h.display now) := by
  have ht : h.timestampNs ≠ 0 := fun h0 => by simp [HeartbeatSnapshot.stale, h0] at hst
  have hle : (if now ≥ h.timestampNs then now - h.timestampNs else 0).toNat ≤
      staleAfter.toNat := by
    split
    · next hn => exact UInt64.le_iff_toNat_le.mp ((stale_eq_false hn).mp hst).2
    · exact Nat.zero_le _
  refine ⟨fixed 3 _, by rw [HeartbeatSnapshot.display, age_of_timestamp ht]; rfl, ?_⟩
  show units 3 _ ≤ limit
  rw [← units_seconds hs]
  exact units_mono (seconds_nonneg _) (seconds_mono hle)

theorem late_of_stale (hs : InMilliseconds staleAfter limit)
    (hst : h.stale now staleAfter = true) : Late limit (h.display now) := by
  intro age hage
  by_cases ht : h.timestampNs = 0
  · rw [HeartbeatSnapshot.display, HeartbeatSnapshot.age, if_pos ht] at hage
    cases hage
  · rw [HeartbeatSnapshot.display, age_of_timestamp ht] at hage
    obtain rfl := Option.some.inj hage
    have hlate : now ≥ h.timestampNs ∧ now - h.timestampNs > staleAfter := by
      simpa [HeartbeatSnapshot.stale, ht] using hst
    rw [if_pos hlate.1]
    show limit ≤ units 3 _
    rw [← units_seconds hs]
    exact units_mono (seconds_nonneg _) (seconds_mono (UInt64.lt_iff_toNat_lt.mp hlate.2).le)

end Beats

theorem nonneg_of_cpuPercent {o : ObservedProcess} {sample : ProcessSample} {cpu : ℚ}
    (h : o.cpuPercent sample = some cpu) : 0 ≤ cpu := by
  obtain ⟨earlier, -, h⟩ := Option.bind_eq_some_iff.mp h
  split at h
  · obtain rfl := Option.some.inj h
    positivity
  · cases h

/-- What a poll that counts as sampled leaves to be shown. -/
theorem display_conclude {o : ObservedProcess} {r : PollReads} {d : Display}
    (h : (o.conclude r).latest.display = some d) :
    ∃ cpu : ℚ, 0 ≤ cpu ∧ d.cpu = fixed 1 cpu ∧
      d.health = classifyHealth r.snapshot r.now o.staleAfterNs cpu ∧
      d.beats = (r.snapshot.heartbeats.filter (·.active)).map (·.display r.now) := by
  obtain ⟨sample, snapshot, isAlive, now⟩ := r
  cases isAlive with
  | false =>
    cases sample <;> simp [ObservedProcess.conclude, ObservedProcess.acceptSample,
      ProcessObservation.display] at h
  | true =>
    cases sample with
    | none =>
      simp [ObservedProcess.conclude, ObservedProcess.acceptSample,
        ProcessObservation.display] at h
    | some sample =>
      simp only [ObservedProcess.conclude, ObservedProcess.acceptSample, if_true] at h
      split at h
      · simp [ProcessObservation.display] at h
      · simp only [ProcessObservation.display, if_true, Option.some.injEq] at h
        obtain rfl := h
        refine ⟨(o.cpuPercent sample).getD 0, ?_, rfl, rfl, rfl⟩
        cases hc : o.cpuPercent sample with
        | none => exact le_rfl
        | some cpu => exact nonneg_of_cpuPercent hc

section Flags

variable {hs : List HeartbeatSnapshot} {now staleAfter : UInt64} {limit : Nat}
  {beats : List (String × Option Fixed)}

/-- The flags of the evidence, as the beats that are shown have it. -/
theorem flags_of_beats (hl : InMilliseconds staleAfter limit)
    (hb : beats = (hs.filter (·.active)).map (·.display now)) :
    let e := hs.foldl (Evidence.add now staleAfter) {}
    (e.anyActive = true ↔ beats ≠ []) ∧
      (e.anyCurrent = true → ∃ beat ∈ beats, Current limit beat) ∧
      (e.anyCurrent = false → ∀ beat ∈ beats, Late limit beat) ∧
      (e.anyStale = true → ∃ beat ∈ beats, Late limit beat) ∧
      (e.anyStale = false → ∀ beat ∈ beats, Current limit beat) ∧
      (e.guiStale = true → ∃ beat ∈ beats, beat.1 = "gui" ∧ Late limit beat) ∧
      (e.nonGuiCurrent = true → ∃ beat ∈ beats, beat.1 ≠ "gui" ∧ Current limit beat) := by
  intro e
  have hmem (beat : String × Option Fixed) : beat ∈ beats ↔
      ∃ h ∈ hs, h.active = true ∧ h.display now = beat := by
    simp [hb, and_assoc]
  refine ⟨?_, fun hc => ?_, fun hc beat hm => ?_, fun hst => ?_, fun hst beat hm => ?_,
    fun hg => ?_, fun hg => ?_⟩
  · rw [Evidence.foldl_anyActive, hb]
    simp
  · rcases Evidence.foldl_anyCurrent.mp hc with hc | ⟨h, hh, ha, hst⟩
    · cases hc
    · exact ⟨_, (hmem _).mpr ⟨h, hh, ha, rfl⟩, current_of_stale hl hst⟩
  · obtain ⟨h, hh, ha, rfl⟩ := (hmem beat).mp hm
    rw [← Bool.not_eq_true, Evidence.foldl_anyCurrent] at hc
    exact late_of_stale hl (Bool.not_eq_false _ ▸ fun hst => hc (.inr ⟨h, hh, ha, hst⟩))
  · rcases Evidence.foldl_anyStale.mp hst with hst | ⟨h, hh, ha, hst⟩
    · cases hst
    · exact ⟨_, (hmem _).mpr ⟨h, hh, ha, rfl⟩, late_of_stale hl hst⟩
  · obtain ⟨h, hh, ha, rfl⟩ := (hmem beat).mp hm
    rw [← Bool.not_eq_true, Evidence.foldl_anyStale] at hst
    exact current_of_stale hl (Bool.not_eq_true _ ▸ fun hs => hst (.inr ⟨h, hh, ha, hs⟩))
  · rcases Evidence.foldl_guiStale_mem hg with hg | ⟨h, hh, ha, hid, hst⟩
    · cases hg
    · exact ⟨_, (hmem _).mpr ⟨h, hh, ha, rfl⟩, (channelName_gui _).mpr hid, late_of_stale hl hst⟩
  · rcases Evidence.foldl_nonGuiCurrent.mp hg with hg | ⟨h, hh, ha, hid, hst⟩
    · cases hg
    · exact ⟨_, (hmem _).mpr ⟨h, hh, ha, rfl⟩, mt (channelName_gui _).mp hid,
        current_of_stale hl hst⟩

end Flags

theorem display_supports {o : ObservedProcess} {r : PollReads} {d : Display} {limit : Nat}
    (hs : InMilliseconds o.staleAfterNs limit) (h : (o.conclude r).latest.display = some d) :
    d.Supports limit := by
  obtain ⟨cpu, hcpu, hshown, hhealth, hbeats⟩ := display_conclude h
  obtain ⟨hactive, hcurrent, hnone, hstale, hall, hgui, hother⟩ := flags_of_beats hs hbeats
  have hspec := Evidence.verdict_spec
    (r.snapshot.heartbeats.foldl (Evidence.add r.now o.staleAfterNs) {}) cpu
  have hunits : units 1 (20 : ℚ) = 200 := units_of_eq (by norm_num) (by norm_num)
  rw [← classifyHealth, ← hhealth] at hspec
  unfold Display.Supports
  cases hd : d.health <;> rw [hd] at hspec <;> dsimp only at hspec ⊢
  case awaitingHeartbeat =>
    by_contra hne
    rw [hactive.mpr hne] at hspec
    cases hspec
  case healthy => exact ⟨hactive.mp hspec.1, hall hspec.2.2⟩
  case degraded => exact ⟨hcurrent hspec.1, hstale hspec.2⟩
  case guiStalled => exact ⟨hgui hspec.1, hother hspec.2⟩
  case globallyStalledIdle =>
    refine ⟨hactive.mp hspec.1, hnone hspec.2.1, ?_⟩
    rw [hshown, ← hunits]
    exact units_mono hcpu hspec.2.2.le
  case globallyStalledBusy =>
    refine ⟨hactive.mp hspec.1, hnone hspec.2.1, ?_⟩
    rw [hshown, ← hunits]
    exact units_mono (by norm_num) hspec.2.2

/-- A line that bears out its own verdict. -/
def Line.Supported (limit : Nat) : Line → Prop
  | .observation p => ∃ d, p.observation.display = some d ∧ d.Supports limit
  | _ => True

namespace Console

variable {c : Console}

theorem advance_observer (options : ConsoleOptions) (uid : UInt32) (c : Console) (w : World) :
    (c.advance options uid w).observer.staleAfterNs = c.observer.staleAfterNs := by
  have hsettle (c : Console) : (c.settle options).observer = c.observer := by
    unfold settle
    repeat' split
    all_goals rfl
  unfold advance
  split
  · unfold attempt
    split
    · dsimp only
      split
      · rw [hsettle]
        exact (tryAttach_process _ _ _).2
      · exact (tryAttach_process _ _ _).2
    · rw [hsettle]
  · split
    · rw [hsettle]
    · rfl
  · split <;> rfl
  · rfl
  · rfl
  · rw [(conclude_observer ..).1, ObservedProcess.conclude_staleAfterNs]
  · rfl
  · unfold close
    split
    · rfl
    · exact (poll_process _ _).2
  · rfl

/-- What is printed is what a poll has found. -/
theorem advance_printed (options : ConsoleOptions) (uid : UInt32) (c : Console) (w : World) :
    (c.advance options uid w).printed = c.printed ∨
      ∃ r seen, (c.observer.conclude r).latest.status = .sampled ∧
        (c.advance options uid w).printed =
          c.printed ++ [⟨seen, (c.observer.conclude r).latest⟩] := by
  unfold advance
  split
  · unfold attempt
    split
    · dsimp only
      split
      · exact .inl settle_printed
      · exact .inl rfl
    · exact .inl settle_printed
  · split
    · exact .inl settle_printed
    · exact .inl rfl
  · split <;> exact .inl rfl
  · exact .inl rfl
  · exact .inl rfl
  · next sample snapshot seen isAlive _ =>
    unfold conclude
    dsimp only
    split
    · exact .inl rfl
    · next hs => exact .inr ⟨_, seen, hs, rfl⟩
    · exact .inl rfl
    · exact .inl rfl
  · exact .inl rfl
  · unfold close
    split <;> exact .inl rfl
  · exact .inl rfl

theorem display_of_sampled {o : ObservedProcess} {r : PollReads}
    (h : (o.conclude r).latest.status = .sampled) :
    ∃ d, (o.conclude r).latest.display = some d := by
  obtain ⟨-, sample, -, -, hsample, cpu, hhealth⟩ := ObservedProcess.conclude_sampled h
  exact ⟨_, by rw [ProcessObservation.display, hsample, hhealth]; exact if_pos h⟩

theorem advance_supported (options : ConsoleOptions) (uid : UInt32) (w : World) {limit : Nat}
    (hs : InMilliseconds c.observer.staleAfterNs limit)
    (h : ∀ p ∈ c.printed, (Line.observation p).Supported limit) :
    ∀ p ∈ (c.advance options uid w).printed, (Line.observation p).Supported limit := by
  rcases advance_printed options uid c w with he | ⟨r, seen, hstatus, he⟩
  · rw [he]
    exact h
  · rw [he]
    intro p hp
    rcases List.mem_append.mp hp with hp | hp
    · exact h p hp
    · obtain rfl := List.mem_singleton.mp hp
      obtain ⟨d, hd⟩ := display_of_sampled hstatus
      exact ⟨d, hd, display_supports hs hd⟩

end Console

namespace Program

variable {arguments : List Text} {identity : ProcessIdentity} {uid : UInt32} {p : Program}

def limit (arguments : List Text) : Nat := (parseCommandLine arguments).options.staleMs.toNat

/-- Every line bears out its verdict, and so will the next. -/
structure Sound (arguments : List Text) (p : Program) : Prop where
  output : ∀ line ∈ p.output, line.Supported (limit arguments)
  watching : ∀ o c, p.stage = .watching o c →
    InMilliseconds c.observer.staleAfterNs (limit arguments) ∧
      ∀ q ∈ c.printed, (Line.observation q).Supported (limit arguments)

theorem Sound.watch {o : ConsoleOptions} {c : Console} (h : Sound arguments p)
    (hst : p.stage = .watching o c) (view : ProcessView) (now : UInt64) :
    Sound arguments (p.watch uid o c view now) := by
  obtain ⟨hs, hp⟩ := h.watching o c hst
  unfold Program.watch
  split
  · exact ⟨h.output, fun _ _ hw => by cases hw⟩
  · have hnext := Console.advance_supported o uid ⟨c.memory, now, view⟩ hs hp
    refine ⟨fun line hl => ?_, fun o' c' hw => ?_⟩
    · rcases List.mem_append.mp hl with hl | hl
      · obtain ⟨q, hq, rfl⟩ := List.mem_map.mp hl
        exact hnext q hq
      · obtain ⟨lifecycle, -, rfl⟩ := Option.map_eq_some_iff.mp (Option.mem_toList.mp hl)
        exact trivial
    · cases hw
      rw [← Console.advance_observer o uid c ⟨c.memory, now, view⟩] at hs
      exact ⟨hs, hnext⟩

theorem Sound.of_stage (h : ∀ line ∈ p.output, line.Supported (limit arguments))
    (hst : ∀ o c, p.stage ≠ .watching o c) : Sound arguments p :=
  ⟨h, fun o c hw => absurd hw (hst o c)⟩

theorem Sound.openProcess {m : Mapped} {o : ConsoleOptions} (h : Sound arguments p)
    (hrun : (parseCommandLine arguments).action = .run)
    (ho : o = (parseCommandLine arguments).options) (view : ProcessView) (pidfdOpen : Bool) :
    Sound arguments (p.openProcess m o view pidfdOpen) := by
  unfold Program.openProcess
  split
  · exact .of_stage h.output (by simp)
  · refine ⟨h.output, fun o' c hw => ?_⟩
    cases hw
    refine ⟨?_, fun q hq => by cases hq⟩
    have hrange := parseCommandLine_inRange hrun
    rw [ho]
    exact ⟨toNat_staleAfterNs hrange, Int.toNat_le.mpr hrange.staleMs.2⟩

theorem Sound.step (h : Sound arguments p) (ha : p.Agrees arguments) (e : ProgramEvent) :
    Sound arguments (p.step arguments identity uid e) := by
  have hwatching := h.watching
  unfold Program.Agrees at ha
  cases hst : p.stage with
  | launched m =>
    cases e with
    | outside op | signal =>
      simp only [Program.step, hst]
      exact .of_stage h.output (by simp)
    | step view pidfdOpen now =>
      simp only [Program.step, hst]
      unfold Program.enter
      dsimp only
      split
      · exact .of_stage (by simp [Line.Supported]) (by simp)
      · exact .of_stage h.output (by simp)
      · exact .of_stage h.output (by simp)
  | opening m o =>
    rw [hst] at ha
    cases e with
    | outside op | signal =>
      simp only [Program.step, hst]
      exact .of_stage h.output (by simp)
    | step view pidfdOpen now =>
      simp only [Program.step, hst]
      exact h.openProcess ha.1 ha.2.1 view pidfdOpen
  | watching o c =>
    cases e with
    | outside op | signal =>
      simp only [Program.step, hst]
      refine ⟨h.output, fun o' c' hw => ?_⟩
      cases hw
      exact hwatching o c hst
    | step view pidfdOpen now =>
      simp only [Program.step, hst]
      exact h.watch hst view now
  | exited m code =>
    cases e with
    | outside op =>
      simp only [Program.step, hst]
      exact .of_stage h.output (by simp)
    | signal | step =>
      simp only [Program.step, hst]
      exact .of_stage h.output (by simp [hst])

/-- Whatever the arguments are and whatever happens meanwhile: every observation on the output
shows active channels, ages and a processor share that bear out the verdict it shows, to the
millisecond and the tenth of a per cent. -/
theorem output_supported (arguments : List Text) (identity : ProcessIdentity) (uid : UInt32)
    (m : Mapped) (es : List ProgramEvent) :
    ∀ line ∈ (run (step arguments identity uid) (launch m) es).output,
      line.Supported (limit arguments) := by
  have h : (run (step arguments identity uid) (launch m) es).Agrees arguments ∧
      Sound arguments (run (step arguments identity uid) (launch m) es) :=
    invariant_of_step (I := fun p : Program => p.Agrees arguments ∧ Sound arguments p)
      (fun _ e hp => ⟨hp.1.step e, hp.2.step hp.1 e⟩)
      ⟨Agrees.launch arguments m, .of_stage (by simp [launch]) (by simp [launch])⟩ es
  exact h.2.output

/-- A process that has used `ticks` of processor time. -/
def working (ticks : UInt64) : ProcessView :=
  { runningView with stat := some ⟨⟨1, 1⟩, ticks, 1⟩ }

/-- The second attempt attaches, and a channel is marked active. It is polled within a second,
and again 3.5 s later, when the process has been busy for 1.05 s. -/
def stalledBusy : List ProgramEvent :=
  List.replicate 2 (.step runningView true 5) ++
    .step { runningView with stateOpens := false } true 5 ::
    List.replicate 2 (.step runningView true 5) ++
    .outside (.call 6 (.setChannelActive .main true)) ::
    (List.replicate 5 (.step (working 0) true 1000000000) ++
      List.replicate 4 (.step (working 105) true 4500000000))

theorem output_supported_stalledBusy :
    let arguments := ["--pid", "1"].map text
    let p := run (step arguments ⟨1, 1⟩ 0) (launch startedProducer) stalledBusy
    ∃ q, p.output[1]? = some (.observation q) ∧
      q.observation.display.map (fun d => (d.health, d.cpu, d.beats)) =
        some (.globallyStalledBusy, ⟨false, 300⟩, [("main", some ⟨false, 4500⟩)]) ∧
      (Line.observation q).Supported (limit arguments) := by
  have hall := output_supported (["--pid", "1"].map text) ⟨1, 1⟩ 0 startedProducer stalledBusy
  exact ⟨_, rfl, by decide +kernel, hall _ (List.mem_of_getElem? (i := 1) rfl)⟩

end Program

end Peepbooth
