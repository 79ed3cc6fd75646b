import Peepbooth.SteadyState

/-! A polling interval that is too long for the lease: a producer whose last
heartbeat under the lease comes early enough for the next poll to find it stale. -/

namespace Peepbooth

open Schedule

/-- `std::uint64_t` readings of beats that are 99.99 ms apart. -/
def beatAt (j : Nat) : UInt64 := UInt64.ofNat (740000 + 99990000 * j)

theorem toNat_beatAt {j : Nat} (h : j < 1000) : (beatAt j).toNat = 740000 + 99990000 * j := by
  rw [beatAt, UInt64.toNat_ofNat']
  omega

def lateBeats (n : Nat) : List Operation :=
  (List.range n).map fun j => .call (beatAt j) (.heartbeat .main)

theorem lateBeats_succ (n : Nat) :
    lateBeats (n + 1) = lateBeats n ++ [.call (beatAt n) (.heartbeat .main)] := by
  simp [lateBeats, List.range_succ]

def latePrior : List Operation := [.call 0 (.setChannelActive .main true)]

def lateStart : List Operation := latePrior ++ [.attach 0, .renew 0 defaultWatcherLeaseNs]

theorem record_main (l : Ledger) (now : UInt64) :
    l.record (.call now (.heartbeat .main)) = l.beat 0 now := rfl

theorem late_published :
    (ledgerOf (lateStart ++ lateBeats 30)).until_ = some 3000000000 ∧
      (ledgerOf (lateStart ++ lateBeats 30)).published 0 = some 2400500000 ∧
      ∀ i, (ledgerOf (lateStart ++ lateBeats 30)).active i = true ↔ i = 0 := by
  decide +kernel

/-- Only the first 25 heartbeats count: the limiter holds back the next five, and
then the lease has run out. -/
theorem ledgerOf_late {n : Nat} (h : 30 ≤ n) (hn : n < 1000) :
    ledgerOf (lateStart ++ lateBeats n) = ledgerOf (lateStart ++ lateBeats 30) := by
  induction n, h using Nat.le_induction with
  | base => rfl
  | succ n h ih =>
    have hb := toNat_beatAt (show n < 1000 by omega)
    have hd : (ledgerOf (lateStart ++ lateBeats 30)).due 0 (beatAt n) = false := by
      have hlate : ¬740000 + 99990000 * n ≤ 3000000000 := by omega
      rw [Ledger.due, late_published.1, Option.any_some, hb, decide_eq_false hlate, Bool.false_and]
    rw [lateBeats_succ, ← List.append_assoc, ledgerOf_concat, ih (by omega), record_main,
      Ledger.beat, hd]
    rfl

def lateProcess : ProcessHandle := ⟨⟨7, 100⟩, true⟩

theorem running_shows : running.Shows lateProcess.identity := ⟨rfl, rfl, rfl, rfl⟩

def lastBeat : Nat → UInt64
  | 0 => 0
  | n + 1 => beatAt n

theorem beatsOf_late (n : Nat) :
    beatsOf (fun i => if i = 0 then some 0 else none)
        (.renew 0 defaultWatcherLeaseNs :: lateBeats n) =
      fun i => if i = 0 then some (lastBeat n) else none := by
  induction n with
  | zero => rfl
  | succ n ih =>
    rw [lateBeats_succ, ← List.cons_append, beatsOf_concat, ih]
    funext i
    have hr : ∀ b : Beats, b.record (.call (beatAt n) (.heartbeat .main)) =
        Function.update b 0 ((b 0).map fun _ => beatAt n) := fun _ => rfl
    by_cases hi : i = 0 <;> simp [hr, hi, lastBeat]

theorem within_single {x now : UInt64} {gap : Nat} (h : now.toNat ≤ x.toNat + gap) :
    Beats.Within gap (fun i => if i = 0 then some x else none) now := by
  intro i
  by_cases hi : i = 0 <;> simp [hi, h]

theorem pairwise_beats {n : Nat} (hn : n < 1000) :
    ((List.range n).map beatAt).Pairwise (· ≤ ·) := by
  refine List.pairwise_map.mpr (List.pairwise_lt_range.imp_of_mem fun {j k} hj hk hlt => ?_)
  rw [List.mem_range] at hj hk
  rw [UInt64.le_iff_toNat_le, toNat_beatAt (by omega), toNat_beatAt (by omega)]
  omega

/-- From the attachment to the end of the second poll, `interval` later. -/
def lateEvents (count : Nat) (interval : UInt64) : List ConsoleEvent :=
  List.replicate 4 (.watch running 0) ++ ((lateBeats count).map .outside ++
    .watch running interval :: List.replicate 4 (.watch running interval))

theorem late_clocks {count : Nat} {interval : UInt64} (hc : count < 1000)
    (hi : ∀ j < count, beatAt j ≤ interval) :
    ((attachEvents 0 latePrior running ++
      lateEvents count interval).filterMap ConsoleEvent.clock).Pairwise (· ≤ ·) := by
  have hcalls : ((lateBeats count).map ConsoleEvent.outside).filterMap ConsoleEvent.clock =
      (List.range count).map beatAt := by
    rw [lateBeats, List.map_map, List.filterMap_map]
    exact congrFun (List.filterMap_eq_map (f := beatAt)) _
  have he : (attachEvents 0 latePrior running ++
      lateEvents count interval).filterMap ConsoleEvent.clock =
        List.replicate 6 0 ++ ((List.range count).map beatAt ++ List.replicate 5 interval) := by
    rw [lateEvents, List.filterMap_append, List.filterMap_append, List.filterMap_append, hcalls]
    rfl
  rw [he, List.pairwise_append, List.pairwise_append]
  refine ⟨List.pairwise_replicate.mpr (.inr (UInt64.le_refl _)), ⟨pairwise_beats hc,
    List.pairwise_replicate.mpr (.inr (UInt64.le_refl _)), fun x hx y hy => ?_⟩, fun x hx y _ => ?_⟩
  · obtain ⟨j, hj, rfl⟩ := List.mem_map.mp hx
    rw [List.eq_of_mem_replicate hy]
    exact hi j (List.mem_range.mp hj)
  · rw [List.eq_of_mem_replicate hx]
    exact UInt64.zero_le

section Events

variable {options : ConsoleOptions} {c : Console} {base : List Operation} {count : Nat}

theorem beats_late (hh : c.history = base ++ .renew 0 defaultWatcherLeaseNs :: lateBeats count) :
    c.beats 0 0 base = fun i => if i = 0 then some (lastBeat count) else none := by
  rw [Console.beats, hh, List.drop_left, beatsOf_late]

theorem timely_beats (hh : c.history = base ++ [.renew 0 defaultWatcherLeaseNs])
    (hc : count < 1000) (hd : ∀ j < count, (beatAt j).toNat ≤ c.due options 0) :
    Permits (Console.step options 1000) (Timely options lateProcess 0 0 base) c
      ((lateBeats count).map .outside) := by
  induction count with
  | zero => trivial
  | succ n ih =>
    rw [lateBeats_succ, List.map_append, permits_append, Console.run_outside]
    refine ⟨ih (by omega) fun j hj => hd j (by omega), ⟨hd n (by omega), ?_⟩, trivial⟩
    have hb : (c.perform 1000 (lateBeats n)).history =
        base ++ .renew 0 defaultWatcherLeaseNs :: lateBeats n := by
      simp [Console.perform, hh]
    rw [beats_late hb]
    refine within_single ?_
    rw [toNat_beatAt (by omega)]
    cases n with
    | zero => decide
    | succ n => rw [lastBeat, toNat_beatAt (by omega)]; omega

theorem ledgerOf_watch {ops : List Operation} {now : UInt64}
    (h : ∀ op ∈ ops, op = .attach now ∨ op = .renew now defaultWatcherLeaseNs) :
    (ledgerOf (base ++ ops)).active = (ledgerOf base).active := by
  induction ops using List.reverseRecOn with
  | nil => rw [List.append_nil]
  | append_singleton ops op ih =>
    rw [← List.append_assoc, ledgerOf_concat, ← ih fun op hop => h op (List.mem_append_left _ hop)]
    rcases h op (by simp) with rfl | rfl <;> rfl

theorem active_beat {l : Ledger} {now : UInt64} (h : ∀ i, l.active i = true ↔ i = 0)
    (i : Fin heartbeatChannelCount) : (l.beat 0 now).active i = true ↔ i = 0 := by
  unfold Ledger.beat
  split
  · by_cases hi : i = 0 <;> simp [Ledger.publish, Ledger.mark, hi, h i]
  · exact h i

theorem active_late {interval : UInt64}
    (h : ∀ i, (ledgerOf c.history).active i = true ↔ i = 0) :
    Always (Console.step options 1000) (fun c => ∀ i, (ledgerOf c.history).active i = true ↔ i = 0)
      c (lateEvents count interval) := by
  have hev : ∀ e ∈ lateEvents count interval, (∃ view now, e = .watch view now) ∨
      ∃ now, e = .outside (.call now (.heartbeat .main)) := by
    intro e he
    simp only [lateEvents, lateBeats, List.mem_append, List.mem_cons, List.mem_replicate,
      List.mem_map] at he
    rcases he with ⟨-, rfl⟩ | ⟨op, ⟨j, -, rfl⟩, rfl⟩ | rfl | ⟨-, rfl⟩
    · exact .inl ⟨_, _, rfl⟩
    · exact .inr ⟨_, rfl⟩
    · exact .inl ⟨_, _, rfl⟩
    · exact .inl ⟨_, _, rfl⟩
  refine always_of_permits (fun c e hc hG => ?_) h (permits_of_forall fun e he _ => hev e he)
  rcases hG with ⟨view, now, rfl⟩ | ⟨now, rfl⟩
  · obtain ⟨ops, hh, hops⟩ := Console.advance_history options 1000 c ⟨c.memory, now, view⟩
    rw [Console.step, hh, ledgerOf_watch hops]
    exact hc
  · have hh : (c.step options 1000 (.outside (.call now (.heartbeat .main)))).history =
        c.history ++ [.call now (.heartbeat .main)] := rfl
    rw [hh, ledgerOf_concat, record_main]
    exact active_beat hc

theorem timely_watch {interval : UInt64}
    (hh : c.history = base ++ .renew 0 defaultWatcherLeaseNs :: lateBeats count)
    (hd : interval.toNat = c.due options 0)
    (hb : interval.toNat ≤ (lastBeat count).toNat + 100000000) :
    Timely options lateProcess 0 0 base c (.watch running interval) := by
  refine ⟨running_shows, hd, ?_⟩
  rw [beats_late hh]
  exact within_single hb

end Events

def lateCount (options : ConsoleOptions) : Nat := (intervalNs options - 740000) / 99990000 + 1

section LatePoll

variable {options : ConsoleOptions}

theorem lateCount_bounds (hin : options.InRange) (hi : 3400 < options.intervalMs) :
    30 ≤ lateCount options ∧ lateCount options < 1000 := by
  have := hin.intervalMs
  unfold lateCount intervalNs
  omega

theorem late_rounds {c : Console} {count : Nat} {interval : UInt64}
    (honce : options.once = false) (hp : c.phase = .polling) (hs : c.stopRequested = false)
    (ho : c.observer.process = lateProcess) (hpr : c.printed = []) (hc : count < 1000)
    (hi : interval.toNat = intervalNs options)
    (hb : ∀ j < count, (beatAt j).toNat ≤ intervalNs options)
    (hl : intervalNs options ≤ (lastBeat count).toNat + 100000000) :
    Permits (Console.step options 1000) (Timely options lateProcess 0 0 c.history) c
        (lateEvents count interval) ∧
      ∃ p ∈ (run (Console.step options 1000) c (lateEvents count interval)).printed,
        p.seen = c.history ++ .renew 0 defaultWatcherLeaseNs :: lateBeats count ∧
          p.observation.observedAtNs = interval := by
  have hfirst : Permits (Console.step options 1000) (Timely options lateProcess 0 0 c.history) c
      (List.replicate 4 (.watch running 0)) := by
    refine Console.permits_poll_steps hp hs running 0 fun phase => ⟨running_shows, ?_, ?_⟩
    · rw [Console.due, hpr]
      simp
    · rw [Console.beats, List.drop_length]
      exact within_single (Nat.zero_le _)
  obtain ⟨hp₂, hs₂, ho₂, hh₂, o, hpr₂, -⟩ :=
    Console.poll_round options 1000 0 hp hs ho running_shows honce
  generalize hc₂ : run (Console.step options 1000) c (List.replicate 4 (.watch running 0)) = c₂ at *
  have hdue : c₂.due options 0 = intervalNs options := by
    simp [Console.due, hpr₂, hpr]
  have hbeats := timely_beats hh₂ hc fun j hj => hdue ▸ hb j hj
  rw [lateEvents, permits_append, run_append, hc₂, permits_append, run_append,
    Console.run_outside, run_cons]
  generalize hc₃ : c₂.perform 1000 (lateBeats count) = c₃ at *
  have hh₃ : c₃.history = c.history ++ .renew 0 defaultWatcherLeaseNs :: lateBeats count := by
    rw [← hc₃, Console.perform, hh₂, List.append_assoc]
    rfl
  have hwait : c₃.step options 1000 (.watch running interval) = { c₃ with phase := .polling } := by
    have hph : c₃.phase = .waiting := by rw [← hc₃]; exact hp₂
    have hproc : c₃.observer.process = lateProcess := by rw [← hc₃]; exact ho₂
    simp [Console.step, Console.advance, hph, hproc, ProcessHandle.waitForExit, lateProcess,
      running]
  have hdue₃ : interval.toNat = c₃.due options 0 := by
    rw [hi, ← hdue, ← hc₃]
    rfl
  rw [← hi] at hl
  refine ⟨⟨hfirst, hbeats, timely_watch hh₃ hdue₃ hl, ?_⟩, ?_⟩
  · rw [hwait]
    exact Console.permits_poll_steps rfl (by rw [← hc₃]; exact hs₂) running interval
      fun _ => timely_watch hh₃ hdue₃ hl
  · rw [hwait]
    obtain ⟨-, -, -, -, o', hpr₄, hat⟩ := Console.poll_round options 1000
      (c := { c₃ with phase := .polling }) interval rfl (by rw [← hc₃]; exact hs₂)
      (by rw [← hc₃]; exact ho₂) running_shows honce
    rw [hpr₄]
    exact ⟨_, List.mem_append_right _ (List.mem_singleton_self _), hh₃, hat⟩

theorem late_run (hin : options.InRange) (honce : options.once = false)
    (hi : 3400 < options.intervalMs) :
    let es := lateEvents (lateCount options) (UInt64.ofNat (intervalNs options))
    SteadyRun options 1000 lateProcess [] 0 0 latePrior running es ∧
      ∃ p ∈ (watch options 1000 lateProcess [] (attachEvents 0 latePrior running ++ es)).printed,
        p.seen = lateStart ++ lateBeats (lateCount options) ∧
          p.observation.observedAtNs = UInt64.ofNat (intervalNs options) := by
  dsimp only
  obtain ⟨hlow, hhigh⟩ := lateCount_bounds hin hi
  have hI : (UInt64.ofNat (intervalNs options)).toNat = intervalNs options := by
    have := hin.intervalMs
    rw [UInt64.toNat_ofNat']
    unfold intervalNs
    omega
  have hbeat : ∀ j < lateCount options, (beatAt j).toNat ≤ intervalNs options := by
    intro j hj
    rw [toNat_beatAt (by omega)]
    unfold lateCount at hj hlow
    omega
  have hlast : intervalNs options ≤ (lastBeat (lateCount options)).toNat + 100000000 := by
    rw [lateCount, lastBeat, toNat_beatAt (by unfold lateCount at hhigh; omega)]
    omega
  generalize UInt64.ofNat (intervalNs options) = interval at hI ⊢
  generalize lateCount options = count at hlow hhigh hbeat hlast ⊢
  have hclocks := late_clocks hhigh fun j hj => UInt64.le_iff_toNat_le.mpr (hI ▸ hbeat j hj)
  obtain ⟨hp, hs⟩ := attaches options 1000 [] 0 latePrior (by decide) running_shows rfl
  obtain ⟨hh, hpr⟩ := attached_history hp
  have hb : Console.Backed options 1000 lateProcess []
      (watch options 1000 lateProcess [] (attachEvents 0 latePrior running)) :=
    Console.backed_run options 1000 lateProcess [] (attachEvents 0 latePrior running)
  have hcalls := attached_calls hclocks hp
  have hrun : watch options 1000 lateProcess []
      (attachEvents 0 latePrior running ++ lateEvents count interval) =
        run (Console.step options 1000)
          (watch options 1000 lateProcess [] (attachEvents 0 latePrior running))
          (lateEvents count interval) := run_append
  rw [hrun]
  have hactive : ∀ i, (ledgerOf (latePrior ++ [.attach 0])).active i = true ↔ i = 0 := by decide
  rw [← hh] at hactive
  obtain ⟨htimely, p, hmem, hseen, hat⟩ := late_rounds honce hp hs hb.observer.1 hpr hhigh hI hbeat
    hlast
  refine ⟨⟨hclocks, hp, ?_, htimely⟩, p, hmem, by simp [hseen, hh, lateStart], hat⟩
  exact (((always_of_step (fun _ e hb => hb.step e) hb _).and (Console.always_clocks hcalls)).and
    (active_late hactive)).imp fun _ hc => (Console.sole_iff hc.1.1 hc.1.2).mpr hc.2

theorem late_run_stalls (hin : options.InRange) (honce : options.once = false)
    (hs : 1000 ≤ options.staleMs) (hi : options.staleMs + 2400 < options.intervalMs) :
    ∃ es, SteadyRun options 1000 lateProcess [] 0 0 latePrior running es ∧
      ∃ p ∈ (watch options 1000 lateProcess [] (attachEvents 0 latePrior running ++ es)).printed,
        1000000000 ≤ p.observation.observedAtNs.toNat ∧
          ∃ health, p.observation.responsiveness = some health ∧ health.stalled = true := by
  obtain ⟨hlow, hhigh⟩ := lateCount_bounds hin (by omega)
  obtain ⟨hrun, p, hmem, hseen, hat⟩ := late_run hin honce (by omega)
  have hI : (UInt64.ofNat (intervalNs options)).toNat = intervalNs options := by
    have := hin.intervalMs
    rw [UInt64.toNat_ofNat']
    unfold intervalNs
    omega
  have hN : intervalNs options = options.intervalMs.toNat * 1000000 := rfl
  refine ⟨_, hrun, p, hmem, by rw [hat, hI]; omega, ?_⟩
  have hspare := printed_spares (hrun.clocks.sublist (callClock_sublist _)) hmem
  rw [hseen, ledgerOf_late hlow hhigh, hat] at hspare
  obtain ⟨-, hpub, hact⟩ := late_published
  obtain ⟨cpu, hcpu⟩ := ((Console.backed_run options 1000 lateProcess [] _).printed p hmem).2.2
  refine ⟨_, hcpu, ?_⟩
  by_contra hno
  rcases hspare.mp ⟨_, hcpu, Bool.eq_false_iff.mpr hno⟩ with hnone | ⟨⟨i, hi', t, ht, -, hle⟩, -⟩
  · exact absurd (hnone 0) (by rw [(hact 0).mpr rfl]; decide)
  · obtain rfl := (hact i).mp hi'
    obtain rfl : 2400500000 = t := Option.some.inj (hpub.symm.trans ht)
    have ht : (2400500000 : UInt64).toNat = 2400500000 := by decide
    rw [hI, ht, toNat_staleAfterNs hin] at hle
    omega

end LatePoll

/-- With any command line that asks for staleness of 1 s or more, every poll from
1 s after the attachment on finds a healthy process healthy exactly if there is
no such poll or the interval is at most 2.4 s longer than the staleness. -/
theorem steady_healthy_iff {arguments : List Text}
    (hr : (parseCommandLine arguments).action = .run)
    (hs : 1000 ≤ (parseCommandLine arguments).options.staleMs) :
    (∀ uid process name ch a prior view es,
      SteadyRun (parseCommandLine arguments).options uid process name ch a prior view es →
      ∀ p ∈ (watch (parseCommandLine arguments).options uid process name
          (attachEvents a prior view ++ es)).printed,
        a.toNat + 1000000000 ≤ p.observation.observedAtNs.toNat →
          p.observation.responsiveness = some .healthy) ↔
      (parseCommandLine arguments).options.once = true ∨
        (parseCommandLine arguments).options.intervalMs ≤
          (parseCommandLine arguments).options.staleMs + 2400 := by
  have hin := parseCommandLine_inRange hr
  generalize (parseCommandLine arguments).options = options at *
  have h₁ := hin.intervalMs
  have hstale := toNat_staleAfterNs hin
  have hN : intervalNs options = options.intervalMs.toNat * 1000000 := rfl
  constructor
  · intro h
    by_contra hno
    rw [not_or, Bool.not_eq_true, not_le] at hno
    obtain ⟨es, hrun, p, hmem, hat, health, hh, hst⟩ := late_run_stalls hin hno.1 hs hno.2
    have hhealthy := h _ _ _ _ _ _ _ _ hrun p hmem (by simpa using hat)
    rw [hhealthy] at hh
    rw [← Option.some.inj hh] at hst
    cases hst
  · intro h uid process name ch a prior view es hrun p hmem hat
    refine hrun.healthy (h.imp_right fun hi => ?_) ?_ hmem hat <;> rw [hstale] <;> omega

theorem steady_healthy_iff_default :
    ((∀ uid process name ch a prior view es,
      SteadyRun (parseCommandLine (["--pid", "7"].map text)).options uid process name ch a prior
        view es →
      ∀ p ∈ (watch (parseCommandLine (["--pid", "7"].map text)).options uid process name
          (attachEvents a prior view ++ es)).printed,
        a.toNat + 1000000000 ≤ p.observation.observedAtNs.toNat →
          p.observation.responsiveness = some .healthy) ↔
      (parseCommandLine (["--pid", "7"].map text)).options.once = true ∨
        (parseCommandLine (["--pid", "7"].map text)).options.intervalMs ≤
          (parseCommandLine (["--pid", "7"].map text)).options.staleMs + 2400) ∧
      (parseCommandLine (["--pid", "7"].map text)).options.intervalMs ≤
        (parseCommandLine (["--pid", "7"].map text)).options.staleMs + 2400 :=
  ⟨steady_healthy_iff (by decide) (by decide), by decide⟩

/-- An interval of 4 s and a staleness of 1 s. -/
theorem long_interval_stalls :
    let arguments := ["--pid", "7", "--interval-ms", "4000", "--stale-ms", "1000"].map text
    (parseCommandLine arguments).action = .run ∧
      ∃ es, SteadyRun (parseCommandLine arguments).options 1000 lateProcess [] 0 0 latePrior running
          es ∧
        ∃ p ∈ (watch (parseCommandLine arguments).options 1000 lateProcess []
            (attachEvents 0 latePrior running ++ es)).printed,
          1000000000 ≤ p.observation.observedAtNs.toNat ∧
            ∃ health, p.observation.responsiveness = some health ∧ health.stalled = true := by
  have hr : (parseCommandLine (["--pid", "7", "--interval-ms", "4000", "--stale-ms",
      "1000"].map text)).action = .run := by decide
  exact ⟨hr, late_run_stalls (parseCommandLine_inRange hr) (by decide) (by decide) (by decide)⟩

end Peepbooth
