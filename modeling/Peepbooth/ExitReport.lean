import Peepbooth.ExitReads

/-! The loop of `run_console_watch` reports the exit of its process unless a poll
misses it, and returns once the exit shows. -/

namespace Peepbooth

open Schedule ReadProgram

namespace ExitRun

variable {process : ProcessHandle} {s t : ExitRun}

/-- What is known of the rest of the function where it stands. -/
def Sound (process : ProcessHandle) (s : ExitRun) : Prop :=
  match s.pc with
  | .polling p => Safe (rely process) (fun r => Polled process r.sample r.isAlive) p s
  | .waiting p => Safe (rely process) (Waited process) p s
  | .leaving p =>
    s.Gone process ∧
      Safe (rely process) (fun isAlive t => isAlive = false ∧ t.missed = false) p s
  | .lastPoll p => Safe (rely process) (fun r t => r.isAlive = false ∧ t.missed = false) p s
  | .returned _ => s.missed = true → s.error ≠ none

def Bounded (s : ExitRun) : Prop :=
  match s.pc with
  | .polling p | .lastPoll p => p.AtMost pollLoads
  | .waiting p | .leaving p => p.AtMost 2
  | .returned _ => True

structure Inv (process : ProcessHandle) (s : ExitRun) : Prop where
  own : s.observer.process = process
  sound : s.Sound process
  bounded : s.Bounded
  outcome : s.Reported ∨ s.missed = true ∧ s.pc = .returned 1 ∧ s.error = some .sampleUnavailable

theorem conclude_exited {r : PollReads} (h : r.isAlive = false) :
    s.conclude process r = { s.observe r with pc := .leaving process.alive } := by
  have hs : (s.observe r).observer.latest.status = .exited :=
    (s.observer.conclude_status r).mpr h
  rw [conclude, hs]

theorem conclude_sampled {r : PollReads} {sample : ProcessSample} (ha : r.isAlive = true)
    (hs : r.sample = some sample) (hi : sample.identity = s.observer.process.identity) :
    s.conclude process r = { s.observe r with pc := .waiting process.waitForExit } := by
  have hst : (s.observe r).observer.latest.status = .sampled :=
    ObservedProcess.conclude_of_sample ha hs hi
  rw [conclude, hst]

theorem conclude_unavailable {r : PollReads} (ha : r.isAlive = true) (hs : r.sample = none) :
    s.conclude process r = (s.observe r).fail .sampleUnavailable := by
  have hst : (s.observe r).observer.latest.status = .sampleUnavailable :=
    ObservedProcess.conclude_of_no_sample ha hs
  rw [conclude, hst]

theorem conclude_missed (process : ProcessHandle) (s : ExitRun) (r : PollReads) :
    (s.conclude process r).missed = s.missed := by
  unfold conclude
  dsimp only
  split <;> rfl

theorem step_other (process : ProcessHandle) (s : ExitRun) {e : ExitEvent}
    (he : e.isWatch = false) :
    Later s (s.step process e) ∧ (s.step process e).pc = s.pc ∧
      (s.step process e).observer = s.observer ∧ (s.step process e).statuses = s.statuses ∧
      (s.step process e).lifecycle = s.lifecycle ∧ (s.step process e).error = s.error := by
  cases e with
  | watch => cases he
  | exit phase =>
    unfold step
    dsimp only
    split
    · next h => exact ⟨⟨Nat.le_of_lt h, rfl, rfl⟩, rfl, rfl, rfl, rfl, rfl⟩
    · exact ⟨Later.refl s, rfl, rfl, rfl, rfl, rfl⟩
  | tick now =>
    unfold step
    dsimp only
    split <;> exact ⟨⟨Nat.le_refl _, rfl, rfl⟩, rfl, rfl, rfl, rfl, rfl⟩
  | usage | outside => exact ⟨⟨Nat.le_refl _, rfl, rfl⟩, rfl, rfl, rfl, rfl, rfl⟩

theorem Sound.later (h : s.Sound process) (hr : Later s t) (hpc : t.pc = s.pc)
    (he : t.error = s.error) : t.Sound process := by
  unfold Sound at h ⊢
  rw [hpc]
  split at h
  · exact Safe.trans (E := rely process) h hr
  · exact Safe.trans (E := rely process) h hr
  · exact ⟨h.1.later hr, Safe.trans (E := rely process) h.2 hr⟩
  · exact Safe.trans (E := rely process) h hr
  · rw [hr.missed, he]
    exact h

/-- The function goes on, and has said nothing but what it makes of one more poll. -/
theorem Reported.next (h : s.Reported) (he : t.error = s.error)
    (hst : ∀ status ∈ t.statuses, status ∈ s.statuses ∨ status = .sampled ∨ status = .exited)
    (hpc : ∀ code, t.pc ≠ .returned code) : t.Reported where
  statuses status hs := (hst status hs).elim (h.statuses status) id
  error := he.trans h.error
  returned code hc := absurd hc (hpc code)

theorem mark_kept (s : ExitRun) (place : Place) :
    (s.mark place).observer = s.observer ∧ (s.mark place).statuses = s.statuses ∧
      (s.mark place).error = s.error ∧ (s.mark place).pc = s.pc := by
  cases place <;> exact ⟨rfl, rfl, rfl, rfl⟩

theorem mem_observe {r : PollReads} {status : ObservationStatus}
    (h : status ∈ (s.observe r).statuses) :
    status ∈ s.statuses ∨ status = (s.observer.conclude r).latest.status := by
  rcases List.mem_append.mp h with h | h
  · exact .inl h
  · exact .inr (List.mem_singleton.mp h)

namespace Inv

theorem reported (h : Inv process s) (hpc : ∀ code, s.pc ≠ .returned code) : s.Reported :=
  h.outcome.resolve_right fun hn => hpc 1 hn.2.1

theorem other (h : Inv process s) {e : ExitEvent} (he : e.isWatch = false) :
    Inv process (s.step process e) := by
  obtain ⟨hr, hpc, hobs, hstatuses, hlife, herr⟩ := step_other process s he
  refine ⟨by rw [hobs]; exact h.own, h.sound.later hr hpc herr, ?_, ?_⟩
  · have hb := h.bounded
    unfold Bounded at hb ⊢
    rwa [hpc]
  · rw [hpc, herr, hr.missed]
    refine h.outcome.imp_left fun hrep => ⟨?_, herr.trans hrep.error, fun code hc => ?_⟩
    · rw [hstatuses]
      exact hrep.statuses
    · rw [hlife]
      exact hrep.returned code (hpc ▸ hc)

theorem load (h : Inv process s) (place : Place) {pc : LoopPc} (hs : ∀ code, s.pc ≠ .returned code)
    (hpc : ∀ code, pc ≠ .returned code) (hsound : Sound process { s.mark place with pc := pc })
    (hbounded : Bounded { s.mark place with pc := pc }) :
    Inv process { s.mark place with pc := pc } := by
  obtain ⟨hobs, hstatuses, herr, -⟩ := mark_kept s place
  refine ⟨hobs.symm ▸ h.own, hsound, hbounded, .inl ((h.reported hs).next herr ?_ hpc)⟩
  exact fun status hst => .inl (hstatuses ▸ hst)

theorem leave (h : Inv process s) (hs : ∀ code, s.pc ≠ .returned code) (hg : s.Gone process)
    (hm : s.missed = false) : Inv process { s with pc := .leaving process.alive } where
  own := h.own
  sound := ⟨hg, (alive_safe_of_gone (s := { s with pc := .leaving process.alive }) hg).imp
    fun _ _ _ ha => ⟨ha.1, ha.2.trans hm⟩⟩
  bounded := process.alive_atMost
  outcome := .inl ((h.reported hs).next rfl (fun _ hst => .inl hst) fun _ hc => by cases hc)

theorem conclude (h : Inv process s) {r : PollReads} (hpc : s.pc = .polling (.done r))
    (hp : Polled process r.sample r.isAlive s) : Inv process (s.conclude process r) := by
  have hrep : s.Reported := h.reported fun code hc => by rw [hpc] at hc; cases hc
  cases ha : r.isAlive with
  | false =>
    rw [conclude_exited ha]
    have hm : s.missed = false := Bool.eq_false_of_not_eq_true fun hm => by
      have := (hp.unseen hm).1
      rw [ha] at this
      cases this
    have hg : (s.observe r).Gone process := hp.gone ha
    refine ⟨(s.observer.conclude_process r).trans h.own, ⟨hg, ?_⟩, process.alive_atMost, .inl ?_⟩
    · exact (alive_safe_of_gone (s := { s.observe r with pc := .leaving process.alive }) hg).imp
        fun _ _ _ hh => ⟨hh.1, hh.2.trans hm⟩
    · refine hrep.next rfl (fun status hst => (mem_observe hst).imp_right fun he => .inr ?_)
        fun _ hc => by cases hc
      exact he.trans ((s.observer.conclude_status r).mpr ha)
  | true =>
    cases hm : s.missed with
    | false =>
      obtain ⟨hl, x, hx, hid⟩ := hp.seen hm ha
      have hown : x.identity = s.observer.process.identity := by rw [hid, h.own]
      rw [conclude_sampled ha hx hown]
      refine ⟨(s.observer.conclude_process r).trans h.own, ?_, process.waitForExit_atMost, .inl ?_⟩
      · exact waitForExit_safe (s := { s.observe r with pc := .waiting process.waitForExit }) hl hm
      · refine hrep.next rfl (fun status hst => (mem_observe hst).imp_right fun he => .inl ?_)
          fun _ hc => by cases hc
        exact he.trans (ObservedProcess.conclude_of_sample ha hx hown)
    | true =>
      rw [conclude_unavailable ha (hp.unseen hm).2]
      refine ⟨(s.observer.conclude_process r).trans h.own, ?_, trivial, .inr ⟨hm, rfl, rfl⟩⟩
      exact fun _ he => by cases he

theorem watch (h : Inv process s) : Inv process (s.watch process) := by
  have hsound := h.sound
  have hbounded := h.bounded
  unfold Sound at hsound
  unfold Bounded at hbounded
  unfold ExitRun.watch
  -- a load leaves the rest of its program, which stays safe whatever its place in the function
  have hload : ∀ {α : Type} {Q : α → ExitRun → Prop} {place : Place} {next : World → Reads α}
      (pc : LoopPc), Safe (rely process) Q (.load place next) s →
      Safe (rely process) Q (next (s.world process)) { s.mark place with pc := pc } :=
    fun pc hs => (hs.load trivial trivial).trans ⟨Nat.le_refl _, rfl, rfl⟩
  rcases hpc : s.pc with (r | ⟨place, next⟩) | (exited | ⟨place, next⟩) |
    (isAlive | ⟨place, next⟩) | (r | ⟨place, next⟩) | code
  all_goals rw [hpc] at hsound hbounded
  · exact h.conclude hpc (hsound.result trivial)
  · exact h.load place (by simp [hpc]) (by simp) (hload _ hsound) ((hbounded _).mono (by decide))
  · obtain ⟨hgone, hl, hm⟩ : Waited process exited s := hsound.result trivial
    cases exited with
    | true => exact h.leave (by simp [hpc]) (hgone rfl) hm
    | false =>
      refine ⟨h.own, ?_, pollReads_atMost process, .inl ?_⟩
      · exact pollReads_safe (s := { s with pc := .polling (pollReads process) }) hm
      · exact (h.reported (by simp [hpc])).next rfl (fun _ hst => .inl hst) (by simp)
  · exact h.load place (by simp [hpc]) (by simp) (hload _ hsound) ((hbounded _).mono (by decide))
  · obtain ⟨rfl, hm⟩ := hsound.2.result trivial
    refine ⟨h.own, ?_, pollReads_atMost process, .inl ?_⟩
    · exact pollReads_safe_of_gone (s := { s with pc := .lastPoll (pollReads process) }) hsound.1 hm
    · exact (h.reported (by simp [hpc])).next rfl (fun _ hst => .inl hst) (by simp)
  · exact h.load place (by simp [hpc]) (by simp)
      ⟨(gone_mark s place).mpr hsound.1, hload _ hsound.2⟩ ((hbounded _).mono (by decide))
  · obtain ⟨ha, hm⟩ := hsound.result trivial
    have hrep := h.reported (by simp [hpc])
    refine ⟨(s.observer.conclude_process r).trans h.own, fun hn => ?_, trivial, .inl ⟨?_, ?_, ?_⟩⟩
    · exact absurd (hm.symm.trans hn) (by decide)
    · rintro status hst
      rcases mem_observe hst with hst | rfl
      · exact hrep.statuses status hst
      · exact .inr ((s.observer.conclude_status r).mpr ha)
    · exact hrep.error
    · rintro code ⟨⟩
      exact ⟨rfl, rfl⟩
  · exact h.load place (by simp [hpc]) (by simp) (hload _ hsound) ((hbounded _).mono (by decide))
  · exact h

theorem step (h : Inv process s) (e : ExitEvent) : Inv process (s.step process e) := by
  cases he : e.isWatch with
  | false => exact h.other he
  | true =>
    cases e with
    | watch => exact h.watch
    | _ => cases he

theorem entered (process : ProcessHandle) (mem : SharedState) (clock : UInt64) (phase : Phase)
    (memory : ProcessMemory) (cpuTicks staleAfterNs : UInt64) :
    Inv process (entered process mem clock phase memory cpuTicks staleAfterNs) where
  own := rfl
  sound := pollReads_safe rfl
  bounded := pollReads_atMost process
  outcome := .inl ⟨fun _ hs => (by cases hs), rfl, fun _ hc => (by cases hc)⟩

theorem reported_iff (h : Inv process s) (hpc : ∃ code, s.pc = .returned code) :
    s.Reported ↔ s.missed = false := by
  obtain ⟨code, hc⟩ := hpc
  have hsound := h.sound
  unfold Sound at hsound
  rw [hc] at hsound
  constructor
  · exact fun hr => Bool.eq_false_of_not_eq_true fun hm => hsound hm hr.error
  · exact fun hm => h.outcome.resolve_right fun hn => by
      have := hm.symm.trans hn.1
      cases this

end Inv

theorem mark_missed_iff (s : ExitRun) (place : Place) : (s.mark place).missed = false ↔
    s.missed = false ∧ (some place = some .identity → s.late = true → s.phase = .reaped) := by
  by_cases hp : place = .identity
  · subst hp
    have hm : (s.mark .identity).missed =
        (s.missed || (s.late && decide (s.phase ≠ .reaped))) := rfl
    rw [hm]
    simp
  · rw [mark_missed place hp]
    exact (and_iff_left fun hn => absurd (Option.some.inj hn) hp).symm

/-- What the history calls missed is a step that is not noticed. -/
theorem missed_step (process : ProcessHandle) (s : ExitRun) (e : ExitEvent) :
    (s.step process e).missed = false ↔ s.missed = false ∧ s.Noticed e := by
  cases he : e.isWatch with
  | false =>
    have hn : s.Noticed e := by cases e <;> trivial
    rw [(step_other process s he).1.missed]
    exact (and_iff_left hn).symm
  | true =>
    cases e with
    | watch =>
      unfold Noticed step ExitRun.watch
      rcases hpc : s.pc with (r | ⟨place, next⟩) | (exited | ⟨place, next⟩) |
        (isAlive | ⟨place, next⟩) | (r | ⟨place, next⟩) | code
      · rw [conclude_missed]
        exact (and_iff_left fun hn => nomatch hn).symm
      · exact mark_missed_iff s place
      · exact (and_iff_left fun hn => nomatch hn).symm
      · exact mark_missed_iff s place
      · exact (and_iff_left fun hn => nomatch hn).symm
      · exact mark_missed_iff s place
      · exact (and_iff_left fun hn => nomatch hn).symm
      · exact mark_missed_iff s place
      · exact (and_iff_left fun hn => nomatch hn).symm
    | _ => cases he

/-- The events of the watcher from the liveness check after the loop on. -/
def leaveEvents : Nat := 2 + 1 + (pollLoads + 1)

/-- Those of the round that a wait starts anew when it ended too early. -/
def lastRound : Nat := pollLoads + 1 + leaveEvents

def exitEvents : Nat := pollLoads + 1 + (2 + 1 + lastRound)

/-- Once the exit shows, `n` more events of the watcher are enough. A poll that began
too early may still find the process alive. -/
def Ends (process : ProcessHandle) (n : Nat) (s : ExitRun) : Prop :=
  match s.pc with
  | .polling p => ∃ m, p.AtMost m ∧
      (m + 1 + leaveEvents ≤ n ∧ Safe (rely process) (fun r _ => r.isAlive = false) p s ∨
        m + 1 + (2 + 1 + lastRound) ≤ n)
  | .waiting p => ∃ m, p.AtMost m ∧ m + 1 + lastRound ≤ n
  | .leaving p => ∃ m, p.AtMost m ∧ m + 1 + (pollLoads + 1) ≤ n
  | .lastPoll p => ∃ m, p.AtMost m ∧ m + 1 ≤ n
  | .returned _ => True

theorem Bounded.ends (h : s.Bounded) : s.Ends process exitEvents := by
  unfold Bounded at h
  unfold Ends
  split at h <;> rename_i hpc <;> rw [hpc]
  · exact ⟨_, h, .inr (Nat.le_refl _)⟩
  · exact ⟨_, h, by unfold exitEvents; omega⟩
  · exact ⟨_, h, by unfold exitEvents lastRound leaveEvents; omega⟩
  · exact ⟨_, h, by unfold exitEvents lastRound leaveEvents; omega⟩
  · trivial

theorem Ends.later {n : Nat} (h : s.Ends process n) (hr : Later s t) (hpc : t.pc = s.pc) :
    t.Ends process n := by
  unfold Ends at h ⊢
  rw [hpc]
  split at h
  · obtain ⟨m, hm, h⟩ := h
    exact ⟨m, hm, h.imp_left fun h => ⟨h.1, Safe.trans (E := rely process) h.2 hr⟩⟩
  all_goals exact h

theorem watch_phase (process : ProcessHandle) (s : ExitRun) :
    (s.watch process).phase = s.phase := by
  unfold ExitRun.watch
  split
  · exact mark_phase _ _
  · unfold conclude
    dsimp only
    split <;> rfl
  all_goals first | exact mark_phase _ _ | rfl

theorem Ends.conclude {n : Nat} {r : PollReads}
    (h : leaveEvents ≤ n ∧ r.isAlive = false ∨ 2 + 1 + lastRound ≤ n) :
    (s.conclude process r).Ends process n := by
  have hleave : leaveEvents ≤ n := h.elim And.left fun h => by
    unfold lastRound at h
    omega
  unfold ExitRun.conclude
  dsimp only
  split
  · exact ⟨2, process.alive_atMost, hleave⟩
  · next hs =>
    have ha : r.isAlive ≠ false := fun ha => by
      have hx := (s.observer.conclude_status r).mpr ha
      cases hx.symm.trans hs
    exact ⟨2, process.waitForExit_atMost, h.resolve_left fun h => ha h.2⟩
  all_goals trivial

theorem Ends.watch {n : Nat} (h : s.Ends process n) (hi : Inv process s) (hg : s.Gone process) :
    (s.watch process).Ends process (n - 1) := by
  have hsound := hi.sound
  unfold Sound at hsound
  unfold Ends at h
  unfold ExitRun.watch
  rcases hpc : s.pc with (r | ⟨place, next⟩) | (exited | ⟨place, next⟩) |
    (isAlive | ⟨place, next⟩) | (r | ⟨place, next⟩) | code
  all_goals rw [hpc] at h hsound
  · obtain ⟨m, -, h⟩ := h
    refine Ends.conclude (h.imp (fun h => ⟨by omega, ?_⟩) fun h => by omega)
    exact h.2.result trivial
  · obtain ⟨m, hm, h⟩ := h
    obtain ⟨k, rfl, hk⟩ := hm.load
    refine ⟨k, hk _, h.imp (fun h => ⟨by omega, ?_⟩) fun h => by omega⟩
    exact (h.2.load trivial trivial).trans ⟨Nat.le_refl _, rfl, rfl⟩
  · obtain ⟨m, -, h⟩ := h
    cases exited with
    | true => exact ⟨2, process.alive_atMost, by unfold lastRound leaveEvents at h; omega⟩
    | false =>
      refine ⟨pollLoads, pollReads_atMost process, .inl ⟨by unfold lastRound at h; omega, ?_⟩⟩
      obtain ⟨-, -, hm⟩ : Waited process false s := hsound.result trivial
      exact (pollReads_safe_of_gone (s := { s with pc := .polling (pollReads process) }) hg hm).imp
        fun _ _ _ hh => hh.1
  · obtain ⟨m, hm, h⟩ := h
    obtain ⟨k, rfl, hk⟩ := hm.load
    exact ⟨k, hk _, by omega⟩
  · obtain ⟨m, -, h⟩ := h
    cases isAlive with
    | true => trivial
    | false => exact ⟨pollLoads, pollReads_atMost process, by omega⟩
  · obtain ⟨m, hm, h⟩ := h
    obtain ⟨k, rfl, hk⟩ := hm.load
    exact ⟨k, hk _, by omega⟩
  · trivial
  · obtain ⟨m, hm, h⟩ := h
    obtain ⟨k, rfl, hk⟩ := hm.load
    exact ⟨k, hk _, by omega⟩
  · have hends : s.Ends process (n - 1) := by unfold Ends; rw [hpc]; trivial
    exact hends

theorem gone_step (h : s.Gone process) (e : ExitEvent) : (s.step process e).Gone process := by
  cases he : e.isWatch with
  | false => exact h.later (step_other process s he).1
  | true =>
    cases e with
    | watch =>
      rw [gone_iff] at h ⊢
      exact (watch_phase process s).symm ▸ h
    | _ => cases he

structure Ending (process : ProcessHandle) (n : Nat) (s : ExitRun) : Prop where
  inv : Inv process s
  gone : s.Gone process
  ends : s.Ends process n

theorem Ending.watch {n : Nat} {e : ExitEvent} (he : e.isWatch = true) (h : s.Ending process n) :
    (s.step process e).Ending process (n - 1) := by
  refine ⟨h.inv.step e, gone_step h.gone e, ?_⟩
  cases e with
  | watch => exact h.ends.watch h.inv h.gone
  | _ => cases he

theorem Ending.other {n : Nat} {e : ExitEvent} (he : e.isWatch = false) (h : s.Ending process n) :
    (s.step process e).Ending process n := by
  obtain ⟨hr, hpc, -⟩ := step_other process s he
  exact ⟨h.inv.step e, gone_step h.gone e, h.ends.later hr hpc⟩

/-- Once the exit shows, the watcher needs no more than `exitEvents` events. -/
theorem returns_of_gone (h : Inv process s) (hg : s.Gone process) {later : List ExitEvent}
    (hn : exitEvents ≤ later.countP ExitEvent.isWatch) :
    ∃ code, (run (step process) s later).pc = .returned code := by
  have hrun : Ending process (exitEvents - later.countP ExitEvent.isWatch)
      (run (step process) s later) :=
    run_countdown (fun _ _ _ he hs => hs.watch he) (fun _ _ _ he hs => hs.other he)
      ⟨h, hg, h.bounded.ends⟩ later
  have hends := hrun.ends
  rw [Nat.sub_eq_zero_of_le hn] at hends
  unfold Ends at hends
  split at hends
  · obtain ⟨m, -, h⟩ := hends
    unfold leaveEvents lastRound at h
    omega
  · obtain ⟨m, -, h⟩ := hends
    omega
  · obtain ⟨m, -, h⟩ := hends
    omega
  · obtain ⟨m, -, h⟩ := hends
    omega
  · next code hc => exact ⟨code, hc⟩

/-- The loop reports the exit in every run in which the polls notice it, in no other
run that has returned, and it returns. -/
theorem exit_reported_iff (process : ProcessHandle) (mem : SharedState) (clock : UInt64)
    (phase : Phase) (memory : ProcessMemory) (cpuTicks staleAfterNs : UInt64)
    (es later : List ExitEvent) :
    let s₀ := entered process mem clock phase memory cpuTicks staleAfterNs
    let s := run (step process) s₀ es
    (Permits (step process) Noticed s₀ es → Always (step process) Reported s₀ es) ∧
      ((∃ code, s.pc = .returned code) → (s.Reported ↔ Permits (step process) Noticed s₀ es)) ∧
      (s.Gone process → exitEvents ≤ later.countP ExitEvent.isWatch →
        ∃ code, (run (step process) s later).pc = .returned code) := by
  intro s₀ s
  have hinv₀ : Inv process s₀ := .entered process mem clock phase memory cpuTicks staleAfterNs
  have hinv : Inv process s := invariant_of_step (fun _ e h => h.step e) hinv₀ es
  have hmissed : s.missed = false ↔ Permits (step process) Noticed s₀ es :=
    (run_iff_permits (P := fun s : ExitRun => s.missed = false) (missed_step process)).trans
      (and_iff_right rfl)
  refine ⟨fun hp => ?_, fun hc => (hinv.reported_iff hc).trans hmissed, fun hg hn => ?_⟩
  · have hkept :
        Always (step process) (fun s : ExitRun => Inv process s ∧ s.missed = false) s₀ es :=
      always_of_permits (fun s e h hn => ⟨h.1.step e, (missed_step process s e).mpr ⟨h.2, hn⟩⟩)
        ⟨hinv₀, rfl⟩ hp
    refine hkept.imp fun s h => h.1.outcome.resolve_right fun hn => ?_
    exact absurd (h.2.symm.trans hn.1) (by decide)
  · exact returns_of_gone hinv hg hn

def watched : ExitRun := entered ⟨⟨7, 100⟩, true⟩ {} 5 .running {} 0 1000

/-- A process that leaves the running phase before the first poll. -/
def exits (phase : Phase) : List ExitEvent := .exit phase :: List.replicate 60 .watch

theorem exit_reported_zombie :
    Always (step ⟨⟨7, 100⟩, true⟩) Reported watched (exits .zombie) :=
  (exit_reported_iff ⟨⟨7, 100⟩, true⟩ {} 5 .running {} 0 1000 (exits .zombie) []).1
    (by decide +kernel)

theorem exiting_is_unavailable :
    let s := run (step ⟨⟨7, 100⟩, true⟩) watched (exits .exiting)
    s.pc = .returned 1 ∧ s.error = some .sampleUnavailable ∧ ¬s.Reported := by
  intro s
  have herr : s.error = some .sampleUnavailable := by decide +kernel
  exact ⟨by rfl, herr, fun h => by cases h.error.symm.trans herr⟩

end ExitRun

end Peepbooth
