import Peepbooth.ExitWatch
import Peepbooth.FinalState

/-! What each read of the loop of `run_console_watch` says of a process that exits,
wherever its phase changes between two loads. -/

namespace Peepbooth

open Schedule ReadProgram

theorem snapshot_within {N : Place → Prop} (hname : N .processName) (hlife : N .processLifecycle)
    (hbeat : ∀ i l, N (.heartbeat i l)) (hticket : N .breadcrumbTicket)
    (hcrumb : ∀ t l, N (.breadcrumb t l)) : snapshot.Within N := by
  rw [snapshot_eq]
  exact ⟨hname, fun _ => ⟨hlife, fun _ => (Within.traverse fun i =>
    readHeartbeatAttempts_within (hbeat i) _ _ _).bind fun _ =>
      (readRing_within hcrumb hticket).bind fun _ => trivial⟩⟩

namespace ExitRun

variable {process : ProcessHandle} {s t u : ExitRun}

/-- What everybody else does between two loads. -/
structure Later (s t : ExitRun) : Prop where
  phase : s.phase.rank ≤ t.phase.rank
  late : t.late = s.late
  missed : t.missed = s.missed

theorem Later.refl (s : ExitRun) : Later s s := ⟨Nat.le_refl _, rfl, rfl⟩

theorem Later.trans (h : Later s t) (h' : Later t u) : Later s u :=
  ⟨h.phase.trans h'.phase, h'.late.trans h.late, h'.missed.trans h.missed⟩

def rely (process : ProcessHandle) : Rely Place World ExitRun where
  view := world process
  mark place s := s.mark place
  may _ _ := True
  inv _ := True
  rel _ := Later
  inv_mark _ _ _ := trivial
  refl _ s _ := Later.refl s
  trans := Later.trans

theorem gone_iff : s.Gone process ↔
    s.phase = .reaped ∨ process.hasDescriptor = true ∧ s.phase = .zombie := by
  unfold Gone ProcessHandle.signalled view
  cases process.hasDescriptor <;> simp [or_comm]

theorem reaped_of_later (h : s.phase = .reaped) (hr : Later s t) : t.phase = .reaped := by
  have hp := hr.phase
  rw [h] at hp
  cases ht : t.phase <;> rw [ht] at hp <;> first | rfl | exact absurd hp (by decide)

theorem Gone.later (h : s.Gone process) (hr : Later s t) : t.Gone process := by
  rw [gone_iff] at h ⊢
  rcases h with h | ⟨hd, h⟩
  · exact .inl (reaped_of_later h hr)
  · have hp := hr.phase
    rw [h] at hp
    cases ht : t.phase with
    | running | exiting => exact absurd (ht ▸ hp) (by decide)
    | zombie => exact .inr ⟨hd, rfl⟩
    | reaped => exact .inl rfl

@[simp] theorem mark_phase (s : ExitRun) (place : Place) : (s.mark place).phase = s.phase := by
  cases place <;> rfl

@[simp] theorem gone_mark (s : ExitRun) (place : Place) :
    (s.mark place).Gone process ↔ s.Gone process := by
  rw [gone_iff, gone_iff, mark_phase]

theorem mark_late (place : Place) (h : place ≠ .status) : (s.mark place).late = s.late := by
  cases place <;> first | rfl | exact absurd rfl h

theorem mark_missed (place : Place) (h : place ≠ .identity) :
    (s.mark place).missed = s.missed := by
  cases place <;> first | rfl | exact absurd rfl h

/-- What a poll has made of the status and the stat file. -/
structure Sampled (process : ProcessHandle) (sample : Option ProcessSample) (s : ExitRun) :
    Prop where
  missed : s.missed = false
  late : s.late = true → sample = none
  reaped : s.late = false → sample = none → s.phase = .reaped
  own : ∀ x, sample = some x → x.identity = process.identity

theorem Sampled.later {sample : Option ProcessSample} (h : Sampled process sample s)
    (hr : Later s t) : Sampled process sample t :=
  ⟨hr.missed.trans h.missed, fun hl => h.late (hr.late ▸ hl),
    fun hl hs => reaped_of_later (h.reaped (hr.late ▸ hl) hs) hr, h.own⟩

theorem Sampled.mark {sample : Option ProcessSample} (h : Sampled process sample s)
    (place : Place) (hs : place ≠ .status) (hi : place ≠ .identity) :
    Sampled process sample (s.mark place) := by
  refine ⟨(mark_missed place hi).trans h.missed, fun hl => h.late ?_, fun hl hn => ?_, h.own⟩
  · exact (mark_late place hs).symm.trans hl
  · rw [mark_phase]
    exact h.reaped ((mark_late place hs).symm.trans hl) hn

theorem sampleProcess_safe (hm : s.missed = false) :
    Safe (rely process) (Sampled process) (sampleProcess process.identity.pid) s := by
  intro t₀ _ h₀ _ t₁ _ h₁ _
  have hmissed : t₁.missed = false := h₁.missed.trans (h₀.missed.trans hm)
  have hlate : t₁.late = decide (t₀.phase ≠ .running) := h₁.late
  have hkeep : ∀ sample t, (rely process).rel none t₁ t → Sampled process sample t₁ →
      Sampled process sample t := fun _ _ hr h => h.later hr
  dsimp only [done_bind]
  by_cases hrun : t₀.phase = .running
  · have hstatus : ((rely process).view t₀).process.status =
        some ⟨process.identity, t₀.memory⟩ := if_pos hrun
    have hl : t₁.late = false := by rw [hlate, hrun]; rfl
    by_cases hreap : t₁.phase = .reaped
    · have hstat : ((rely process).view t₁).process.stat = none := if_pos hreap
      rw [hstatus, hstat]
      exact safe_done (hkeep none) ⟨hmissed, fun _ => rfl, fun _ _ => hreap, by simp⟩
    · have hstat : ((rely process).view t₁).process.stat =
          some ⟨process.identity, t₁.cpuTicks, process.identity.startTicks⟩ := if_neg hreap
      rw [hstatus, hstat]
      intro t₂ _ h₂ _
      refine safe_done (fun _ hr h => h.later hr) ⟨h₂.missed.trans hmissed, fun h => ?_, ?_, ?_⟩
      · exact absurd (h.symm.trans (h₂.late.trans hl)) (by decide)
      · simp
      · rintro _ ⟨⟩
        rfl
  · have hstatus : ((rely process).view t₀).process.status = none := if_neg hrun
    have hl : t₁.late = true := by rw [hlate]; exact decide_eq_true hrun
    rw [hstatus]
    refine safe_done (hkeep none) ⟨hmissed, fun _ => rfl, fun h => ?_, by simp⟩
    exact absurd (hl.symm.trans h) (by decide)

/-- What a poll knows once it has asked whether the process is alive. -/
structure Polled (process : ProcessHandle) (sample : Option ProcessSample) (isAlive : Bool)
    (s : ExitRun) : Prop where
  gone : isAlive = false → s.Gone process
  seen : s.missed = false → isAlive = true →
    s.late = false ∧ ∃ x, sample = some x ∧ x.identity = process.identity
  unseen : s.missed = true → isAlive = true ∧ sample = none

theorem Polled.later {sample : Option ProcessSample} {isAlive : Bool}
    (h : Polled process sample isAlive s) (hr : Later s t) : Polled process sample isAlive t where
  gone ha := (h.gone ha).later hr
  seen hm ha := by
    obtain ⟨hl, hx⟩ := h.seen (hr.missed ▸ hm) ha
    exact ⟨hr.late.trans hl, hx⟩
  unseen hm := h.unseen (hr.missed ▸ hm)

theorem Sampled.alive_safe {sample : Option ProcessSample} (h : Sampled process sample s) :
    Safe (rely process) (Polled process sample) process.alive s := by
  rw [ProcessHandle.alive_eq]
  intro t₀ _ h₀ _
  have hs₀ := h.later h₀
  dsimp only
  split
  · next hg =>
    have hgone : t₀.Gone process := hg
    refine safe_done (fun _ hr hp => hp.later hr) ⟨fun _ => hgone, fun _ ha => (by cases ha), ?_⟩
    exact fun hm => absurd (hs₀.missed.symm.trans hm) (by decide)
  · intro t₁ _ h₁ _
    have hs₁ := hs₀.later h₁
    have hmissed : ((rely process).mark .identity t₁).missed =
        (t₁.missed || (t₁.late && decide (t₁.phase ≠ .reaped))) := rfl
    by_cases hreap : t₁.phase = .reaped
    · have hstat : ((rely process).view t₁).process.stat = none := if_pos hreap
      dsimp only
      rw [hstat]
      refine safe_done (fun _ hr hp => hp.later hr) ⟨fun _ => gone_iff.mpr (.inl hreap), ?_, ?_⟩
      · exact fun _ ha => by cases ha
      · intro hm
        rw [hmissed, hs₁.missed, hreap] at hm
        simp at hm
    · have hstat : ((rely process).view t₁).process.stat =
          some ⟨process.identity, t₁.cpuTicks, process.identity.startTicks⟩ := if_neg hreap
      dsimp only
      rw [hstat]
      refine safe_done (fun _ hr hp => hp.later hr) ⟨fun ha => (by simp at ha), ?_, ?_⟩
      · intro hm _
        rw [hmissed, hs₁.missed] at hm
        have hl : t₁.late = false := by simpa [hreap] using hm
        obtain ⟨x, hx⟩ : ∃ x, sample = some x :=
          Option.ne_none_iff_exists'.mp fun hn => hreap (hs₁.reaped hl hn)
        exact ⟨hl, x, hx, hs₁.own x hx⟩
      · intro hm
        rw [hmissed, hs₁.missed] at hm
        have hl : t₁.late = true := by simpa [hreap] using hm
        exact ⟨by simp, hs₁.late hl⟩

theorem pollReads_safe (hm : s.missed = false) :
    Safe (rely process) (fun r => Polled process r.sample r.isAlive) (pollReads process) s := by
  rw [pollReads_eq]
  refine Safe.bind trivial (sampleProcess_safe hm) fun sample t _ hs => ?_
  have hsnap : Safe (rely process) (fun _ => Sampled process sample) snapshot t :=
    (Safe.and_kept (Q := fun _ _ => True) (N := fun p => p ≠ .status ∧ p ≠ .identity)
      (fun _ _ _ _ hr h => h.later hr) (fun p _ hp h => h.mark p hp.1 hp.2)
      (snapshot_within (by simp) (by simp) (by simp) (by simp) (by simp)) hs
      (safe_of_forall fun _ _ _ => trivial)).imp fun _ _ _ h => h.2
  refine Safe.bind trivial hsnap fun w u _ hs => ?_
  refine Safe.bind trivial hs.alive_safe fun isAlive v _ hp => ?_
  intro x _ hx _
  exact safe_done (fun _ hr h => h.later hr) (hp.later hx)

theorem alive_safe_of_gone (hg : s.Gone process) :
    Safe (rely process) (fun isAlive t => isAlive = false ∧ t.missed = s.missed) process.alive
      s := by
  rw [ProcessHandle.alive_eq]
  intro t _ ht _
  have hgone : process.signalled ((rely process).view t).process = true := hg.later ht
  dsimp only
  rw [if_pos hgone]
  exact safe_done (fun _ hr h => ⟨h.1, hr.missed.trans h.2⟩) ⟨rfl, ht.missed⟩

/-- A read that does not ask for the stat entry again misses nothing. -/
theorem safe_of_gone {α : Type} {p : Reads α} (hp : p.Within (· ≠ .identity))
    (hg : s.Gone process) (hm : s.missed = false) :
    Safe (rely process) (fun _ t => t.Gone process ∧ t.missed = false) p s :=
  (Safe.and_kept (E := rely process) (Q := fun _ _ => True)
    (K := fun t => t.Gone process ∧ t.missed = false)
    (fun _ _ _ _ hr h => ⟨h.1.later hr, hr.missed.trans h.2⟩)
    (fun p t hp h => ⟨(gone_mark t p).mpr h.1, (mark_missed p hp).trans h.2⟩) hp ⟨hg, hm⟩
    (safe_of_forall fun _ _ _ => trivial)).imp fun _ _ _ h => h.2

theorem sampleProcess_within (pid : UInt32) :
    (sampleProcess pid).Within (· ≠ .identity) := by
  refine ⟨by simp, fun w => ⟨by simp, fun w' => ?_⟩⟩
  simp only [done_bind]
  split
  · exact ⟨by simp, fun _ => trivial⟩
  · trivial

theorem pollReads_safe_of_gone (hg : s.Gone process) (hm : s.missed = false) :
    Safe (rely process) (fun r t => r.isAlive = false ∧ t.missed = false) (pollReads process)
      s := by
  have hsnapshot : snapshot.Within (· ≠ .identity) :=
    snapshot_within (by simp) (by simp) (by simp) (by simp) (by simp)
  rw [pollReads_eq]
  refine Safe.bind trivial (safe_of_gone (sampleProcess_within _) hg hm) fun sample t _ ht => ?_
  refine Safe.bind trivial (safe_of_gone hsnapshot ht.1 ht.2) fun w u _ hu => ?_
  refine Safe.bind trivial (alive_safe_of_gone hu.1) fun isAlive v _ hv => ?_
  intro x _ hx _
  exact safe_done (fun _ hr h => ⟨h.1, hr.missed.trans h.2⟩)
    ⟨hv.1, hx.missed.trans (hv.2.trans hu.2)⟩

def Waited (process : ProcessHandle) (exited : Bool) (s : ExitRun) : Prop :=
  (exited = true → s.Gone process) ∧ s.late = false ∧ s.missed = false

theorem Waited.later {exited : Bool} (h : Waited process exited s) (hr : Later s t) :
    Waited process exited t :=
  ⟨fun he => (h.1 he).later hr, hr.late.trans h.2.1, hr.missed.trans h.2.2⟩

theorem waitForExit_safe (hl : s.late = false) (hm : s.missed = false) :
    Safe (rely process) (Waited process) process.waitForExit s := by
  unfold ProcessHandle.waitForExit
  split
  · next hd =>
    intro t _ ht _
    refine safe_done (fun _ hr h => h.later hr) ⟨fun he => ?_, ht.late.trans hl, ht.missed.trans hm⟩
    have hended : t.phase = .zombie ∨ t.phase = .reaped := of_decide_eq_true he
    exact (gone_mark t _).mpr (gone_iff.mpr (hended.symm.imp_right fun hz => ⟨hd, hz⟩))
  · rw [ProcessHandle.alive_eq]
    intro t _ ht _
    have hlate : t.late = false := ht.late.trans hl
    have hmissed : t.missed = false := ht.missed.trans hm
    dsimp only
    split
    · next hg =>
      exact safe_done (fun _ hr h => h.later hr) ⟨fun _ => hg, hlate, hmissed⟩
    · intro u _ hu _
      refine safe_done (fun _ hr h => h.later hr) ⟨fun he => ?_, hu.late.trans hlate, ?_⟩
      · refine (gone_mark u .identity).mpr (gone_iff.mpr (.inl ?_))
        by_contra hreap
        have hstat : ((rely process).view u).process.stat =
          some ⟨process.identity, u.cpuTicks, process.identity.startTicks⟩ := if_neg hreap
        rw [hstat] at he
        simp at he
      · have hmark : ((rely process).mark .identity u).missed =
            (u.missed || (u.late && decide (u.phase ≠ .reaped))) := rfl
        rw [hmark, hu.missed.trans hmissed, hu.late.trans hlate]
        rfl

end ExitRun

end Peepbooth
