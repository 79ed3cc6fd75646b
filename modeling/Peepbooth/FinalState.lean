import Peepbooth.Ring
import Peepbooth.RingReader
import Peepbooth.Health

/-! What the last poll of a process shows. The poll reads the shared state
first and asks afterwards whether the process is still there, so the process
may store once more in between. -/

namespace Peepbooth

open Schedule ReadProgram

/-- From `s` to `t` other parties than the watcher have moved. Where the log
says that nothing has been stored, nothing has, and a process that is not
running stores nothing. -/
structure Onward (s t : System) : Prop where
  lifecycle : t.log.lifecycleStored = false → s.log.lifecycleStored = false ∧
    t.mem.processLifecycle = s.mem.processLifecycle
  ring : t.log.ringStored = false → s.log.ringStored = false ∧
    t.mem.breadcrumbTicket = s.mem.breadcrumbTicket ∧ t.mem.breadcrumbs = s.mem.breadcrumbs
  gone : s.phase ≠ .running → t.phase ≠ .running
  flags : s.phase ≠ .running → t.log.lifecycleStored = s.log.lifecycleStored ∧
    t.log.ringStored = s.log.ringStored
  mem : s.phase ≠ .running → t.mem.processLifecycle = s.mem.processLifecycle ∧
    t.mem.breadcrumbTicket = s.mem.breadcrumbTicket ∧ t.mem.breadcrumbs = s.mem.breadcrumbs

theorem Onward.refl (s : System) : Onward s s :=
  ⟨fun h => ⟨h, rfl⟩, fun h => ⟨h, rfl, rfl⟩, id, fun _ => ⟨rfl, rfl⟩, fun _ => ⟨rfl, rfl, rfl⟩⟩

theorem Onward.trans {s t u : System} (h : Onward s t) (h' : Onward t u) : Onward s u where
  lifecycle hu :=
    have ht := h'.lifecycle hu
    have hs := h.lifecycle ht.1
    ⟨hs.1, ht.2.trans hs.2⟩
  ring hu :=
    have ht := h'.ring hu
    have hs := h.ring ht.1
    ⟨hs.1, ht.2.1.trans hs.2.1, ht.2.2.trans hs.2.2⟩
  gone hs := h'.gone (h.gone hs)
  flags hs :=
    have ht := h.flags hs
    have hu := h'.flags (h.gone hs)
    ⟨hu.1.trans ht.1, hu.2.trans ht.2⟩
  mem hs :=
    have ht := h.mem hs
    have hu := h'.mem (h.gone hs)
    ⟨hu.1.trans ht.1, hu.2.1.trans ht.2.1, hu.2.2.trans ht.2.2⟩

theorem Pc.step_lifecycle (pc : Pc) (spurious : Bool) (s : Shared) :
    (pc.step spurious s).2.mem.processLifecycle = s.mem.processLifecycle := by
  cases pc with
  | exchangeNext index now next => simp only [step]; split <;> rfl
  | _ => rfl

theorem Log.access_lifecycleStored (log : Log) (i : Nat) (s : Shared) (pc : Pc) :
    (log.access i s pc).lifecycleStored = log.lifecycleStored := by
  cases pc with
  | readClock work =>
    cases work with
    | heartbeat value => simp only [access]; split <;> rfl
    | breadcrumb args => rfl
  | store w d => cases w <;> rfl
  | _ => rfl

theorem Log.ringStored_of_access {log : Log} {i : Nat} {s : Shared} {pc : Pc}
    (h : (log.access i s pc).ringStored = false) :
    log.ringStored = false ∧ (∀ args now, pc ≠ .drawTicket args now) ∧ ∀ w d, pc ≠ .store w d := by
  cases pc with
  | readClock work =>
    cases work with
    | heartbeat value =>
      simp only [access] at h
      split at h <;> exact ⟨h, by simp, by simp⟩
    | breadcrumb args => exact ⟨h, by simp, by simp⟩
  | drawTicket args now => cases h
  | store w d => cases w <;> cases h
  | _ => exact ⟨h, by simp, by simp⟩

theorem Phase.ne_running_of_rank {p q : Phase} (h : p.rank < q.rank) : q ≠ .running := by
  rintro rfl
  simp [rank] at h

theorem System.onward_step (s : System) {e : Event} (he : e ≠ .watcher) :
    Onward s (s.step e) := by
  cases e with
  | watcher => exact absurd rfl he
  | thread i spurious =>
    by_cases hp : s.phase = .running
    case neg => simpa [System.step, hp] using Onward.refl s
    simp only [System.step, hp, if_true]
    refine ⟨fun h => ⟨?_, Pc.step_lifecycle _ _ _⟩, fun h => ?_, fun h => absurd hp h,
      fun h => absurd hp h, fun h => absurd hp h⟩
    · simpa only [System.stepThread, Log.access_lifecycleStored] using h
    · obtain ⟨ho, hd, hw⟩ := Log.ringStored_of_access h
      have hq := Pc.step_quiet s.toShared s.log i spurious hd hw
      exact ⟨ho, hq.2.2.1, hq.2.1⟩
  | control =>
    by_cases hp : s.phase = .running
    case neg => simpa [System.step, hp] using Onward.refl s
    simp only [System.step, hp, if_true]
    refine ⟨fun h => ?_, fun h => ?_, fun h => absurd hp h, fun h => absurd hp h,
      fun h => absurd hp h⟩ <;>
      simp only [System.stepControl] at h ⊢ <;>
      cases hc : s.control <;> simp_all [ControlPc.step, ControlPc.touches, Shared.setMem] <;>
      split <;> simp_all
  | exit phase =>
    simp only [System.step]
    split
    · next hr =>
      exact ⟨fun h => ⟨h, rfl⟩, fun h => ⟨h, rfl, rfl⟩, fun _ => Phase.ne_running_of_rank hr,
        fun _ => ⟨rfl, rfl⟩, fun _ => ⟨rfl, rfl, rfl⟩⟩
    · exact Onward.refl s
  | _ =>
    simp only [System.step]
    (repeat' split) <;>
      exact ⟨fun h => ⟨h, rfl⟩, fun h => ⟨h, rfl, rfl⟩, id, fun _ => ⟨rfl, rfl⟩,
        fun _ => ⟨rfl, rfl, rfl⟩⟩

/-- At the place where the poll asks, the process is found to be gone. -/
def System.Gone (s : System) : Place → Prop
  | .exitSignal => s.observer.process.signalled s.process = true
  | .identity => s.process.stat = none
  | _ => False

/-- When the watcher finds the process gone, it has loaded what was stored last:
the lifecycle has not been stored since it loaded that, nor the ring since it
loaded the ticket. -/
def ReadSinceStored (s : System) : Event → Prop
  | .watcher => ∀ p, s.watcher.place = some p → s.Gone p →
      s.log.lifecycleStored = false ∧ s.log.ringStored = false
  | _ => True

instance (s : System) : (p : Place) → Decidable (s.Gone p)
  | .exitSignal => inferInstanceAs (Decidable (_ = true))
  | .identity => inferInstanceAs (Decidable (s.process.stat = none))
  | .status | .stat | .sampledAt | .processName | .processLifecycle | .heartbeat .. |
    .breadcrumbTicket | .breadcrumb .. | .observedAt => inferInstanceAs (Decidable False)

instance (s : System) : (e : Event) → Decidable (ReadSinceStored s e)
  | .watcher =>
    match hp : s.watcher.place with
    | none => isTrue fun _ h => by simp [hp] at h
    | some p => decidable_of_iff
        (s.Gone p → s.log.lifecycleStored = false ∧ s.log.ringStored = false)
        (by simp [ReadSinceStored, hp])
  | .call .. | .thread .. | .stop | .control | .exit _ | .usage .. | .tick _ | .renew .. |
    .release | .snapshot | .poll => isTrue trivial

def finalState (process : ProcessHandle) : Interference ReadSinceStored where
  inv s := s.observer.process = process
  may p s := s.Gone p → s.log.lifecycleStored = false ∧ s.log.ringStored = false
  rel _ s t := Onward s t
  trans := Onward.trans
  may_load _ p hp hG := hG p hp
  inv_step s e h _ := (s.step_process e).trans h
  inv_load _ _ h := h
  rel_watcher _ _ _ _ :=
    ⟨fun h => ⟨h, rfl⟩, fun h => ⟨h, rfl, rfl⟩, id, fun _ => ⟨rfl, rfl⟩, fun _ => ⟨rfl, rfl, rfl⟩⟩
  rel_step s _ _ _ he := s.onward_step he

def World.ring (w : World) : UInt64 × (Fin breadcrumbCapacity → BreadcrumbSlot) :=
  (w.mem.breadcrumbTicket, w.mem.breadcrumbs)

theorem readBreadcrumb_within {N : Place → Prop} {t : UInt64} (hN : ∀ l, N (.breadcrumb t l)) :
    (readBreadcrumb t).Within N := by
  rw [readBreadcrumb_eq]
  refine ⟨hN _, fun w₀ => ?_⟩
  dsimp only
  split
  · trivial
  refine ⟨hN _, fun w₁ => ?_⟩
  dsimp only
  split
  · trivial
  exact ⟨hN _, fun _ => ⟨hN _, fun _ => ⟨hN _, fun _ => ⟨hN _, fun _ => ⟨hN _, fun _ =>
    ⟨hN _, fun _ => trivial⟩⟩⟩⟩⟩⟩

theorem readBreadcrumb_dependsOn (t : UInt64) : (readBreadcrumb t).DependsOn World.ring := by
  have hs : ∀ v w : World, v.ring = w.ring → v.mem.breadcrumbs = w.mem.breadcrumbs :=
    fun v w h => congrArg Prod.snd h
  rw [readBreadcrumb_eq]
  refine ⟨fun v w h => by simp only [hs v w h], fun w₀ => ?_⟩
  dsimp only
  split
  · trivial
  refine ⟨fun v w h => by simp only [hs v w h], fun w₁ => ?_⟩
  dsimp only
  split
  · trivial
  exact ⟨fun v w h => by simp only [hs v w h], fun _ => ⟨fun v w h => by simp only [hs v w h],
    fun _ => ⟨fun v w h => by simp only [hs v w h], fun _ => ⟨fun v w h => by simp only [hs v w h],
    fun _ => ⟨fun v w h => by simp only [hs v w h], fun _ => ⟨fun v w h => by simp only [hs v w h],
    fun _ => trivial⟩⟩⟩⟩⟩⟩

def readWindow (newest : UInt64) : Reads (List (UInt64 × Breadcrumb)) :=
  (ReadProgram.traverse readTicket (ringTickets newest)).bind fun items =>
    .done items.reduceOption

theorem readTicket_within {N : Place → Prop} {t : UInt64} (hN : ∀ l, N (.breadcrumb t l)) :
    (readTicket t).Within N := by
  rw [readTicket_eq]
  exact (readBreadcrumb_within hN).bind fun item => trivial

theorem readTicket_dependsOn (t : UInt64) : (readTicket t).DependsOn World.ring := by
  rw [readTicket_eq]
  exact (readBreadcrumb_dependsOn t).bind fun item => trivial

theorem readWindow_within {N : Place → Prop} (hN : ∀ t l, N (.breadcrumb t l)) (n : UInt64) :
    (readWindow n).Within N :=
  Within.bind (Within.traverse fun t => readTicket_within (hN t)) fun _ => trivial

theorem readWindow_dependsOn (n : UInt64) : (readWindow n).DependsOn World.ring :=
  DependsOn.bind (DependsOn.traverse readTicket_dependsOn) fun _ => trivial

theorem readRing_dependsOn : readRing.DependsOn World.ring :=
  ⟨fun v w h => by
    have ht : v.mem.breadcrumbTicket = w.mem.breadcrumbTicket := congrArg Prod.fst h
    simp only [ht], fun w => readWindow_dependsOn w.mem.breadcrumbTicket⟩

section Poll

variable {process : ProcessHandle} {s : System}

theorem readRing_final : Safe (finalState process).rely
    (fun items t => t.log.ringStored = false → items = readRing.run t.world) readRing s := by
  intro u hu _ _
  have hring : ∀ n s t, (finalState process).rely.rel n s t → t.log.ringStored = false →
      s.log.ringStored = false ∧ t.world.ring = s.world.ring :=
    fun n s t hr ht => ⟨(hr.ring ht).1, Prod.ext (hr.ring ht).2.1 (hr.ring ht).2.2⟩
  have hmark : ∀ (p : Place) (t : System), p ≠ .breadcrumbTicket →
      (t.log.load p).ringStored = t.log.ringStored := by
    intro p t hp
    cases p <;> first | rfl | exact absurd rfl hp
  have hN : ∀ t l, Place.breadcrumb t l ≠ .breadcrumbTicket := by simp
  -- the window is read for the ticket loaded here, which stays the newest
  have hwin := Safe.and_kept (K := fun t => t.log.ringStored = false →
      t.mem.breadcrumbTicket = u.mem.breadcrumbTicket) (N := (· ≠ .breadcrumbTicket))
    (s := (finalState process).rely.mark .breadcrumbTicket u)
    (fun n s t _ hr hk ht => (hr.ring ht).2.1.trans (hk (hr.ring ht).1))
    (fun p t hp hk ht => hk ((hmark p t hp).symm.trans ht))
    (readWindow_within hN u.mem.breadcrumbTicket) (fun _ => rfl)
    (safe_run (U := fun t => t.log.ringStored = false) (f := World.ring) hring
      (fun p t hp ht => ⟨(hmark p t hp).symm.trans ht, rfl⟩)
      (readWindow_within hN _) (readWindow_dependsOn _))
  refine hwin.imp fun items t _ hh ht => (hh.1 ht).trans ?_
  rw [← hh.2 ht]
  rfl

/-- What the snapshot shows is in the memory still, unless it has been stored
to since. -/
structure Shown (w : WatchdogSnapshot) (s : System) : Prop where
  lifecycle : s.log.lifecycleStored = false → w.processLifecycle = s.mem.processLifecycle
  ring : s.log.ringStored = false → w.breadcrumbs = readRing.run s.world

theorem Shown.onward {w : WatchdogSnapshot} {t : System} (h : Shown w s) (hr : Onward s t) :
    Shown w t where
  lifecycle ht := (h.lifecycle (hr.lifecycle ht).1).trans (hr.lifecycle ht).2.symm
  ring ht := (h.ring (hr.ring ht).1).trans
    (readRing_dependsOn.run (Prod.ext (hr.ring ht).2.1.symm (hr.ring ht).2.2.symm))

theorem readHeartbeatAttempts_within {N : Place → Prop} {i : Fin heartbeatChannelCount}
    (hN : ∀ l, N (.heartbeat i l)) (id : Channel) (attempts : Nat) (result : HeartbeatSnapshot) :
    (readHeartbeatAttempts i id attempts result).Within N := by
  induction attempts generalizing result with
  | zero => trivial
  | succ attempts ih =>
    refine ⟨hN _, fun _ => ⟨hN _, fun _ => ⟨hN _, fun _ => ⟨hN _, fun _ => ?_⟩⟩⟩⟩
    simp only [done_bind]
    split
    · trivial
    · exact ih _

theorem readRing_within {N : Place → Prop} (hN : ∀ t l, N (.breadcrumb t l))
    (ht : N .breadcrumbTicket) : readRing.Within N :=
  ⟨ht, fun w => readWindow_within hN w.mem.breadcrumbTicket⟩

theorem snapshot_final : Safe (finalState process).rely Shown snapshot s := by
  rw [snapshot_eq]
  intro u₀ _ _ _ u₁ h₁ _ _
  have hmark : ∀ (p : Place) (t : System), p ≠ .processLifecycle →
      (t.log.load p).lifecycleStored = t.log.lifecycleStored := by
    intro p t hp
    cases p <;> first | rfl | exact absurd rfl hp
  -- the lifecycle is kept while everything else is read
  have hkept : ∀ {α : Type} {Q : α → System → Prop} {p : Reads α} {t : System},
      p.Within (· ≠ .processLifecycle) → (t.log.lifecycleStored = false →
        t.mem.processLifecycle = u₁.mem.processLifecycle) →
      Safe (finalState process).rely Q p t →
      Safe (finalState process).rely (fun a v => Q a v ∧ (v.log.lifecycleStored = false →
        v.mem.processLifecycle = u₁.mem.processLifecycle)) p t :=
    fun hp hK h => Safe.and_kept
      (fun n s t _ hr hk ht => (hr.lifecycle ht).2.trans (hk (hr.lifecycle ht).1))
      (fun p t hp hk ht => hk ((hmark p t hp).symm.trans ht)) hp hK h
  refine Safe.bind h₁ (hkept (Within.traverse fun i => readHeartbeatAttempts_within (by simp) _ _ _)
    (fun _ => rfl) (safe_of_forall (Q := fun _ _ => True) fun _ _ _ => trivial))
    fun hs u₂ h₂ hk => ?_
  refine Safe.bind h₂ (hkept (readRing_within (by simp) (by simp)) hk.2 readRing_final)
    fun items u₃ _ hh => ?_
  exact safe_done (fun v hr hv => hv.onward hr) ⟨fun ht => (hh.2 ht).symm, hh.1⟩

structure Ended (s : System) : Prop where
  phase : s.phase ≠ .running
  lifecycle : s.log.lifecycleStored = false
  ring : s.log.ringStored = false

theorem Ended.onward {t : System} (h : Ended s) (hr : Onward s t) : Ended t :=
  ⟨hr.gone h.phase, (hr.flags h.phase).1.trans h.lifecycle, (hr.flags h.phase).2.trans h.ring⟩

theorem System.Gone.phase {p : Place} (h : s.Gone p) : s.phase ≠ .running := by
  intro hp
  cases p <;> simp [System.Gone, ProcessHandle.signalled, System.process, hp] at h

theorem alive_final : Safe (finalState process).rely
    (fun isAlive t => isAlive = false → Ended t) process.alive s := by
  rw [ProcessHandle.alive_eq]
  intro u hu _ hm
  have hp : u.observer.process = process := hu
  dsimp only
  split
  · next hg =>
    have hgone : u.Gone .exitSignal := by
      rw [System.Gone, hp]
      exact hg
    have hl := hm hgone
    exact safe_done (fun v hr he hf => (he hf).onward hr) fun _ => ⟨hgone.phase, hl.1, hl.2⟩
  · intro v hv _ hm'
    have hp' : v.observer.process = process := hv
    refine safe_done (fun t hr he hf => (he hf).onward hr) fun hf => ?_
    -- a stat file that can be read is the process's own
    have hgone : v.Gone .identity := by
      simp only [System.Gone, System.process]
      split
      · rfl
      · next hr => simp [System.world, System.process, hr, hp'] at hf
    have hl := hm' hgone
    exact ⟨hgone.phase, hl.1, hl.2⟩

theorem pollReads_final (h : (finalState process).inv s) : Safe (finalState process).rely
    (fun r t => Shown r.snapshot t ∧ (r.isAlive = false → Ended t)) (pollReads process) s := by
  have hmark : ∀ (p : Place) (t : System), p ≠ .processLifecycle → p ≠ .breadcrumbTicket →
      t.log.load p = t.log := by
    intro p t hp hp'
    cases p <;> first | rfl | exact absurd rfl hp | exact absurd rfl hp'
  rw [pollReads_eq]
  refine Safe.bind (R := fun _ _ => True) h (safe_of_forall fun _ _ _ => trivial)
    fun sample u₁ h₁ _ => Safe.bind h₁ snapshot_final fun w u₂ h₂ hw => ?_
  refine Safe.bind h₂ (Safe.and_kept (K := Shown w)
    (N := fun p => p ≠ .processLifecycle ∧ p ≠ .breadcrumbTicket)
    (fun _ _ _ _ hr hk => hk.onward hr) (fun p t hp hk => ?_) ?_ hw alive_final)
    fun isAlive u₃ _ hh => ?_
  · have he : (finalState process).rely.mark p t = t := by simp [hmark p t hp.1 hp.2]
    rwa [he]
  · rw [ProcessHandle.alive_eq]
    refine ⟨by simp, fun w => ?_⟩
    dsimp only
    split
    · trivial
    · exact ⟨by simp, fun _ => trivial⟩
  · intro u₄ _ hr _
    refine safe_done (fun v hr hv => ⟨hv.1.onward hr, fun hf => (hv.2 hf).onward hr⟩) ?_
    exact ⟨hh.2.onward hr, fun hf => (hh.1 hf).onward hr⟩

end Poll

/-- An observation that reports the process as exited shows the lifecycle stored
last and the final contents of the ring. -/
def ExitedIsFinal (s : System) : Prop :=
  s.observer.latest.status = .exited →
    s.observer.latest.watchdog.processLifecycle = s.mem.processLifecycle ∧
    s.observer.latest.watchdog.breadcrumbs = readRing.run s.world

/-- What makes `ExitedIsFinal` last: nobody stores any more. A renewal belongs
to a poll that found the process alive. -/
structure Concluded (s : System) : Prop where
  final : ExitedIsFinal s
  phase : s.observer.latest.status = .exited → s.phase ≠ .running
  renewing : ∀ r, (∃ d, s.watcher = .storeLease d (some r)) ∨ s.watcher = .storePresent (some r) →
    r.isAlive = true

variable {process : ProcessHandle} {s : System} {e : Event}

/-- An exited observation stays final while the process's own part of the
memory stays as it is. -/
theorem ExitedIsFinal.kept {t : System} (h : ExitedIsFinal s) (ho : t.observer = s.observer)
    (hm : s.observer.latest.status = .exited → t.mem.processLifecycle = s.mem.processLifecycle ∧
      t.mem.breadcrumbTicket = s.mem.breadcrumbTicket ∧ t.mem.breadcrumbs = s.mem.breadcrumbs) :
    ExitedIsFinal t := by
  intro hs
  rw [ho] at hs ⊢
  obtain ⟨hl, hring⟩ := h hs
  obtain ⟨hl', ht, hb⟩ := hm hs
  exact ⟨hl.trans hl'.symm, hring.trans (readRing_dependsOn.run (Prod.ext ht.symm hb.symm))⟩

theorem Concluded.other (h : Concluded s) (he : e ≠ .watcher) : Concluded (s.step e) := by
  have ho := s.step_observer he
  have hr := s.onward_step he
  refine ⟨h.final.kept ho fun hs => hr.mem (h.phase hs), fun hs => ?_, fun r hw => ?_⟩
  · rw [ho] at hs
    exact hr.gone (h.phase hs)
  · rcases s.step_watcher he with hw' | hw' | hw' | ⟨d, hw'⟩ | hw' <;> rw [hw'] at hw
    · exact h.renewing r hw
    all_goals simp at hw

theorem Concluded.watcher
    (hr : ∀ r, s.watcher = .polling (.done r) → Shown r.snapshot s ∧ (r.isAlive = false → Ended s))
    (h : Concluded s) : Concluded (s.step .watcher) := by
  rcases hw : s.watcher with _ | (w | ⟨p, next⟩) | (r | ⟨p, next⟩) | ⟨d, k⟩ | (_ | r) | _ | _ <;>
    simp only [System.step, System.stepWatcher, hw]
  case polling.done =>
    cases ha : r.isAlive with
    | true =>
      refine ⟨h.final, h.phase, fun r' hr' => ?_⟩
      obtain rfl : r = r' := by simpa using hr'
      exact ha
    | false =>
      obtain ⟨hshown, hend⟩ := hr r hw
      have hend := hend ha
      refine ⟨fun _ => ?_, fun _ => hend.phase, by simp⟩
      simp only [Bool.false_eq_true, if_false, ObservedProcess.conclude_watchdog]
      exact ⟨hshown.lifecycle hend.lifecycle,
        (hshown.ring hend.ring).trans (readRing_dependsOn.run rfl)⟩
  case storePresent.some =>
    have hs : (s.observer.conclude r).latest.status ≠ .exited := by
      simp [ObservedProcess.conclude_status, h.renewing r (.inr hw)]
    exact ⟨fun hf => absurd hf hs, fun hf => absurd hf hs, by simp⟩
  case storeLease =>
    refine ⟨h.final.kept rfl fun _ => ⟨rfl, rfl, rfl⟩, h.phase, fun r hr' => ?_⟩
    obtain rfl : k = some r := by simpa using hr'
    exact h.renewing r (.inl ⟨d, hw⟩)
  all_goals exact ⟨h.final.kept rfl fun _ => ⟨rfl, rfl, rfl⟩, h.phase, by simp [hw]⟩

theorem System.Initial.concluded (h : s.Initial) : Concluded s := by
  refine ⟨fun hs => ?_, fun hs => ?_, by simp [h.watcher]⟩ <;> simp [h.latest] at hs

/-- Where the watcher has loaded what was stored last when it finds the process
gone, every exited observation is final. -/
theorem exited_is_final {es : List Event} (h : s.Initial)
    (hG : Permits System.step ReadSinceStored s es) : Always System.step ExitedIsFinal s es := by
  have hstep : ∀ u e, (finalState s.observer.process).Sound (fun _ _ => True)
        (fun r t => Shown r.snapshot t ∧ (r.isAlive = false → Ended t)) u ∧ Concluded u →
      ReadSinceStored u e → (finalState s.observer.process).Sound (fun _ _ => True)
        (fun r t => Shown r.snapshot t ∧ (r.isAlive = false → Ended t)) (u.step e) ∧
        Concluded (u.step e) := by
    rintro u e ⟨hu, hc⟩ hG
    refine ⟨Interference.sound_step (fun _ _ => safe_of_forall fun _ _ _ => trivial)
      (fun v hv => hv ▸ pollReads_final rfl) hu hG, ?_⟩
    by_cases he : e = .watcher
    · subst he
      exact hc.watcher fun r hr => hu.poll hr
    · exact hc.other he
  refine (always_of_permits hstep ⟨Interference.sound_of_idle rfl h.watcher, h.concluded⟩ hG).imp
    fun u hu => hu.2.final

def stopEvents : List Event := .stop :: List.replicate 5 .control

/-- `stop` and exit come before the poll. -/
theorem exited_is_final_stopped :
    Always System.step ExitedIsFinal System.sample
      (stopEvents ++ [.exit .zombie, .poll] ++ List.replicate 24 .watcher) :=
  exited_is_final System.initial_sample (by decide +kernel)

/-- `stop` and exit come between the snapshot of the poll and its question
whether the process is alive. -/
def stoppedInPoll : List Event :=
  .poll :: List.replicate 22 .watcher ++ stopEvents ++ .exit .zombie :: List.replicate 3 .watcher

theorem exited_while_running : System.sample.Initial ∧
    (run System.step System.sample stoppedInPoll).observer.latest.status = .exited ∧
    (run System.step System.sample stoppedInPoll).observer.latest.watchdog.processLifecycle =
      Lifecycle.running ∧
    (run System.step System.sample stoppedInPoll).mem.processLifecycle = Lifecycle.cleanExit :=
  ⟨System.initial_sample, by decide +kernel, by decide +kernel, by decide +kernel⟩

end Peepbooth
