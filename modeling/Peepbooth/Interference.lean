import Peepbooth.System

/-! A snapshot or a poll among the steps of everybody else. What a statement about
their results needs of the others is collected in an `Interference`. -/

namespace Peepbooth

open Schedule ReadProgram

def Watcher.place : Watcher → Option Place
  | .snapshotting p => p.place
  | .polling p => p.place
  | _ => none

def Watcher.taken : Watcher → Option WatchdogSnapshot
  | .snapshotting (.done w) => some w
  | .polling (.done r) => some r.snapshot
  | _ => none

namespace System

theorem step_watcher (s : System) {e : Event} (he : e ≠ .watcher) :
    (s.step e).watcher = s.watcher ∨
    (s.step e).watcher = .snapshotting snapshot ∨
    (s.step e).watcher = .polling (pollReads s.observer.process) ∨
    (∃ d, (s.step e).watcher = .storeLease d none) ∨
    (s.step e).watcher = .clearPresent := by
  cases e with
  | watcher => exact absurd rfl he
  | thread i spurious => simp only [step, stepThread]; split <;> simp
  | control => simp only [step, stepControl]; split <;> simp
  | usage memory cpuTicks => simp [step]
  | _ => simp only [step]; split <;> simp

theorem step_observer (s : System) {e : Event} (he : e ≠ .watcher) :
    (s.step e).observer = s.observer := by
  cases e with
  | watcher => exact absurd rfl he
  | thread i spurious => simp only [step, stepThread]; split <;> rfl
  | control => simp only [step, stepControl]; split <;> rfl
  | usage memory cpuTicks => rfl
  | _ => simp only [step]; split <;> rfl

theorem step_process (s : System) (e : Event) :
    (s.step e).observer.process = s.observer.process := by
  by_cases he : e = .watcher
  · subst he
    rcases hw : s.watcher with _ | (r | _) | (r | _) | _ | (_ | r) | _ | _ <;>
      simp only [step, stepWatcher, hw]
    · split <;> simp [ObservedProcess.conclude_process]
    · exact ObservedProcess.conclude_process _ _
  · rw [s.step_observer he]

theorem step_poll {s : System} (hw : s.watcher = .idle) :
    s.step .poll = { s with watcher := .polling (pollReads s.observer.process) } := by
  simp only [step, hw]

theorem run_snapshotting {s : System} {p : Reads WatchdogSnapshot}
    (hw : s.watcher = .snapshotting p) :
    let t := run System.step s (List.replicate (p.loads s.world) .watcher)
    t.watcher = .snapshotting (.done (p.run s.world)) ∧ t.log.calls = s.log.calls := by
  induction p generalizing s with
  | done w => exact ⟨hw, rfl⟩
  | load place next ih =>
    have hs : s.step .watcher =
        { s with watcher := .snapshotting (next s.world), log := s.log.load place } := by
      simp [System.step, System.stepWatcher, hw]
    have hh := ih s.world (s := s.step .watcher) (by rw [hs])
    rw [show (s.step .watcher).world = s.world by rw [hs]; rfl] at hh
    refine ⟨hh.1, hh.2.trans ?_⟩
    rw [hs]
    cases place <;> rfl

theorem run_polling {s : System} {p : Reads PollReads} (hw : s.watcher = .polling p) :
    let t := run System.step s (List.replicate (p.loads s.world) .watcher)
    t.watcher = .polling (.done (p.run s.world)) ∧ t.observer = s.observer := by
  induction p generalizing s with
  | done r => exact ⟨hw, rfl⟩
  | load place next ih =>
    have hs : s.step .watcher =
        { s with watcher := .polling (next s.world), log := s.log.load place } := by
      simp [System.step, System.stepWatcher, hw]
    have hh := ih s.world (s := s.step .watcher) (by rw [hs])
    rw [show (s.step .watcher).world = s.world by rw [hs]; rfl] at hh
    exact ⟨hh.1, hh.2.trans (by rw [hs])⟩

theorem run_poll {s : System} (hw : s.watcher = .idle) :
    let p := pollReads s.observer.process
    let t := run System.step (s.step .poll) (List.replicate (p.loads s.world) .watcher)
    t.watcher = .polling (.done (p.run s.world)) ∧ t.observer = s.observer := by
  rw [step_poll hw]
  exact run_polling rfl

end System

/-- What the steps that `G` allows do to a watcher's reads: they keep `inv`, and
between two loads they move within `rel`; a load is made where it `may`. -/
structure Interference (G : System → Event → Prop) where
  inv : System → Prop
  may : Place → System → Prop
  rel : Option Place → System → System → Prop
  trans : ∀ {n a b c}, rel n a b → rel n b c → rel n a c
  may_load : ∀ s p, s.watcher.place = some p → G s .watcher → may p s
  inv_step : ∀ s e, inv s → G s e → inv (s.step e)
  inv_load : ∀ p s, inv s → inv { s with log := s.log.load p }
  rel_watcher : ∀ n s w, inv s → rel n s { s with watcher := w }
  rel_step : ∀ s e, inv s → G s e → e ≠ .watcher → rel s.watcher.place s (s.step e)

namespace Interference

variable {G : System → Event → Prop} (F : Interference G)

def rely : Rely Place World System where
  view := System.world
  mark p s := { s with log := s.log.load p }
  may := F.may
  inv := F.inv
  rel := F.rel
  inv_mark := F.inv_load
  refl n s h := F.rel_watcher n s s.watcher h
  trans := F.trans

@[simp] theorem rely_view (s : System) : F.rely.view s = s.world := rfl

@[simp] theorem rely_mark (p : Place) (s : System) :
    F.rely.mark p s = { s with log := s.log.load p } := rfl

@[simp] theorem rely_inv (s : System) : F.rely.inv s = F.inv s := rfl

@[simp] theorem rely_rel (n : Option Place) (s t : System) : F.rely.rel n s t = F.rel n s t := rfl

/-- The snapshot or the poll under way can only end as `Q` or `R` say. -/
def Sound (Q : WatchdogSnapshot → System → Prop) (R : PollReads → System → Prop)
    (s : System) : Prop :=
  F.inv s ∧ match s.watcher with
    | .snapshotting p => Safe F.rely Q p s
    | .polling p => Safe F.rely R p s
    | _ => True

variable {F} {Q : WatchdogSnapshot → System → Prop} {R : PollReads → System → Prop}

theorem sound_step (hs : ∀ s, F.inv s → Safe F.rely Q snapshot s)
    (hp : ∀ s, F.inv s → Safe F.rely R (pollReads s.observer.process) s)
    {s : System} {e : Event} (h : F.Sound Q R s) (hG : G s e) : F.Sound Q R (s.step e) := by
  have hi := F.inv_step s e h.1 hG
  refine ⟨hi, ?_⟩
  by_cases he : e = .watcher
  · subst he
    have hload := fun p => F.inv_load p s h.1
    rcases hw : s.watcher with _ | (r | ⟨place, next⟩) | (r | ⟨place, next⟩) | _ | _ | _ | _
    case snapshotting.load =>
      have hh : Safe F.rely Q (.load place next) s := by simpa only [hw] using h.2
      simp only [System.step, System.stepWatcher, hw]
      have hm := F.may_load s place (by rw [hw]; rfl) hG
      exact (hh.load h.1 hm).trans (F.rel_watcher _ _ _ (hload place))
    case polling.load =>
      have hh : Safe F.rely R (.load place next) s := by simpa only [hw] using h.2
      simp only [System.step, System.stepWatcher, hw]
      have hm := F.may_load s place (by rw [hw]; rfl) hG
      exact (hh.load h.1 hm).trans (F.rel_watcher _ _ _ (hload place))
    case polling.done => by_cases hr : r.isAlive <;> simp [System.step, System.stepWatcher, hw, hr]
    all_goals simp [System.step, System.stepWatcher, hw]
  · have hr := F.rel_step s e h.1 hG he
    rcases s.step_watcher he with hw | hw | hw | ⟨d, hw⟩ | hw <;> rw [hw]
    · rcases hs' : s.watcher with _ | p | p | _ | _ | _ | _ <;> try trivial
      · have hh : Safe F.rely Q p s := by simpa only [hs'] using h.2
        rw [hs'] at hr
        exact hh.trans hr
      · have hh : Safe F.rely R p s := by simpa only [hs'] using h.2
        rw [hs'] at hr
        exact hh.trans hr
    · exact hs _ hi
    · simpa only [System.step_process] using hp _ hi
    · trivial
    · trivial

theorem sound_of_idle {s : System} (h : F.inv s) (hw : s.watcher = .idle) : F.Sound Q R s :=
  ⟨h, by rw [hw]; trivial⟩

theorem sound_of_polling {s : System} {p : Reads PollReads} (h : F.inv s)
    (hw : s.watcher = .polling p) (hp : Safe F.rely R p s) : F.Sound Q R s :=
  ⟨h, by rw [hw]; exact hp⟩

theorem always_sound (hs : ∀ s, F.inv s → Safe F.rely Q snapshot s)
    (hp : ∀ s, F.inv s → Safe F.rely R (pollReads s.observer.process) s)
    {s : System} {es : List Event} (h : F.Sound Q R s) (hG : Permits System.step G s es) :
    Always System.step (F.Sound Q R) s es :=
  always_of_permits (fun _ _ hh => sound_step hs hp hh) h hG

theorem Sound.snapshot {s : System} (h : F.Sound Q R s) {w : WatchdogSnapshot}
    (hw : s.watcher = .snapshotting (.done w)) : Q w s := by
  have hh : Safe F.rely Q (.done w) s := by simpa only [hw] using h.2
  exact hh.result h.1

theorem Sound.poll {s : System} (h : F.Sound Q R s) {r : PollReads}
    (hw : s.watcher = .polling (.done r)) : R r s := by
  have hh : Safe F.rely R (.done r) s := by simpa only [hw] using h.2
  exact hh.result h.1

/-- A poll reads nothing that spoils its snapshot. -/
theorem safe_pollReads (hrel : ∀ n w s t, F.inv t → F.rel n s t → Q w s → Q w t)
    (hload : ∀ p w s, Q w s → Q w { s with log := s.log.load p })
    (hs : ∀ s, F.inv s → Safe F.rely Q snapshot s) {s : System} (hi : F.inv s)
    (process : ProcessHandle) : Safe F.rely (fun r => Q r.snapshot) (pollReads process) s := by
  rw [pollReads_eq]
  refine Safe.bind (R := fun _ _ => True) hi (safe_of_forall fun _ _ _ => trivial)
    fun sample u₁ h₁ _ => Safe.bind h₁ (hs u₁ h₁) fun w u₂ h₂ hw => ?_
  refine Safe.bind h₂ (Safe.keeps (K := Q w) (fun n s t ht hr => hrel n w s t ht hr)
    (fun p t => hload p w t) hw) fun isAlive u₃ _ hk => ?_
  intro u₄ h₄ hr _ u₅ h₅ hr'
  exact hrel _ w _ u₅ h₅ hr' (hload .observedAt w u₄ (hrel _ w u₃ u₄ h₄ hr hk))

theorem Sound.taken {s : System} (h : F.Sound Q (fun r => Q r.snapshot) s) {w : WatchdogSnapshot}
    (hw : s.watcher.taken = some w) : Q w s := by
  rcases ho : s.watcher with _ | (r | _) | (r | _) | _ | _ | _ | _ <;>
    simp only [Watcher.taken, ho, Option.some.injEq, reduceCtorEq] at hw
  · subst hw
    exact h.snapshot ho
  · subst hw
    exact h.poll ho

/-- What holds of every snapshot at its end, and is not spoiled afterwards, holds of whatever
a snapshot or a poll has taken. -/
theorem always_taken (hrel : ∀ n w s t, F.inv t → F.rel n s t → Q w s → Q w t)
    (hload : ∀ p w s, Q w s → Q w { s with log := s.log.load p })
    (hs : ∀ s, F.inv s → Safe F.rely Q snapshot s) {s : System} {es : List Event} (hi : F.inv s)
    (hidle : s.watcher = .idle) (hG : Permits System.step G s es) :
    Always System.step (fun s => F.inv s ∧ ∀ w, s.watcher.taken = some w → Q w s) s es :=
  (always_sound hs (fun u hu => safe_pollReads hrel hload hs hu u.observer.process)
    (sound_of_idle hi hidle) hG).imp fun _ h => ⟨h.1, fun _ hw => h.taken hw⟩

end Interference

end Peepbooth
