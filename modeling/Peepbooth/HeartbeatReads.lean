import Peepbooth.Interference
import Peepbooth.Lease
import Peepbooth.Health

/-! Heartbeats read while they are written. Whatever a reader puts together of a
slot, the timestamp is one that some heartbeat call read off the clock. -/

namespace Peepbooth

open Schedule ReadProgram

def beatChannel (value : Channel) (now : UInt64) :
    Option (Fin heartbeatChannelCount × UInt64) :=
  if h : channelIndex value < heartbeatChannelCount then some (⟨channelIndex value, h⟩, now)
  else none

/-- The slot a heartbeat call is about and the clock reading it carries. -/
def Pc.beat : Pc → Option (Fin heartbeatChannelCount × UInt64)
  | .reloadState (.heartbeat value) now | .reloadPresent (.heartbeat value) now
  | .loadLease (.heartbeat value) now => beatChannel value now
  | .loadNext index now | .exchangeNext index now _ | .storeActive index now
  | .storeTimestamp index now => some (index, now)
  | _ => none

/-- Every timestamp stored or on its way comes from a reading of the clock. -/
structure Stamped (s : System) : Prop where
  slot : ∀ i, (s.mem.heartbeats i).timestampNs = 0 ∨
    (s.mem.heartbeats i).timestampNs ∈ s.log.readings i
  carried : ∀ j i now, (s.thread j).beat = some (i, now) → now ∈ s.log.readings i
  past : ∀ i, ∀ c ∈ s.log.readings i, c ≤ s.clock

theorem Pc.step_beat {pc : Pc} (spurious : Bool) (s : Shared) {i : Fin heartbeatChannelCount}
    {now : UInt64} (h : (pc.step spurious s).1.beat = some (i, now)) :
    pc.beat = some (i, now) ∨
      ∃ value, pc = .readClock (.heartbeat value) ∧ beatChannel value s.clock = some (i, now) := by
  cases pc with
  | readClock work =>
    cases work with
    | heartbeat value => exact .inr ⟨value, rfl, h⟩
    | breadcrumb args => cases h
  | reloadState work n =>
    cases work <;> simp only [step] at h <;> split at h <;> simp_all [Pc.beat]
  | reloadPresent work n =>
    cases work <;> simp only [step] at h <;> split at h <;> simp_all [Pc.beat]
  | loadLease work n =>
    cases work with
    | heartbeat value =>
      simp only [step, admitted] at h
      repeat' split at h
      all_goals simp_all [Pc.beat, beatChannel]
    | breadcrumb args =>
      simp only [step, admitted] at h
      split at h <;> simp [Pc.beat] at h
  | store w d => cases hw : w.next <;> simp [step, hw, Pc.beat] at h
  | _ =>
    simp only [step, tryNext] at h
    (repeat' split at h) <;> simp_all [Pc.beat]

theorem Pc.step_timestamp (pc : Pc) (spurious : Bool) (s : Shared)
    (i : Fin heartbeatChannelCount) :
    ((pc.step spurious s).2.mem.heartbeats i).timestampNs = (s.mem.heartbeats i).timestampNs ∨
      ∃ now, pc = .storeTimestamp i now ∧
        ((pc.step spurious s).2.mem.heartbeats i).timestampNs = now := by
  cases pc with
  | exchangeNext index now next => simp only [step]; split <;> exact .inl rfl
  | storeTimestamp index now =>
    by_cases hi : i = index
    · subst hi
      exact .inr ⟨now, rfl, by simp [step, Shared.setMem, SharedState.setHeartbeat]⟩
    · simp [step, Shared.setMem, SharedState.setHeartbeat, hi]
  | _ =>
    refine .inl ?_
    simp only [step, Shared.setMem, SharedState.setHeartbeat, SharedState.setBreadcrumb,
      Function.update_apply]
    try (split <;> simp_all)

theorem Log.mem_access_readings {log : Log} {j : Nat} {s : Shared} {pc : Pc}
    {i : Fin heartbeatChannelCount} {c : UInt64} :
    c ∈ (log.access j s pc).readings i ↔ c ∈ log.readings i ∨
      ∃ value, pc = .readClock (.heartbeat value) ∧ beatChannel value s.clock = some (i, c) := by
  cases pc with
  | readClock work =>
    cases work with
    | breadcrumb args => simp [access]
    | heartbeat value =>
      simp only [access, beatChannel]
      split
      · next hv =>
        by_cases hi : i = ⟨channelIndex value, hv⟩
        · subst hi
          simp [hv, or_comm, eq_comm]
        · simp [hv, hi, Ne.symm hi]
      · next hv => simp [hv]
  | store w d => cases w <;> simp [access]
  | _ => simp [access]

theorem beatChannel_clock {value : Channel} {clock now : UInt64} {i : Fin heartbeatChannelCount}
    (h : beatChannel value clock = some (i, now)) : now = clock := by
  simp only [beatChannel] at h
  split at h
  · simpa [eq_comm] using (congrArg (Option.map Prod.snd) h)
  · cases h

theorem Stamped.thread {s : System} (h : Stamped s) (j : Nat) (spurious : Bool) :
    Stamped (s.stepThread j spurious) := by
  have hmono : ∀ i c, c ∈ s.log.readings i → c ∈ (s.stepThread j spurious).log.readings i :=
    fun i c hc => Log.mem_access_readings.mpr (.inl hc)
  refine ⟨fun i => ?_, fun k i now hk => ?_, fun i c hc => ?_⟩
  · rcases Pc.step_timestamp (s.thread j) spurious s.toShared i with he | ⟨now, hpc, he⟩
    · have hs : ((s.stepThread j spurious).mem.heartbeats i).timestampNs = _ := he
      rw [hs]
      exact (h.slot i).imp_right (hmono i _)
    · have hs : ((s.stepThread j spurious).mem.heartbeats i).timestampNs = now := he
      rw [hs]
      exact .inr (hmono i now (h.carried j i now (by rw [hpc]; rfl)))
  · by_cases hkj : k = j
    · subst hkj
      simp only [System.stepThread, Function.update_self] at hk
      rcases Pc.step_beat spurious s.toShared hk with ho | ⟨value, hpc, hv⟩
      · exact hmono i now (h.carried k i now ho)
      · exact Log.mem_access_readings.mpr (.inr ⟨value, hpc, hv⟩)
    · exact hmono i now (h.carried k i now (by simpa [System.stepThread, hkj] using hk))
  · have hcl : (s.stepThread j spurious).clock = s.clock := Pc.step_clock _ _ _
    rw [hcl]
    rcases Log.mem_access_readings.mp hc with ho | ⟨value, -, hv⟩
    · exact h.past i c ho
    · exact beatChannel_clock hv ▸ UInt64.le_refl _

theorem Stamped.step {s : System} (h : Stamped s) (e : Event) : Stamped (s.step e) := by
  cases e with
  | thread j spurious =>
    simp only [System.step]
    split
    · exact h.thread j spurious
    · exact h
  | call j call =>
    have hc : (Pc.start call).beat = none := by cases call <;> rfl
    simp only [System.step]
    split
    · refine ⟨h.slot, fun k i now hk => ?_, h.past⟩
      by_cases hkj : k = j
      · subst hkj
        simp [hc] at hk
      · exact h.carried k i now (by simpa [hkj] using hk)
    · exact h
  | tick now =>
    simp only [System.step]
    split
    · next hn => exact ⟨h.slot, h.carried, fun i c hc => UInt64.le_trans (h.past i c hc) hn⟩
    · exact h
  | watcher =>
    have hload : ∀ p, (s.log.load p).readings = s.log.readings := by
      intro p
      cases p <;> rfl
    rcases hw : s.watcher with _ | (r | ⟨place, next⟩) | (r | ⟨place, next⟩) | _ | _ | _ | _ <;>
      simp only [System.step, System.stepWatcher, hw]
    case polling.done => split <;> exact ⟨h.slot, h.carried, h.past⟩
    case snapshotting.load =>
      exact ⟨by simpa only [hload] using h.slot, by simpa only [hload] using h.carried,
        by simpa only [hload] using h.past⟩
    case polling.load =>
      exact ⟨by simpa only [hload] using h.slot, by simpa only [hload] using h.carried,
        by simpa only [hload] using h.past⟩
    all_goals exact ⟨h.slot, h.carried, h.past⟩
  | control =>
    simp only [System.step, System.stepControl]
    split
    · cases s.control <;> simp only [ControlPc.step] <;> (repeat' split) <;>
        exact ⟨h.slot, h.carried, h.past⟩
    · exact h
  | _ =>
    simp only [System.step]
    (repeat' split) <;> exact ⟨h.slot, h.carried, h.past⟩

theorem System.Initial.stamped {s : System} (h : s.Initial) : Stamped s where
  slot i := .inl (by rw [h.fresh.heartbeats i])
  carried j i now hj := by simp [h.thread, Pc.beat] at hj
  past i c hc := by simp [h.log] at hc

theorem System.readings_step {s : System} (e : Event) {i : Fin heartbeatChannelCount} {c : UInt64}
    (h : c ∈ s.log.readings i) : c ∈ (s.step e).log.readings i := by
  cases e with
  | thread j spurious =>
    simp only [System.step]
    split
    · exact Log.mem_access_readings.mpr (.inl h)
    · exact h
  | watcher =>
    have hload : ∀ p, (s.log.load p).readings = s.log.readings := by
      intro p
      cases p <;> rfl
    rcases hw : s.watcher with _ | (r | ⟨place, next⟩) | (r | ⟨place, next⟩) | _ | _ | _ | _ <;>
      simp only [System.step, System.stepWatcher, hw]
    case polling.done => split <;> exact h
    case snapshotting.load => rwa [hload]
    case polling.load => rwa [hload]
    all_goals exact h
  | control => simp only [System.step, System.stepControl]; split <;> exact h
  | _ => simp only [System.step]; (repeat' split) <;> exact h

/-- The channels in `A` are marked active before and after the step. -/
def KeepsActive (A : Fin heartbeatChannelCount → Prop) (s : System) (e : Event) : Prop :=
  ∀ i, A i → (s.mem.heartbeats i).active ≠ 0 ∧ ((s.step e).mem.heartbeats i).active ≠ 0

def heartbeatReads (A : Fin heartbeatChannelCount → Prop) : Interference (KeepsActive A) where
  inv s := Stamped s ∧ ∀ i, A i → (s.mem.heartbeats i).active ≠ 0
  may _ _ := True
  rel _ s s' := ∀ i c, c ∈ s.log.readings i → c ∈ s'.log.readings i
  trans h h' i c hc := h' i c (h i c hc)
  may_load _ _ _ _ := trivial
  inv_step s e h hG := ⟨h.1.step e, fun i hi => (hG i hi).2⟩
  inv_load p s h := by
    have hl : (s.log.load p).readings = s.log.readings := by cases p <;> rfl
    exact ⟨⟨by simpa only [hl] using h.1.slot, by simpa only [hl] using h.1.carried,
      by simpa only [hl] using h.1.past⟩, h.2⟩
  rel_watcher n s w _ i c hc := hc
  rel_step s e h _ _ i c hc := s.readings_step e hc

/-- What the reader has of a slot comes from a heartbeat call, and shows the
channel as active if it is always active. -/
structure Backed (A : Fin heartbeatChannelCount → Prop) (i : Fin heartbeatChannelCount)
    (h : HeartbeatSnapshot) (s : System) : Prop where
  active : A i → h.active = true
  stamp : h.timestampNs = 0 ∨ h.timestampNs ∈ s.log.readings i

section Reader

variable {A : Fin heartbeatChannelCount → Prop} {i : Fin heartbeatChannelCount}
  {h : HeartbeatSnapshot} {s u : System}

theorem Backed.mono (hh : Backed A i h s)
    (hr : ∀ i c, c ∈ s.log.readings i → c ∈ u.log.readings i) : Backed A i h u :=
  ⟨hh.active, hh.stamp.imp_right (hr i _)⟩

theorem Backed.load (p : Place) (hh : Backed A i h s) :
    Backed A i h { s with log := s.log.load p } := by
  have hl : (s.log.load p).readings = s.log.readings := by cases p <;> rfl
  exact ⟨hh.active, by simpa only [hl] using hh.stamp⟩

/-- Whether the reader succeeds at once, retries, or gives up after its last
attempt. -/
theorem readHeartbeatAttempts_safe (id : Channel) {attempts : Nat} {result : HeartbeatSnapshot}
    (hh : attempts = 0 → Backed A i result s) :
    Safe (heartbeatReads A).rely (Backed A i) (readHeartbeatAttempts i id attempts result) s := by
  induction attempts generalizing result s with
  | zero => exact safe_done (fun _ hr hb => hb.mono hr) (hh rfl)
  | succ attempts ih =>
    intro u₀ _ _ _ u₁ h₁ _ _ u₂ h₂ _ _ u₃ h₃ hr _
    have hb : Backed A i ⟨id, (u₁.mem.heartbeats i).active != 0, (u₂.mem.heartbeats i).timestampNs,
        (u₃.mem.heartbeats i).sequence⟩
        ((heartbeatReads A).rely.mark (.heartbeat i .after) u₃) := by
      refine Backed.load _ ⟨fun hi => by simpa using h₁.2 i hi, ?_⟩
      exact (h₂.1.slot i).imp_right (hr i _)
    by_cases he : (u₀.mem.heartbeats i).sequence = (u₃.mem.heartbeats i).sequence
    · simpa [he] using safe_done (fun _ hr hb => hb.mono hr) hb
    · simpa [he] using ih fun _ => hb

theorem readHeartbeat_safe : Safe (heartbeatReads A).rely (Backed A i) (readHeartbeat i) s :=
  readHeartbeatAttempts_safe _ (by simp)

def AllBacked (A : Fin heartbeatChannelCount → Prop) (hs : List HeartbeatSnapshot) (s : System) :
    Prop :=
  List.Forall₂ (fun i h => Backed A i h s) (List.finRange heartbeatChannelCount) hs

theorem AllBacked.mono {hs : List HeartbeatSnapshot} (hh : AllBacked A hs s)
    (hr : ∀ i c, c ∈ s.log.readings i → c ∈ u.log.readings i) : AllBacked A hs u :=
  hh.imp fun _ _ hb => hb.mono hr

theorem AllBacked.load {hs : List HeartbeatSnapshot} (p : Place) (hh : AllBacked A hs s) :
    AllBacked A hs { s with log := s.log.load p } :=
  hh.imp fun _ _ hb => hb.load p

theorem AllBacked.get {hs : List HeartbeatSnapshot} (hh : AllBacked A hs s)
    (i : Fin heartbeatChannelCount) : ∃ h ∈ hs, Backed A i h s :=
  exists_of_forall₂ hh.flip (List.mem_finRange i)

theorem snapshot_backed :
    Safe (heartbeatReads A).rely (fun w => AllBacked A w.heartbeats) snapshot s := by
  rw [snapshot_eq]
  intro u₀ h₀ _ _ u₁ h₁ _ _
  have hi₁ := (heartbeatReads A).inv_load .processLifecycle u₁ h₁
  refine Safe.bind hi₁ (Safe.traverse (Q := Backed A) hi₁ (fun n _ _ _ _ _ hr hb => hb.mono hr)
    (fun p _ _ _ hb => hb.load p) fun _ _ _ _ => readHeartbeat_safe) fun hs u₂ h₂ hb => ?_
  refine Safe.bind h₂ (Safe.keeps (K := AllBacked A hs) (fun _ _ _ _ hr hk => hk.mono hr)
    (fun p _ hk => hk.load p) hb) fun items u₃ _ hk => ?_
  exact safe_done (fun _ hr hq => hq.mono hr) hk

/-- What a poll has read when it concludes: no timestamp is in its future. -/
theorem pollReads_backed (hi : (heartbeatReads A).inv s) (process : ProcessHandle) :
    Safe (heartbeatReads A).rely (fun r u => AllBacked A r.snapshot.heartbeats u ∧
      ∀ h ∈ r.snapshot.heartbeats, h.timestampNs ≤ r.now) (pollReads process) s := by
  rw [pollReads_eq]
  refine Safe.bind (R := fun _ _ => True) hi (safe_of_forall fun _ _ _ => trivial)
    fun sample u₁ h₁ _ => Safe.bind h₁ snapshot_backed fun w u₂ h₂ hw => ?_
  refine Safe.bind h₂ (Safe.keeps (K := AllBacked A w.heartbeats)
    (fun _ _ _ _ hr hk => hk.mono hr) (fun p _ hk => hk.load p) hw) fun isAlive u₃ _ hk => ?_
  intro u₄ h₄ hr _
  have hb : AllBacked A w.heartbeats u₄ := hk.mono hr
  refine safe_done (fun _ hr hq => ⟨hq.1.mono hr, hq.2⟩) ⟨hb.load .observedAt, fun h hm => ?_⟩
  obtain ⟨i, -, hbi⟩ := exists_of_forall₂ hb hm
  rcases hbi.stamp with hz | hs
  · rw [hz]
    exact UInt64.zero_le
  · exact h₄.1.past i _ hs

end Reader

theorem System.Reachable.stamped {s : System} (h : s.Reachable) : Stamped s := by
  obtain ⟨s₀, es, h₀, rfl⟩ := h
  exact invariant_of_step (fun _ e hs => hs.step e) h₀.stamped es

/-- A poll that begins in `s` and has made its loads after `es`: if it concludes
`healthy`, a channel was read as active, and every channel that was active all
the time has a heartbeat no older than `stale_after_ns`. -/
theorem healthy_is_backed {s : System} {es : List Event} {r : PollReads} (h : s.Reachable)
    (hi : s.watcher = .idle) (hr : (run System.step (s.step .poll) es).watcher = .polling (.done r))
    (hh : ((run System.step (s.step .poll) es).observer.conclude r).latest.responsiveness =
      some .healthy) :
    (∃ h ∈ r.snapshot.heartbeats, h.active = true) ∧
      ∀ i, Always System.step (fun u => (u.mem.heartbeats i).active = 1) (s.step .poll) es →
        ∃ c ∈ (run System.step (s.step .poll) es).log.readings i, c ≤ r.now ∧
          r.now - c ≤ (run System.step (s.step .poll) es).observer.staleAfterNs := by
  obtain ⟨cpu, hcl⟩ := responsiveness_conclude hh
  obtain ⟨hact, hst⟩ := classifyHealth_eq_healthy.mp hcl
  refine ⟨hact, fun i ha => ?_⟩
  have hw : (s.step .poll).watcher = .polling (pollReads (s.step .poll).observer.process) := by
    simp only [System.step, hi]
  have hinv : (heartbeatReads (· = i)).inv (s.step .poll) :=
    ⟨h.stamped.step .poll, fun j hj => by rw [hj, ha.first]; decide⟩
  have hG : Permits System.step (KeepsActive (· = i)) (s.step .poll) es := by
    refine (permits_of_always ha).imp fun u e hu j hj => ?_
    rw [hj, hu.1, hu.2]
    decide
  have hsound := Interference.always_sound (Q := fun _ _ => True)
    (fun _ _ => safe_of_forall fun _ _ _ => trivial)
    (fun u hu => pollReads_backed hu u.observer.process)
    (Interference.sound_of_polling hinv hw (pollReads_backed hinv _)) hG
  obtain ⟨hb, hle⟩ := hsound.last.poll hr
  obtain ⟨hs, hm, hbi⟩ := hb.get i
  have hns := hst hs hm (hbi.active rfl)
  rw [stale_eq_false (hle hs hm)] at hns
  exact ⟨hs.timestampNs, hbi.stamp.resolve_left hns.1, hle hs hm, hns.2⟩

def beating : System :=
  run System.step System.sample
    (.renew 0 10 :: .watcher :: .watcher :: .tick 5 :: .call 0 (.setChannelActive .main true) ::
      List.replicate 13 (.thread 0 false))

def beatingReads : Reads PollReads := pollReads beating.observer.process

def beatingPoll : List Event := List.replicate (beatingReads.loads beating.world) .watcher

theorem healthy_is_backed_beating :
    (∃ h ∈ (beatingReads.run beating.world).snapshot.heartbeats, h.active = true) ∧
      ∀ i, Always System.step (fun u => (u.mem.heartbeats i).active = 1) (beating.step .poll)
          beatingPoll →
        ∃ c ∈ (run System.step (beating.step .poll) beatingPoll).log.readings i,
          c ≤ (beatingReads.run beating.world).now ∧ (beatingReads.run beating.world).now - c ≤
            (run System.step (beating.step .poll) beatingPoll).observer.staleAfterNs := by
  have hi : beating.watcher = .idle := rfl
  obtain ⟨hr, ho⟩ := System.run_poll hi
  refine healthy_is_backed ⟨System.sample, _, System.initial_sample, rfl⟩ hi hr ?_
  rw [beatingPoll, beatingReads, ho]
  decide +kernel

end Peepbooth
