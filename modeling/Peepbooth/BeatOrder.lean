import Peepbooth.Winners
import Peepbooth.Watchdog

/-! The time that a slot shows while threads beat its channel and a watcher takes one
snapshot after the other. The exchange puts the winners in order, but a winner may be
held up before it stores its timestamp, and the store asks for nothing. -/

namespace Peepbooth

open Schedule ReadProgram

def WatchdogSnapshot.heartbeat (w : WatchdogSnapshot) (index : Fin heartbeatChannelCount) :
    HeartbeatSnapshot :=
  w.heartbeats[index.val]?.getD {}

/-- `shown` are the snapshots that have been taken, the oldest first. -/
structure WatchedRun (n : Nat) extends BeatRun n where
  reader : Reads WatchdogSnapshot
  shown : List WatchdogSnapshot

inductive WatchedEvent (n : Nat)
  | beat (e : BeatEvent n)
  | snapshot
  | load

def WatchedEvent.Bounded {n : Nat} : WatchedEvent n → Prop
  | .beat e => e.Bounded
  | _ => True

/-- What the clock shows at an access. -/
def WatchedEvent.clock {n : Nat} : WatchedEvent n → Option UInt64
  | .beat (.access _ _ now) => some now
  | _ => none

namespace WatchedRun

variable {n : Nat} {index : Fin heartbeatChannelCount}

def taken : Reads WatchdogSnapshot → Option WatchdogSnapshot
  | .done w => some w
  | .load .. => none

def world (s : WatchedRun n) : World := ⟨s.mem, s.clock, ⟨none, none, false, false, false⟩⟩

def step (s : WatchedRun n) : WatchedEvent n → WatchedRun n
  | .beat e => { s with toBeatRun := s.toBeatRun.step e }
  | .snapshot => { s with reader := Peepbooth.snapshot }
  | .load =>
    match s.reader with
    | .done _ => s
    | .load _ next =>
      { s with reader := next s.world, shown := s.shown ++ (taken (next s.world)).toList }

def started (n : Nat) (mem : SharedState) : WatchedRun n where
  toBeatRun := .started n mem
  reader := .done {}
  shown := []

/-- The time that the slot of the channel shows. -/
def stamp (index : Fin heartbeatChannelCount) (s : WatchedRun n) : UInt64 :=
  (s.slot index).timestampNs

/-- The step does not take the time of the slot back. -/
def Forward (index : Fin heartbeatChannelCount) (s : WatchedRun n) (e : WatchedEvent n) : Prop :=
  s.stamp index ≤ (s.step e).stamp index

/-- No snapshot shows an older time than an earlier one with a larger or equal sequence. -/
def InOrder (index : Fin heartbeatChannelCount) (s : WatchedRun n) : Prop :=
  s.shown.Pairwise fun a b => ¬((b.heartbeat index).timestampNs < (a.heartbeat index).timestampNs ∧
    (a.heartbeat index).sequence ≤ (b.heartbeat index).sequence)

/-- The timestamp of a thread is stored before any that was read off the clock later. -/
def Latest (index : Fin heartbeatChannelCount) (s : WatchedRun n) : WatchedEvent n → Prop
  | .beat (.access i _ _) =>
    ∀ p ∈ (s.thread i).publishing index, p.1 = .timestampNs →
      ∀ a ∈ s.log.stored .timestampNs index, a.2 ≤ p.2
  | _ => True

/-- The timestamp of a winner is stored before that of any later winner. -/
def Unovertaken (index : Fin heartbeatChannelCount) (s : WatchedRun n) : WatchedEvent n → Prop
  | .beat (.access i _ _) =>
    ∀ p ∈ (s.thread i).publishing index, p.1 = .timestampNs →
      ∀ earlier later, s.log.wins index = earlier ++ (i, p.2) :: later →
        ∀ a ∈ later, a ∉ s.log.stored .timestampNs index
  | _ => True

instance (s : WatchedRun n) (e : WatchedEvent n) : Decidable (Forward index s e) :=
  inferInstanceAs (Decidable (_ ≤ _))

instance (s : WatchedRun n) : Decidable (InOrder index s) :=
  inferInstanceAs (Decidable (List.Pairwise _ _))

instance (s : WatchedRun n) : ∀ e, Decidable (Latest index s e)
  | .beat (.access i _ _) =>
    have (p : BeatStore × UInt64) :
        Decidable (∀ a ∈ s.log.stored .timestampNs index, a.2 ≤ p.2) := List.decidableBAll _ _
    Option.decidableForallMem ((s.thread i).publishing index)
  | .beat (.call _ _) | .beat (.lease _ _) | .snapshot | .load => isTrue trivial

variable {s t : WatchedRun n}

/-- What the slot shows is the timestamp that was stored last, and the latest. -/
structure Stamped (index : Fin heartbeatChannelCount) (s : BeatRun n) : Prop where
  beating : BeatRun.Beating s
  last : (s.slot index).timestampNs =
    ((s.log.stored .timestampNs index).getLast?.map Prod.snd).getD 0
  latest : ∀ a ∈ s.log.stored .timestampNs index, a.2 ≤ (s.slot index).timestampNs

theorem stamp_access {s : BeatRun n} (h : BeatRun.Beating s) (index : Fin heartbeatChannelCount)
    (i : Fin n) (spurious : Bool) (clock : UInt64) :
    let t := s.access i spurious clock
    (∃ now, (s.thread i).publishing index = some (.timestampNs, now) ∧
      (t.slot index).timestampNs = now ∧
      t.log.stored .timestampNs index = s.log.stored .timestampNs index ++ [(i, now)]) ∨
    (∀ now, (s.thread i).publishing index ≠ some (.timestampNs, now)) ∧
      (t.slot index).timestampNs = (s.slot index).timestampNs ∧
      t.log.stored .timestampNs index = s.log.stored .timestampNs index := by
  obtain ⟨value, hv, -⟩ := h i
  rcases BeatRun.access_cases hv index spurious clock with
    ⟨now, hw⟩ | ⟨w, now, hs⟩ | hk
  · refine .inr ⟨fun later => ?_, by rw [hw.slot], hw.stored _⟩
    rw [hw.before]
    simp [Pc.publishing]
  · by_cases hw : w = .timestampNs
    · subst hw
      exact .inl ⟨now, hs.before, by rw [hs.slot]; rfl, by simpa using hs.stored .timestampNs⟩
    · refine .inr ⟨fun later => ?_, ?_, by simpa [Ne.symm hw] using hs.stored .timestampNs⟩
      · rw [hs.before]
        simp [hw]
      · rw [hs.slot]
        cases w with
        | timestampNs => exact absurd rfl hw
        | _ => rfl
  · refine .inr ⟨fun later => ?_, by rw [hk.slot], hk.stored _⟩
    rw [hk.before]
    simp

/-- The only step that moves the time of a slot, with what it does to it. -/
theorem stamp_step (h : BeatRun.Beating s.toBeatRun) (index : Fin heartbeatChannelCount)
    (e : WatchedEvent n) :
    (∃ i spurious clock now, e = .beat (.access i spurious clock) ∧
      (s.thread i).publishing index = some (.timestampNs, now) ∧
      (s.step e).stamp index = now ∧ (s.step e).log.stored .timestampNs index =
        s.log.stored .timestampNs index ++ [(i, now)]) ∨
    Latest index s e ∧ Unovertaken index s e ∧ (s.step e).stamp index = s.stamp index ∧
      (s.step e).log.stored .timestampNs index = s.log.stored .timestampNs index := by
  match e with
  | .beat (.access i spurious clock) =>
    rcases stamp_access h index i spurious clock with ⟨now, hp, hs, hl⟩ | ⟨hp, hs, hl⟩
    · exact .inl ⟨i, spurious, clock, now, rfl, hp, hs, hl⟩
    · have hne (p : BeatStore × UInt64) (hn : p ∈ (s.thread i).publishing index) :
          p.1 ≠ .timestampNs := fun he => hp p.2 (he ▸ hn)
      exact .inr ⟨fun p hn he => absurd he (hne p hn), fun p hn he => absurd he (hne p hn), hs, hl⟩
  | .beat (.call i value) =>
    refine .inr ⟨trivial, trivial, ?_⟩
    simp only [stamp, BeatRun.slot, step, BeatRun.step]
    split <;> exact ⟨rfl, rfl⟩
  | .beat (.lease present untilNs) => exact .inr ⟨trivial, trivial, rfl, rfl⟩
  | .snapshot => exact .inr ⟨trivial, trivial, rfl, rfl⟩
  | .load =>
    refine .inr ⟨trivial, trivial, ?_⟩
    simp only [stamp, BeatRun.slot, step]
    split <;> exact ⟨rfl, rfl⟩

theorem beating_step (h : BeatRun.Beating s.toBeatRun) (e : WatchedEvent n) :
    BeatRun.Beating (s.step e).toBeatRun := by
  cases e with
  | beat e => exact h.step e
  | snapshot => exact h
  | load =>
    simp only [step]
    split <;> exact h

theorem Stamped.forward_iff (h : Stamped index s.toBeatRun) (e : WatchedEvent n) :
    Forward index s e ↔ Latest index s e := by
  rcases stamp_step h.beating index e with
    ⟨i, spurious, clock, now, rfl, hp, hs, -⟩ | ⟨hl, -, hs, -⟩
  · rw [Forward, hs]
    constructor
    · intro hle p hn _ a ha
      obtain rfl := Option.some.inj (hp.symm.trans hn)
      exact UInt64.le_trans (h.latest a ha) hle
    · intro hl
      -- the slot shows the timestamp that was stored last, or none has been stored
      rw [stamp, h.last]
      cases hlast : (s.log.stored .timestampNs index).getLast? with
      | none => exact UInt64.zero_le
      | some a => exact hl _ hp rfl a (List.mem_of_getLast? hlast)
  · exact iff_of_true (by rw [Forward, hs]; exact UInt64.le_refl _) hl

theorem Stamped.step (h : Stamped index s.toBeatRun) {e : WatchedEvent n}
    (hl : Latest index s e) : Stamped index (s.step e).toBeatRun := by
  have hf := (h.forward_iff e).mpr hl
  have hb := beating_step h.beating e
  rcases stamp_step h.beating index e with
    ⟨i, spurious, clock, now, rfl, hp, hs, hst⟩ | ⟨-, -, hs, hst⟩
  · refine ⟨hb, ?_, ?_⟩
    · rw [hst, List.getLast?_concat]
      exact hs
    · rw [hst]
      intro a ha
      rcases List.mem_append.mp ha with ha | ha
      · exact UInt64.le_trans (h.latest a ha) hf
      · rw [List.mem_singleton.mp ha]
        exact UInt64.le_of_eq hs.symm
  · refine ⟨hb, ?_, ?_⟩
    · rw [hst]
      exact hs.trans h.last
    · rw [hst]
      exact fun a ha => UInt64.le_trans (h.latest a ha) hf

/-- A time that is no older than any shown, and no later than the slot shows. -/
structure Between (index : Fin heartbeatChannelCount) (time : UInt64) (s : WatchedRun n) :
    Prop where
  shown : ∀ w ∈ s.shown, (w.heartbeat index).timestampNs ≤ time
  stamp : time ≤ s.stamp index

def rely (index : Fin heartbeatChannelCount) : Rely Place World (WatchedRun n) where
  view := world
  mark _ s := s
  may _ _ := True
  inv s := Between index (s.stamp index) s
  rel _ s t := t.shown = s.shown ∧ s.stamp index ≤ t.stamp index
  inv_mark _ _ h := h
  refl _ _ _ := ⟨rfl, UInt64.le_refl _⟩
  trans h h' := ⟨h'.1.trans h.1, UInt64.le_trans h.2 h'.2⟩

@[simp] theorem rely_view (s : WatchedRun n) : (rely index).view s = s.world := rfl

@[simp] theorem rely_mark (place : Place) (s : WatchedRun n) :
    (rely index).mark place s = s := rfl

@[simp] theorem world_mem (s : WatchedRun n) : s.world.mem = s.mem := rfl

theorem Between.mono {time : UInt64} (h : Between index time s) (hs : t.shown = s.shown)
    (ht : s.stamp index ≤ t.stamp index) : Between index time t :=
  ⟨hs ▸ h.shown, UInt64.le_trans h.stamp ht⟩

theorem readHeartbeatAttempts_between (id : Channel) {attempts : Nat}
    {result : HeartbeatSnapshot} (h : attempts = 0 → Between index result.timestampNs s) :
    Safe (rely index) (fun a => Between index a.timestampNs)
      (readHeartbeatAttempts index id attempts result) s := by
  induction attempts generalizing result s with
  | zero => exact safe_done (fun _ hr hb => hb.mono hr.1 hr.2) (h rfl)
  | succ attempts ih =>
    intro u₀ _ _ _ u₁ _ _ _ u₂ h₂ _ _ u₃ _ hr _
    let snapshot : HeartbeatSnapshot := ⟨id, (u₁.mem.heartbeats index).active != 0,
      (u₂.mem.heartbeats index).timestampNs, (u₃.mem.heartbeats index).sequence⟩
    have hb : Between index snapshot.timestampNs u₃ := h₂.mono hr.1 hr.2
    by_cases he : (u₀.mem.heartbeats index).sequence = (u₃.mem.heartbeats index).sequence
    · simpa [he] using safe_done (E := rely index)
        (Q := fun (a : HeartbeatSnapshot) => Between index a.timestampNs)
        (fun _ hr hb => hb.mono hr.1 hr.2) hb
    · simpa [he] using ih fun _ => hb

theorem readHeartbeat_between :
    Safe (rely index) (fun a => Between index a.timestampNs) (readHeartbeat index) s :=
  readHeartbeatAttempts_between _ (by simp)

theorem snapshot_between (hi : Between index (s.stamp index) s) :
    Safe (rely index) (fun w => Between index (w.heartbeat index).timestampNs)
      Peepbooth.snapshot s := by
  rw [snapshot_eq]
  intro u₀ _ _ _ u₁ h₁ _ _
  let Q (i : Fin heartbeatChannelCount) (a : HeartbeatSnapshot) (t : WatchedRun n) : Prop :=
    i = index → Between index a.timestampNs t
  refine Safe.bind h₁ (Safe.traverse (Q := Q) h₁ ?_ (fun _ _ _ _ hb => hb) ?_)
    fun hs u₂ h₂ hb => ?_
  · exact fun _ _ _ _ _ _ hr hb hi => (hb hi).mono hr.1 hr.2
  · intro i _ t ht
    by_cases hi : i = index
    · subst hi
      exact readHeartbeat_between.imp fun a t _ hb _ => hb
    · exact safe_of_forall fun a t _ he => absurd he hi
  · have hlen := hb.length_eq
    have hlt : index.val < hs.length := by
      rw [← hlen, List.length_finRange]
      exact index.isLt
    have hq := hb.get (by rw [List.length_finRange]; exact index.isLt) hlt (by simp)
    have hget : hs[index.val]?.getD {} = hs.get ⟨index.val, hlt⟩ := by simp [hlt]
    refine Safe.bind h₂ (Safe.keeps (K := Between index (hs.get ⟨index.val, hlt⟩).timestampNs)
      (fun _ _ _ _ hr hk => hk.mono hr.1 hr.2) (fun _ _ hk => hk) hq) fun items u₃ _ hk => ?_
    refine safe_done (fun _ hr hq => hq.mono hr.1 hr.2) ?_
    rw [WatchdogSnapshot.heartbeat, hget]
    exact hk

structure Watching (index : Fin heartbeatChannelCount) (s : WatchedRun n) : Prop where
  stamped : Stamped index s.toBeatRun
  shown : Between index (s.stamp index) s
  ordered : s.shown.Pairwise fun a b =>
    (a.heartbeat index).timestampNs ≤ (b.heartbeat index).timestampNs
  reading : Safe (rely index) (fun w => Between index (w.heartbeat index).timestampNs) s.reader s

theorem Watching.inOrder (h : Watching index s) : InOrder index s := by
  refine h.ordered.imp ?_
  rintro a b hle ⟨hlt, -⟩
  exact UInt64.not_lt.mpr hle hlt

theorem Watching.load (h : Watching index s) : Watching index (s.step .load) := by
  cases hr : s.reader with
  | done w => rwa [show s.step .load = s by simp only [step, hr]]
  | load place next =>
    have hs : s.step .load =
        { s with
          reader := next s.world
          shown := s.shown ++ (taken (next s.world)).toList } := by simp only [step, hr]
    have hread := h.reading
    rw [hr] at hread
    have hnext := hread.load h.shown trivial
    rw [rely_view, rely_mark] at hnext
    rw [hs]
    cases ht : next s.world with
    | load q rest =>
      rw [ht] at hnext
      have hsame : s.shown ++ (taken (.load q rest)).toList = s.shown := List.append_nil _
      rw [hsame]
      exact ⟨h.stamped, ⟨h.shown.shown, h.shown.stamp⟩, h.ordered,
        hnext.trans (E := rely index) ⟨rfl, UInt64.le_refl _⟩⟩
    | done w =>
      rw [ht] at hnext
      have hw := hnext.result h.shown
      refine ⟨h.stamped, ⟨fun a ha => ?_, UInt64.le_refl _⟩, ?_, ?_⟩
      · rcases List.mem_append.mp ha with ha | ha
        · exact h.shown.shown a ha
        · rw [List.mem_singleton.mp ha]
          exact hw.stamp
      · refine List.pairwise_append.mpr ⟨h.ordered, List.pairwise_singleton _ _, ?_⟩
        intro a ha b hb
        rw [List.mem_singleton.mp hb]
        exact hw.shown a ha
      · refine safe_done (fun _ hr hb => hb.mono hr.1 hr.2) ⟨fun a ha => ?_, hw.stamp⟩
        rcases List.mem_append.mp ha with ha | ha
        · exact hw.shown a ha
        · rw [List.mem_singleton.mp ha]
          exact UInt64.le_refl _

theorem Watching.step (h : Watching index s) {e : WatchedEvent n} (hl : Latest index s e) :
    Watching index (s.step e) := by
  cases e with
  | beat e =>
    have hle : s.stamp index ≤ (s.step (.beat e)).stamp index :=
      (h.stamped.forward_iff _).mpr hl
    refine ⟨h.stamped.step hl, ⟨fun w hw => ?_, UInt64.le_refl _⟩, h.ordered, ?_⟩
    · exact UInt64.le_trans (h.shown.shown w hw) hle
    · exact h.reading.trans (E := rely index) ⟨rfl, hle⟩
  | snapshot =>
    exact ⟨h.stamped, ⟨h.shown.shown, h.shown.stamp⟩, h.ordered,
      snapshot_between ⟨h.shown.shown, h.shown.stamp⟩⟩
  | load => exact h.load

theorem watching_started {mem : SharedState} (hf : mem.Fresh) (index : Fin heartbeatChannelCount) :
    Watching index (started n mem) where
  stamped :=
    { beating := (BeatRun.Limited.init hf index).beating
      last := by simp [started, BeatRun.slot, BeatRun.started, hf.heartbeats]
      latest := by simp [started, BeatRun.started] }
  shown := ⟨by simp [started], UInt64.le_refl _⟩
  ordered := List.Pairwise.nil
  reading := safe_done (fun _ hr hb => hb.mono hr.1 hr.2)
    ⟨by simp [started], by simp [WatchdogSnapshot.heartbeat]⟩

/-- While the deadline of the exchange does not wrap, the winners are in the order of
their clock readings. -/
theorem latest_iff_unovertaken (h : BeatRun.Limited index s.toBeatRun) (e : WatchedEvent n) :
    Latest index s e ↔ Unovertaken index s e := by
  match e with
  | .beat (.access i spurious clock) =>
    refine forall_congr' fun p => forall_congr' fun hp => forall_congr' fun hw => ?_
    have hspaced := h.spaced
    rw [BeatRun.Spaced] at hspaced
    constructor
    · intro hl earlier later hw a ha hst
      have hle := UInt64.le_iff_toNat_le.mp (hl a hst)
      rw [hw] at hspaced
      have hlt := (List.pairwise_cons.mp (List.pairwise_append.mp hspaced).2.1).1 a ha
      dsimp only at hlt
      omega
    · intro hu a hst
      obtain ⟨earlier, later, hw⟩ := List.append_of_mem (h.mem_wins hp)
      have ha := (h.published .timestampNs).mem_iff.mpr (List.mem_append_left _ hst)
      rw [hw] at ha hspaced
      rcases List.mem_append.mp ha with ha | ha
      · have hlt := (List.pairwise_append.mp hspaced).2.2 a ha _ List.mem_cons_self
        dsimp only at hlt
        rw [UInt64.le_iff_toNat_le]
        omega
      · rcases List.mem_cons.mp ha with rfl | ha
        · exact UInt64.le_refl _
        · exact absurd hst (hu earlier later hw a ha)
  | .beat (.call i value) => exact Iff.rfl
  | .beat (.lease present untilNs) => exact Iff.rfl
  | .snapshot => exact Iff.rfl
  | .load => exact Iff.rfl

theorem limited_step (h : BeatRun.Limited index s.toBeatRun) {e : WatchedEvent n}
    (he : e.Bounded) : BeatRun.Limited index (s.step e).toBeatRun := by
  cases e with
  | beat e => exact h.step he
  | snapshot => exact h
  | load =>
    simp only [step]
    split <;> exact h

/-- The time of a slot is never taken back, nor do successive snapshots show it so, just in
the runs where no thread stores its timestamp after one with a later reading. Short of the
wrap of the clock these are the runs where no winner stores it after a later winner. -/
theorem heartbeat_time_forward_iff (n : Nat) {mem : SharedState} (hf : mem.Fresh)
    (index : Fin heartbeatChannelCount) (es : List (WatchedEvent n)) :
    (Permits step (Forward index) (started n mem) es ∧
        Always step (InOrder index) (started n mem) es ↔
      Permits step (Latest index) (started n mem) es) ∧
    ((∀ e ∈ es, e.Bounded) →
      (Permits step (Latest index) (started n mem) es ↔
        Permits step (Unovertaken index) (started n mem) es)) := by
  have hw := watching_started (n := n) hf index
  have hiff : Permits step (Forward index) (started n mem) es ↔
      Permits step (Latest index) (started n mem) es :=
    permits_iff_permits (I := Watching index) (fun _ _ hs hl => hs.step hl)
      (fun _ e hs => hs.stamped.forward_iff e) hw
  refine ⟨⟨fun h => hiff.mp h.1, fun h => ⟨hiff.mpr h, ?_⟩⟩, fun hb => ?_⟩
  · exact (always_of_permits (fun _ _ hs hl => hs.step hl) hw h).imp fun _ hs => hs.inOrder
  · have hlim : Permits step (fun s _ => BeatRun.Limited index s.toBeatRun) (started n mem) es :=
      (permits_of_always (always_of_permits (I := fun s => BeatRun.Limited index s.toBeatRun)
        (fun _ _ hs he => limited_step hs he) (BeatRun.Limited.init hf index)
        (permits_of_forall fun e he _ => hb e he))).imp fun _ _ hs => hs.1
    exact ⟨fun h => (hlim.and h).imp fun _ e hs => (latest_iff_unovertaken hs.1 e).mp hs.2,
      fun h => (hlim.and h).imp fun _ e hs => (latest_iff_unovertaken hs.1 e).mpr hs.2⟩

/-- A thread that has won is held up for more than half a second before its stores. -/
def delayed (a b : Fin n) : List (WatchedEvent n) :=
  List.flatten [[.beat (.lease 1 9000000000), .beat (.call a .main), .beat (.call b .main)],
    List.replicate 9 (.beat (.access a false 1000000000)),
    List.replicate 11 (.beat (.access b false 1600000000)),
    .snapshot :: List.replicate 19 .load,
    List.replicate 2 (.beat (.access a false 1700000000)),
    .snapshot :: List.replicate 19 .load]

theorem time_taken_back :
    ((delayed (0 : Fin 2) 1).filterMap WatchedEvent.clock).Pairwise (· ≤ ·) ∧
      ¬Permits step (Forward 0) (started 2 {}) (delayed 0 1) ∧
      ¬InOrder 0 (run step (started 2 {}) (delayed 0 1)) := by
  refine ⟨?_, ?_, ?_⟩ <;> decide +kernel

/-- The same threads, none of them held up. -/
def prompt (a b : Fin n) : List (WatchedEvent n) :=
  List.flatten [[.beat (.lease 1 9000000000), .beat (.call a .main), .beat (.call b .main)],
    List.replicate 11 (.beat (.access a false 1000000000)),
    .snapshot :: List.replicate 19 .load,
    List.replicate 11 (.beat (.access b false 1600000000)),
    .snapshot :: List.replicate 19 .load]

theorem heartbeat_time_forward_iff_prompt :
    (Permits step (Forward 0) (started 2 {}) (prompt 0 1) ∧
        Always step (InOrder 0) (started 2 {}) (prompt 0 1)) ∧
      Permits step (Unovertaken 0) (started 2 {}) (prompt 0 1) := by
  have hl : Permits step (Latest 0) (started 2 {}) (prompt 0 1) := by decide +kernel
  have hf : SharedState.Fresh {} := ⟨rfl, rfl, rfl, fun _ => rfl, fun _ => rfl⟩
  have hiff := heartbeat_time_forward_iff 2 hf 0 (prompt 0 1)
  refine ⟨hiff.1.mpr hl, (hiff.2 ?_).mp hl⟩
  simp [prompt, WatchedEvent.Bounded, BeatEvent.Bounded]

end WatchedRun

end Peepbooth
