import Peepbooth.Producer
import Peepbooth.Watchdog
import Peepbooth.Schedule

/-! One heartbeat slot read while its channel is written. A writer raises the
sequence only after its two stores, so that two equal sequences around the other
loads do not rule out a heartbeat that is half done. -/

namespace Peepbooth

open Schedule ReadProgram

/-- The attempts of `read_heartbeat` that are left; the result says whether the
last attempt was accepted. -/
def heartbeatAttempts (index : Fin heartbeatChannelCount) (id : Channel) :
    Nat → HeartbeatSnapshot → Reads (Bool × HeartbeatSnapshot)
  | 0, result => pure (false, result)
  | attempts + 1, _ => do
    let before ← .read (.heartbeat index .before) (·.mem.heartbeats index |>.sequence)
    let active ← .read (.heartbeat index .active) (·.mem.heartbeats index |>.active)
    let timestampNs ← .read (.heartbeat index .timestampNs) (·.mem.heartbeats index |>.timestampNs)
    let after ← .read (.heartbeat index .after) (·.mem.heartbeats index |>.sequence)
    let result : HeartbeatSnapshot := ⟨id, active != 0, timestampNs, after⟩
    if before = after then pure (true, result) else heartbeatAttempts index id attempts result

def heartbeatRead (index : Fin heartbeatChannelCount) : Reads (Bool × HeartbeatSnapshot) :=
  let id : Channel := ⟨index.val.toUInt8 + 1⟩
  heartbeatAttempts index id 3 { id := id }

theorem heartbeatAttempts_snd (index : Fin heartbeatChannelCount) (id : Channel) (attempts : Nat)
    (result : HeartbeatSnapshot) :
    ((heartbeatAttempts index id attempts result).bind fun a => .done a.2) =
      readHeartbeatAttempts index id attempts result := by
  induction attempts generalizing result with
  | zero => rfl
  | succ attempts ih =>
    simp only [heartbeatAttempts, readHeartbeatAttempts, bind_eq, read_bind, pure_eq,
      ReadProgram.bind]
    congr 1
    funext w₀
    congr 1
    funext w₁
    congr 1
    funext w₂
    congr 1
    funext w₃
    split
    · rfl
    · exact ih _

/-- The next access raises the sequence of the slot. -/
def Pc.raises (index : Fin heartbeatChannelCount) : Pc → Bool
  | .addSequence j _ => j = index
  | _ => false

/-- An access as one slot sees it: a store of the timestamp, a raise of the sequence,
or neither. -/
theorem Pc.step_slot (index : Fin heartbeatChannelCount) (pc : Pc) (spurious : Bool)
    (s : Shared) :
    let r := pc.step spurious s
    let slot := s.mem.heartbeats index
    (∃ now, pc = .storeTimestamp index now ∧ r.1 = .addSequence index now ∧
      r.2.mem.heartbeats index = { slot with timestampNs := now }) ∨
    (∃ now, pc = .addSequence index now ∧ r.1 = .idle ∧
      r.2.mem.heartbeats index = { slot with sequence := slot.sequence + 1 }) ∨
    (∀ now, pc ≠ .storeTimestamp index now) ∧ (∀ now, pc ≠ .addSequence index now) ∧
      (∀ now, r.1 ≠ .addSequence index now) ∧
      (r.2.mem.heartbeats index).timestampNs = slot.timestampNs ∧
      (r.2.mem.heartbeats index).sequence = slot.sequence := by
  cases pc with
  | storeTimestamp j now =>
    by_cases hj : j = index
    · subst hj
      exact .inl ⟨now, rfl, rfl, by simp [step, Shared.setMem, SharedState.setHeartbeat]⟩
    · refine .inr (.inr ⟨?_, ?_, ?_, ?_, ?_⟩) <;>
        simp [step, Shared.setMem, SharedState.setHeartbeat, hj, Ne.symm hj]
  | addSequence j now =>
    by_cases hj : j = index
    · subst hj
      exact .inr (.inl ⟨now, rfl, rfl, by simp [step, Shared.setMem, SharedState.setHeartbeat]⟩)
    · refine .inr (.inr ⟨?_, ?_, ?_, ?_, ?_⟩) <;>
        simp [step, Shared.setMem, SharedState.setHeartbeat, hj, Ne.symm hj]
  | _ =>
    refine .inr (.inr ⟨by simp, by simp, fun now => ?_, ?_, ?_⟩) <;>
      simp only [step, admitted, tryNext, Shared.setMem, SharedState.setHeartbeat,
        SharedState.setBreadcrumb, Function.update_apply] <;>
      (repeat' split) <;> simp_all

/-- The history of one slot. Its timestamp stores are numbered from 1: `store` is the
last one of each thread, `raised` that of the heartbeat that raised the sequence last. -/
structure SlotLog where
  held : List HeartbeatSlot
  published : List UInt64 := []
  stores : Nat := 0
  store : Nat → Nat := fun _ => 0
  raised : Nat := 0
  before : UInt64 := 0
  settled : Bool := true

structure SlotRun extends Shared where
  thread : Nat → Pc
  reader : Reads (Bool × HeartbeatSnapshot)
  log : SlotLog

inductive SlotEvent
  | call (thread : Nat) (call : Call)
  | thread (thread : Nat) (spurious : Bool)
  | lease (present : UInt32) (untilNs : UInt64)
  | tick (now : UInt64)
  | read
  | load

variable (index : Fin heartbeatChannelCount)

def SlotLog.access (log : SlotLog) (i : Nat) : Pc → SlotLog
  | .storeTimestamp j _ =>
    if j = index then
      { log with
        stores := log.stores + 1, store := Function.update log.store i (log.stores + 1) }
    else log
  | .addSequence j now =>
    if j = index then { log with published := log.published ++ [now], raised := log.store i }
    else log
  | _ => log

/-- The history after a load of the reader: the sequence it loads first, and whether
its timestamp is that of the heartbeat that raised the sequence last. -/
def SlotLog.load (log : SlotLog) (slot : HeartbeatSlot) : Place → SlotLog
  | .heartbeat _ .before => { log with before := slot.sequence }
  | .heartbeat _ .timestampNs => { log with settled := log.raised = log.stores }
  | _ => log

namespace SlotRun

def slot (s : SlotRun) : HeartbeatSlot := s.mem.heartbeats index

def world (s : SlotRun) : World := ⟨s.mem, s.clock, ⟨none, none, false, false, false⟩⟩

def mark (place : Place) (s : SlotRun) : SlotRun :=
  { s with log := s.log.load (s.slot index) place }

def stepThread (s : SlotRun) (i : Nat) (spurious : Bool) : SlotRun :=
  let r := (s.thread i).step spurious s.toShared
  { s with
    toShared := r.2
    thread := Function.update s.thread i r.1
    log := { s.log.access index i (s.thread i) with
      held := s.log.held ++ [r.2.mem.heartbeats index] } }

def step (s : SlotRun) : SlotEvent → SlotRun
  | .call i call =>
    if s.thread i = .idle then
      { s with thread := Function.update s.thread i (Pc.start call) }
    else s
  | .thread i spurious => s.stepThread index i spurious
  | .lease present untilNs =>
    { s with mem := { s.mem with watcherPresent := present, watcherLeaseUntilNs := untilNs } }
  | .tick now => if s.clock ≤ now then { s with clock := now } else s
  | .read => { s with reader := heartbeatRead index }
  | .load =>
    match s.reader with
    | .done _ => s
    | .load place next => { s.mark index place with reader := next s.world }

/-- What a slot held at one instant, as a snapshot shows it. -/
def Shows (snapshot : HeartbeatSnapshot) (slot : HeartbeatSlot) : Prop :=
  snapshot.active = (slot.active != 0) ∧ snapshot.timestampNs = slot.timestampNs ∧
    snapshot.sequence = slot.sequence

/-- The timestamp of a snapshot is that of the heartbeat that brought the sequence there. -/
def Published (published : List UInt64) (snapshot : HeartbeatSnapshot) : Prop :=
  if snapshot.sequence = 0 then snapshot.timestampNs = 0
  else published[snapshot.sequence.toNat - 1]? = some snapshot.timestampNs

instance (snapshot : HeartbeatSnapshot) (slot : HeartbeatSlot) : Decidable (Shows snapshot slot) :=
  inferInstanceAs (Decidable (_ ∧ _))

instance (published : List UInt64) (snapshot : HeartbeatSnapshot) :
    Decidable (Published published snapshot) :=
  inferInstanceAs (Decidable (if snapshot.sequence = 0 then snapshot.timestampNs = 0
    else published[snapshot.sequence.toNat - 1]? = some snapshot.timestampNs))

/-- What an accepted attempt may be relied on for. -/
def Sound (a : Bool × HeartbeatSnapshot) (s : SlotRun) : Prop :=
  a.1 = true → (∃ slot ∈ s.log.held, Shows a.2 slot) ∧ Published s.log.published a.2

def Consistent (s : SlotRun) : Prop := ∀ a, s.reader = .done a → Sound a s

def Accepts (s : SlotRun) (place : Place) : Prop :=
  place = .heartbeat index .after ∧ (s.slot index).sequence = s.log.before

/-- No attempt is accepted that loaded the timestamp of a heartbeat other than the
one that had raised the sequence last, and the sequence does not wrap. -/
def Undisturbed (s : SlotRun) : SlotEvent → Prop
  | .thread i _ => (s.thread i).raises index = true → s.log.published.length + 1 < 2 ^ 64
  | .load => ∀ place ∈ s.reader.place, s.Accepts index place → s.log.settled = true
  | _ => True

instance (s : SlotRun) (place : Place) : Decidable (s.Accepts index place) :=
  inferInstanceAs (Decidable (_ ∧ _))

instance (s : SlotRun) : ∀ e, Decidable (s.Undisturbed index e)
  | .thread _ _ => inferInstanceAs (Decidable (_ → _))
  | .load =>
    inferInstanceAs (Decidable (∀ place ∈ s.reader.place, s.Accepts index place →
      s.log.settled = true))
  | .call _ _ | .lease _ _ | .tick _ | .read => isTrue trivial

/-- What the history says of the slot between two steps. -/
structure Inv (s : SlotRun) : Prop where
  held : s.slot index ∈ s.log.held
  sequence : (s.slot index).sequence = UInt64.ofNat s.log.published.length
  bound : s.log.published.length < 2 ^ 64
  raised : s.log.raised ≤ s.log.stores
  stamp : s.log.raised = s.log.stores →
    (s.slot index).timestampNs = s.log.published.getLast?.getD 0
  carried : ∀ i now, s.thread i = .addSequence index now → s.log.store i ≤ s.log.stores ∧
    (s.log.store i = s.log.stores → (s.slot index).timestampNs = now)

/-- What writers and loads leave as it is, or only add to. -/
structure Grows (s t : SlotRun) : Prop where
  held : s.log.held <+: t.log.held
  published : s.log.published <+: t.log.published
  raised : s.log.published = t.log.published → s.log.raised = t.log.raised
  stores : s.log.stores ≤ t.log.stores
  timestampNs : s.log.stores = t.log.stores →
    (s.slot index).timestampNs = (t.slot index).timestampNs

/-- What the writers do between two loads. -/
structure Later (s t : SlotRun) : Prop extends Grows index s t where
  before : t.log.before = s.log.before
  settled : t.log.settled = s.log.settled

variable {index} {s t u : SlotRun}

theorem Grows.trans (h : Grows index s t) (h' : Grows index t u) : Grows index s u where
  held := h.held.trans h'.held
  published := h.published.trans h'.published
  raised he := by
    have hst : s.log.published = t.log.published :=
      h.published.eq_of_length_le (by rw [he]; exact h'.published.length_le)
    exact (h.raised hst).trans (h'.raised (hst.symm.trans he))
  stores := h.stores.trans h'.stores
  timestampNs he := by
    have hst := h.stores.antisymm (he ▸ h'.stores)
    exact (h.timestampNs hst).trans (h'.timestampNs (hst.symm.trans he))

theorem Later.refl (s : SlotRun) : Later index s s :=
  ⟨⟨List.prefix_rfl, List.prefix_rfl, fun _ => rfl, le_rfl, fun _ => rfl⟩, rfl, rfl⟩

theorem Later.trans (h : Later index s t) (h' : Later index t u) : Later index s u :=
  ⟨h.toGrows.trans h'.toGrows, h'.before.trans h.before, h'.settled.trans h.settled⟩

theorem Later.of_eq (hl : t.log = s.log) (hs : t.slot index = s.slot index) :
    Later index s t := by
  refine ⟨⟨?_, ?_, fun _ => ?_, ?_, fun _ => ?_⟩, ?_, ?_⟩ <;> simp [hl, hs]

theorem Inv.of_eq (h : Inv index s) (hl : t.log = s.log) (hs : t.slot index = s.slot index)
    (ht : ∀ i now, t.thread i = .addSequence index now → s.thread i = .addSequence index now) :
    Inv index t := by
  refine ⟨?_, ?_, ?_, ?_, ?_, fun i now hi => ?_⟩ <;> rw [hl] <;> try rw [hs]
  · exact h.held
  · exact h.sequence
  · exact h.bound
  · exact h.raised
  · exact h.stamp
  · exact h.carried i now (ht i now hi)

section Thread

variable {i : Nat} {spurious : Bool} {now : UInt64}

theorem thread_stepThread_ne {k : Nat} (hk : k ≠ i) :
    (s.stepThread index i spurious).thread k = s.thread k := Function.update_of_ne hk _ _

theorem thread_stepThread_self :
    (s.stepThread index i spurious).thread i = ((s.thread i).step spurious s.toShared).1 :=
  Function.update_self ..

theorem Inv.storeTimestamp (h : Inv index s) (hpc : s.thread i = .storeTimestamp index now)
    (hr : ((s.thread i).step spurious s.toShared).1 = .addSequence index now)
    (hs : (s.stepThread index i spurious).slot index = { s.slot index with timestampNs := now }) :
    Inv index (s.stepThread index i spurious) ∧ Later index s (s.stepThread index i spurious) := by
  have hlog : (s.stepThread index i spurious).log = { s.log with
      held := s.log.held ++ [(s.stepThread index i spurious).slot index]
      stores := s.log.stores + 1
      store := Function.update s.log.store i (s.log.stores + 1) } := by
    simp [stepThread, slot, hpc, SlotLog.access]
  have hraised := h.raised
  refine ⟨⟨?_, ?_, ?_, ?_, ?_, fun k now' hk => ?_⟩, ⟨⟨?_, ?_, fun _ => ?_, ?_, ?_⟩, ?_, ?_⟩⟩ <;>
    rw [hlog]
  · exact List.mem_append_right _ (List.mem_singleton_self _)
  · rw [hs]
    exact h.sequence
  · exact h.bound
  · exact hraised.trans (Nat.le_succ _)
  · intro he
    exact absurd hraised (by rw [show s.log.raised = s.log.stores + 1 from he]; omega)
  · by_cases hki : k = i
    · subst hki
      rw [thread_stepThread_self, hr] at hk
      cases hk
      simp [hs]
    · have hle := (h.carried k now' (thread_stepThread_ne hki ▸ hk)).1
      simp only [Function.update_of_ne hki]
      exact ⟨hle.trans (Nat.le_succ _), fun he => absurd hle (by omega)⟩
  · exact List.prefix_append _ _
  · exact Nat.le_succ _
  · intro he
    exact absurd he (by simp)

theorem Inv.addSequence (h : Inv index s) (hG : s.log.published.length + 1 < 2 ^ 64)
    (hpc : s.thread i = .addSequence index now)
    (hr : ((s.thread i).step spurious s.toShared).1 = .idle)
    (hs : (s.stepThread index i spurious).slot index =
      { s.slot index with sequence := (s.slot index).sequence + 1 }) :
    Inv index (s.stepThread index i spurious) ∧ Later index s (s.stepThread index i spurious) := by
  have hlog : (s.stepThread index i spurious).log = { s.log with
      held := s.log.held ++ [(s.stepThread index i spurious).slot index]
      published := s.log.published ++ [now]
      raised := s.log.store i } := by
    simp [stepThread, slot, hpc, SlotLog.access]
  obtain ⟨hle, hstamp⟩ := h.carried i now hpc
  refine ⟨⟨?_, ?_, ?_, ?_, ?_, fun k now' hk => ?_⟩,
    ⟨⟨?_, ?_, fun he => ?_, ?_, fun _ => by rw [hs]⟩, ?_, ?_⟩⟩ <;> rw [hlog]
  · exact List.mem_append_right _ (List.mem_singleton_self _)
  · rw [hs, h.sequence, List.length_append, List.length_singleton, UInt64.ofNat_add]
    rfl
  · simpa using hG
  · exact hle
  · intro he
    simpa [hs] using hstamp he
  · by_cases hki : k = i
    · subst hki
      rw [thread_stepThread_self, hr] at hk
      cases hk
    · rw [hs]
      exact h.carried k now' (thread_stepThread_ne hki ▸ hk)
  · exact List.prefix_append _ _
  · exact List.prefix_append _ _
  · rw [hlog] at he
    exact absurd he (by simp)

theorem Inv.otherAccess (h : Inv index s) (hst : ∀ now, s.thread i ≠ .storeTimestamp index now)
    (has : ∀ now, s.thread i ≠ .addSequence index now)
    (hr : ∀ now, ((s.thread i).step spurious s.toShared).1 ≠ .addSequence index now)
    (hts : ((s.stepThread index i spurious).slot index).timestampNs = (s.slot index).timestampNs)
    (hsq : ((s.stepThread index i spurious).slot index).sequence = (s.slot index).sequence) :
    Inv index (s.stepThread index i spurious) ∧ Later index s (s.stepThread index i spurious) := by
  have haccess : s.log.access index i (s.thread i) = s.log := by
    cases hpc : s.thread i with
    | storeTimestamp j now => exact if_neg fun hj : j = index => hst now (hj ▸ hpc)
    | addSequence j now => exact if_neg fun hj : j = index => has now (hj ▸ hpc)
    | _ => rfl
  have hlog : (s.stepThread index i spurious).log = { s.log with
      held := s.log.held ++ [(s.stepThread index i spurious).slot index] } := by
    simp [stepThread, slot, haccess]
  refine ⟨⟨?_, ?_, ?_, ?_, ?_, fun k now' hk => ?_⟩,
    ⟨⟨?_, ?_, fun _ => ?_, ?_, fun _ => hts.symm⟩, ?_, ?_⟩⟩ <;> rw [hlog]
  · exact List.mem_append_right _ (List.mem_singleton_self _)
  · rw [hsq]
    exact h.sequence
  · exact h.bound
  · exact h.raised
  · rw [hts]
    exact h.stamp
  · have hki : k ≠ i := by
      rintro rfl
      exact hr now' (thread_stepThread_self ▸ hk)
    rw [hts]
    exact h.carried k now' (thread_stepThread_ne hki ▸ hk)
  · exact List.prefix_append _ _

theorem Inv.thread (h : Inv index s) (i : Nat) (spurious : Bool)
    (hG : (s.thread i).raises index = true → s.log.published.length + 1 < 2 ^ 64) :
    Inv index (s.stepThread index i spurious) ∧ Later index s (s.stepThread index i spurious) := by
  rcases Pc.step_slot index (s.thread i) spurious s.toShared with
    ⟨now, hpc, hr, hs⟩ | ⟨now, hpc, hr, hs⟩ | ⟨hst, has, hr, hts, hsq⟩
  · exact h.storeTimestamp hpc hr hs
  · exact h.addSequence (hG (by rw [hpc]; exact decide_eq_true rfl)) hpc hr hs
  · exact h.otherAccess hst has hr hts hsq

end Thread

theorem load_eq (s : SlotRun) (place : Place) :
    ∃ before settled, s.mark index place =
      { s with log := { s.log with before := before, settled := settled } } := by
  obtain ⟨before, settled, hl⟩ : ∃ before settled, s.log.load (s.slot index) place =
      { s.log with before := before, settled := settled } := by
    unfold SlotLog.load
    split <;> exact ⟨_, _, rfl⟩
  exact ⟨before, settled, by rw [mark, hl]⟩

theorem Inv.mark (h : Inv index s) (place : Place) : Inv index (s.mark index place) := by
  obtain ⟨before, settled, hm⟩ := s.load_eq place
  rw [hm]
  exact ⟨h.held, h.sequence, h.bound, h.raised, h.stamp, h.carried⟩

theorem grows_mark (s : SlotRun) (place : Place) : Grows index s (s.mark index place) := by
  obtain ⟨before, settled, hm⟩ := s.load_eq place
  rw [hm]
  exact ⟨List.prefix_rfl, List.prefix_rfl, fun _ => rfl, le_rfl, fun _ => rfl⟩

def rely (index : Fin heartbeatChannelCount) : Rely Place World SlotRun where
  view := world
  mark := mark index
  may place s := s.Accepts index place → s.log.settled = true
  inv := Inv index
  rel _ := Later index
  inv_mark place _ h := h.mark place
  refl _ s _ := Later.refl s
  trans := Later.trans

theorem Published.grows {snapshot : HeartbeatSnapshot} (h : Published s.log.published snapshot)
    (ht : Grows index s t) : Published t.log.published snapshot := by
  rw [Published] at h ⊢
  split at h
  · next h0 => rwa [if_pos h0]
  · next h0 =>
    rw [if_neg h0]
    obtain ⟨more, he⟩ := ht.published
    have hlt := (List.getElem?_eq_some_iff.mp h).1
    rw [← he, List.getElem?_append_left hlt]
    exact h

theorem Sound.grows {a : Bool × HeartbeatSnapshot} (h : Sound a s) (ht : Grows index s t) :
    Sound a t := by
  intro ha
  obtain ⟨⟨slot, hm, hs⟩, hp⟩ := h ha
  exact ⟨⟨slot, ht.held.subset hm, hs⟩, hp.grows ht⟩

theorem Grows.published_of_sequence (h : Grows index s t) (hs : Inv index s) (ht : Inv index t)
    (he : (s.slot index).sequence = (t.slot index).sequence) :
    s.log.published = t.log.published := by
  refine h.published.eq_of_length ?_
  have hh := congrArg UInt64.toNat ((hs.sequence.symm.trans he).trans ht.sequence)
  rwa [UInt64.toNat_ofNat_of_lt' hs.bound, UInt64.toNat_ofNat_of_lt' ht.bound] at hh

/-- The timestamp that was published last, under the sequence of a settled slot. -/
theorem Inv.published (h : Inv index s) (hr : s.log.raised = s.log.stores)
    {snapshot : HeartbeatSnapshot} (hq : snapshot.sequence = (s.slot index).sequence)
    (ht : snapshot.timestampNs = (s.slot index).timestampNs) :
    Published s.log.published snapshot := by
  have hn : snapshot.sequence.toNat = s.log.published.length := by
    rw [hq, h.sequence, UInt64.toNat_ofNat_of_lt' h.bound]
  rw [Published, ht, h.stamp hr]
  split
  · next h0 =>
    rw [h0] at hn
    rw [List.length_eq_zero_iff.mp hn.symm]
    rfl
  · next h0 =>
    have hne : s.log.published ≠ [] := by
      intro he
      rw [he] at hn
      exact h0 (UInt64.toNat_inj.mp hn)
    rw [hn, ← List.getLast?_eq_getElem?, List.getLast?_eq_some_getLast hne]
    rfl

/-- An accepted attempt: its loads at `t₀`, `t₁`, `t₂` and `t₃`, in this order. -/
theorem sound_of_settled {t₀ t₁ t₂ t₃ : SlotRun} (id : Channel) (i₀ : Inv index t₀)
    (i₁ : Inv index t₁) (i₂ : Inv index t₂) (i₃ : Inv index t₃) (h₁ : Grows index t₀ t₁)
    (h₂ : Grows index t₁ t₂) (h₃ : Grows index t₂ t₃)
    (he : (t₀.slot index).sequence = (t₃.slot index).sequence)
    (hr : t₂.log.raised = t₂.log.stores) :
    Sound (true, ⟨id, (t₁.slot index).active != 0, (t₂.slot index).timestampNs,
      (t₃.slot index).sequence⟩) t₃ := by
  have h₀₃ := ((h₁.trans h₂).trans h₃).published_of_sequence i₀ i₃ he
  have hp₁ : t₁.log.published = t₃.log.published :=
    (h₂.trans h₃).published.eq_of_length_le (h₀₃ ▸ h₁.published.length_le)
  have hp₂ : t₂.log.published = t₃.log.published :=
    h₃.published.eq_of_length_le (h₀₃ ▸ (h₁.trans h₂).published.length_le)
  have hq : ∀ {u}, Inv index u → u.log.published = t₃.log.published →
      (t₃.slot index).sequence = (u.slot index).sequence := fun hu hp => by
    rw [hu.sequence, hp, i₃.sequence]
  -- no timestamp has been stored since the active flag was loaded
  have hstores : t₁.log.stores = t₂.log.stores := by
    have hraised := h₂.raised (hp₁.trans hp₂.symm)
    have hle := i₁.raised
    exact h₂.stores.antisymm (by omega)
  intro _
  refine ⟨⟨t₁.slot index, (h₂.trans h₃).held.subset i₁.held, rfl, ?_, hq i₁ hp₁⟩, ?_⟩
  · exact (h₂.timestampNs hstores).symm
  · rw [← hp₂]
    exact i₂.published hr (hq i₂ hp₂) rfl

theorem heartbeatAttempts_succ (id : Channel) (attempts : Nat) (result : HeartbeatSnapshot) :
    heartbeatAttempts index id (attempts + 1) result =
      .load (.heartbeat index .before) fun w₀ =>
      .load (.heartbeat index .active) fun w₁ =>
      .load (.heartbeat index .timestampNs) fun w₂ =>
      .load (.heartbeat index .after) fun w₃ =>
        let result : HeartbeatSnapshot := ⟨id, (w₁.mem.heartbeats index).active != 0,
          (w₂.mem.heartbeats index).timestampNs, (w₃.mem.heartbeats index).sequence⟩
        if (w₀.mem.heartbeats index).sequence = (w₃.mem.heartbeats index).sequence then
          .done (true, result)
        else heartbeatAttempts index id attempts result := rfl

theorem heartbeatAttempts_safe (id : Channel) (attempts : Nat) (result : HeartbeatSnapshot)
    (s : SlotRun) : Safe (rely index) Sound (heartbeatAttempts index id attempts result) s := by
  induction attempts generalizing result s with
  | zero => exact fun t _ _ h => by cases h
  | succ attempts ih =>
    rw [heartbeatAttempts_succ]
    intro t₀ i₀ _ _ t₁ i₁ h₁ _ t₂ i₂ h₂ _ t₃ i₃ h₃ hm
    dsimp only
    split
    · next he =>
      -- the guard at the last load speaks of what the loads before it have marked
      have hbefore : t₃.log.before = (t₀.slot index).sequence :=
        ((h₃.before.trans h₂.before).trans h₁.before)
      have hsettled : t₃.log.settled = decide (t₂.log.raised = t₂.log.stores) := h₃.settled
      have hr : t₂.log.raised = t₂.log.stores :=
        of_decide_eq_true (hsettled ▸ hm ⟨rfl, he.symm.trans hbefore.symm⟩)
      have hsound := sound_of_settled id i₀ i₁ i₂ i₃ ((grows_mark t₀ _).trans h₁.toGrows)
        h₂.toGrows ((grows_mark t₂ _).trans h₃.toGrows) he hr
      exact safe_done (fun t ht hq => hq.grows ht.toGrows) hsound
    · exact ih _ _

def Reading (index : Fin heartbeatChannelCount) (s : SlotRun) : Prop :=
  Inv index s ∧ Safe (rely index) Sound s.reader s

theorem Reading.step {e : SlotEvent} (h : Reading index s) (hG : s.Undisturbed index e) :
    Reading index (s.step index e) := by
  obtain ⟨hi, hr⟩ := h
  have hwrite : ∀ {t}, Inv index t → Later index s t → t.reader = s.reader → Reading index t :=
    fun ht hl he => ⟨ht, he ▸ hr.trans hl⟩
  have hsame : ∀ {t : SlotRun}, t.log = s.log → t.slot index = s.slot index →
      (∀ i now, t.thread i = .addSequence index now → s.thread i = .addSequence index now) →
      t.reader = s.reader → Reading index t :=
    fun hl hs ht he => hwrite (hi.of_eq hl hs ht) (.of_eq hl hs) he
  cases e with
  | call i call =>
    simp only [SlotRun.step]
    split
    · refine hsame rfl rfl (fun k now hk => ?_) rfl
      by_cases hki : k = i
      · subst hki
        simp only [Function.update_self] at hk
        cases call <;> cases hk
      · simpa [hki] using hk
    · exact ⟨hi, hr⟩
  | thread i spurious =>
    obtain ⟨ht, hl⟩ := hi.thread i spurious hG
    exact hwrite ht hl rfl
  | lease present untilNs => exact hsame rfl rfl (fun _ _ h => h) rfl
  | tick now =>
    simp only [SlotRun.step]
    split
    · exact hsame rfl rfl (fun _ _ h => h) rfl
    · exact ⟨hi, hr⟩
  | read =>
    exact ⟨hi.of_eq rfl rfl fun _ _ h => h, heartbeatAttempts_safe _ _ _ _⟩
  | load =>
    cases hp : s.reader with
    | done a =>
      have hs : s.step index .load = s := by simp only [SlotRun.step, hp]
      rw [hs]
      exact ⟨hi, hr⟩
    | load place next =>
      have hs : s.step index .load = { s.mark index place with reader := next s.world } := by
        simp only [SlotRun.step, hp]
      have hm : (rely index).may place s := hG place (by rw [hp]; rfl)
      rw [hp] at hr
      have hnext := hr.load hi hm
      rw [hs]
      exact ⟨(hi.mark place).of_eq rfl rfl fun _ _ h => h, hnext.trans (.of_eq rfl rfl)⟩

def started (index : Fin heartbeatChannelCount) (mem : SharedState)
    (next : Fin heartbeatChannelCount → UInt64) (clock : UInt64) : SlotRun where
  state := true
  mapped := true
  mutex := none
  mem := mem
  nextHeartbeatNs := next
  clock := clock
  thread := fun _ => .idle
  reader := .done (false, {})
  log := { held := [mem.heartbeats index] }

theorem reading_started {mem : SharedState} (h : mem.Fresh)
    (next : Fin heartbeatChannelCount → UInt64) (clock : UInt64) :
    Reading index (started index mem next clock) := by
  have hslot : (started index mem next clock).slot index = {} := h.heartbeats index
  refine ⟨⟨List.mem_singleton_self _, ?_, Nat.two_pow_pos 64, le_rfl, fun _ => ?_,
    fun i now hi => ?_⟩, ?_⟩
  · rw [hslot]
    rfl
  · rw [hslot]
    rfl
  · cases hi
  · exact fun t _ _ ht => by cases ht

/-- Whatever the order of the steps, an accepted attempt shows what the slot held at
one instant, with the timestamp published for its sequence, as long as the guard is met. -/
theorem consistent_of_undisturbed {mem : SharedState} (h : mem.Fresh)
    (next : Fin heartbeatChannelCount → UInt64) (clock : UInt64) {es : List SlotEvent}
    (hG : Permits (step index) (Undisturbed index) (started index mem next clock) es) :
    Always (step index) Consistent (started index mem next clock) es := by
  refine (always_of_permits (fun s e => Reading.step) (reading_started h next clock) hG).imp ?_
  intro s hs a ha
  have hr := hs.2
  rw [ha] at hr
  exact hr.result hs.1

/-- A heartbeat of the first channel at 5 ns up to its `n`-th access. -/
def beating (n : Nat) : List SlotEvent :=
  [.lease 1 9000000000, .tick 5, .call 0 (.heartbeat .main)] ++ List.replicate n (.thread 0 false)

def fresh : SharedState := .createProcessMapping 7 1000 (some 100) []

/-- The heartbeat has stored `active` when a read begins, and stores the timestamp before the
last load of it. -/
def overlapped : List SlotEvent :=
  beating 9 ++ [.read, .load, .load, .load, .thread 0 false, .load]

/-- It raises the sequence in the first attempt of the next read. -/
def retried : List SlotEvent :=
  [.read, .load, .load, .thread 0 false] ++ List.replicate 6 .load

theorem consistent_of_undisturbed_overlapped :
    Always (step 0) Consistent (started 0 fresh (fun _ => 0) 0) (overlapped ++ retried) ∧
      (run (step 0) (started 0 fresh (fun _ => 0) 0) overlapped).reader =
        .done (true, ⟨.main, true, 0, 0⟩) ∧
      (run (step 0) (started 0 fresh (fun _ => 0) 0) (overlapped ++ retried)).reader =
        .done (true, ⟨.main, true, 5, 1⟩) :=
  ⟨consistent_of_undisturbed (SharedState.createProcessMapping_fresh ..) _ _ (by decide +kernel),
    rfl, rfl⟩

/-- A read around the two stores of a heartbeat that has not raised the sequence. Without its
flag it is `read_heartbeat`. -/
theorem accepts_half_done :
    let s := run (step 0) (started 0 fresh (fun _ => 0) 0)
      ([.read, .load, .load] ++ beating 10 ++ [.load, .load])
    let snapshot : HeartbeatSnapshot := ⟨.main, false, 5, 0⟩
    s.reader = .done (true, snapshot) ∧ (∀ slot ∈ s.log.held, ¬Shows snapshot slot) ∧
      ¬Published s.log.published snapshot ∧
      ((heartbeatRead 0).bind fun a => .done a.2) = readHeartbeat 0 := by
  refine ⟨rfl, ?_, ?_, heartbeatAttempts_snd ..⟩ <;> decide +kernel

end SlotRun

end Peepbooth
