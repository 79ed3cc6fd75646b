import Peepbooth.Producer
import Peepbooth.Schedule
import Peepbooth.InHand

/-! Any number of threads that beat the channels of a started client, each access a
step. A thread that wins the exchange of a channel owes its slot three stores. -/

namespace Peepbooth

open Schedule InHand

/-- The stores of a heartbeat, in the order of the source. -/
inductive BeatStore
  | active
  | timestampNs
  | sequence
  deriving DecidableEq, Repr

namespace BeatStore

def rank : BeatStore → Nat
  | active => 0
  | timestampNs => 1
  | sequence => 2

def next : BeatStore → Option BeatStore
  | active => some timestampNs
  | timestampNs => some sequence
  | sequence => none

def apply (w : BeatStore) (now : UInt64) (slot : HeartbeatSlot) : HeartbeatSlot :=
  match w with
  | active => { slot with active := 1 }
  | timestampNs => { slot with timestampNs := now }
  | sequence => { slot with sequence := slot.sequence + 1 }

/-- A thread that makes the store next. -/
def pc (w : BeatStore) (index : Fin heartbeatChannelCount) (now : UInt64) : Pc :=
  match w with
  | active => .storeActive index now
  | timestampNs => .storeTimestamp index now
  | sequence => .addSequence index now

end BeatStore

namespace Pc

/-- The store a thread makes next in the slot of the channel, and its clock reading. -/
def publishing (index : Fin heartbeatChannelCount) : Pc → Option (BeatStore × UInt64)
  | storeActive j now => if j = index then some (.active, now) else none
  | storeTimestamp j now => if j = index then some (.timestampNs, now) else none
  | addSequence j now => if j = index then some (.sequence, now) else none
  | _ => none

/-- The reading of a thread that has still to make the store. -/
def owes (index : Fin heartbeatChannelCount) (w : BeatStore) (pc : Pc) : Option UInt64 :=
  (pc.publishing index).bind fun p => if p.1.rank ≤ w.rank then some p.2 else none

def reading : Pc → Option UInt64
  | reloadState _ now | reloadPresent _ now | loadLease _ now | loadNext _ now
  | exchangeNext _ now _ | storeActive _ now | storeTimestamp _ now | addSequence _ now => some now
  | _ => none

/-- Where a thread can be in a heartbeat of the channel. -/
def Beats (value : Channel) : Pc → Prop
  | idle | clearPresent => True
  | loadState work | loadPresent work | readClock work | reloadState work _
  | reloadPresent work _ | loadLease work _ => work = .heartbeat value
  | loadNext j _ | exchangeNext j _ _ | storeActive j _ | storeTimestamp j _
  | addSequence j _ => channelIndex value = j.val
  | _ => False

end Pc

/-- `calling` is the channel of a thread's last call, `wins` the threads that have won the
exchange of a channel with their readings, `stored` those that have made each store since. -/
structure BeatLog (n : Nat) where
  calling : Fin n → Option Channel := fun _ => none
  wins : Fin heartbeatChannelCount → List (Fin n × UInt64) := fun _ => []
  stored : BeatStore → Fin heartbeatChannelCount → List (Fin n × UInt64) := fun _ _ => []

structure BeatRun (n : Nat) extends Shared where
  thread : Fin n → Pc
  log : BeatLog n

/-- `now` is what the clock shows at an access. -/
inductive BeatEvent (n : Nat)
  | call (thread : Fin n) (value : Channel)
  | access (thread : Fin n) (spurious : Bool) (now : UInt64)
  | lease (present : UInt32) (untilNs : UInt64)

/-- The clock is 500 ms short of its wrap. -/
def BeatEvent.Bounded {n : Nat} : BeatEvent n → Prop
  | .access _ _ now => now.toNat + 500000000 < 2 ^ 64
  | _ => True

variable {n : Nat}

def BeatLog.store (log : BeatLog n) (i : Fin n) (w : BeatStore)
    (index : Fin heartbeatChannelCount) (now : UInt64) : BeatLog n :=
  { log with
    stored := Function.update log.stored w
      (Function.update (log.stored w) index (log.stored w index ++ [(i, now)])) }

/-- The history after an access of the thread that leads it from `pc` to `next`. -/
def BeatLog.access (log : BeatLog n) (i : Fin n) (pc next : Pc) : BeatLog n :=
  match pc, next with
  | .exchangeNext index now _, .storeActive _ _ =>
    { log with wins := Function.update log.wins index (log.wins index ++ [(i, now)]) }
  | .storeActive index now, _ => log.store i .active index now
  | .storeTimestamp index now, _ => log.store i .timestampNs index now
  | .addSequence index now, _ => log.store i .sequence index now
  | _, _ => log

namespace BeatRun

def slot (index : Fin heartbeatChannelCount) (s : BeatRun n) : HeartbeatSlot :=
  s.mem.heartbeats index

def sharedAt (s : BeatRun n) (now : UInt64) : Shared := { s.toShared with clock := now }

def access (s : BeatRun n) (i : Fin n) (spurious : Bool) (now : UInt64) : BeatRun n :=
  let r := (s.thread i).step spurious (s.sharedAt now)
  { toShared := r.2
    thread := Function.update s.thread i r.1
    log := s.log.access i (s.thread i) r.1 }

def step (s : BeatRun n) : BeatEvent n → BeatRun n
  | .call i value =>
    if s.thread i = .idle then
      { s with
        thread := Function.update s.thread i (Pc.start (.heartbeat value))
        log := { s.log with calling := Function.update s.log.calling i (some value) } }
    else s
  | .access i spurious now => s.access i spurious now
  | .lease present untilNs =>
    { s with mem := { s.mem with watcherPresent := present, watcherLeaseUntilNs := untilNs } }

/-- The winners of the channel that have still to make the store. -/
def owing (index : Fin heartbeatChannelCount) (w : BeatStore) (s : BeatRun n) :
    List (Fin n × UInt64) :=
  inHand fun i => ((s.thread i).owes index w).map (i, ·)

/-- The thread wins the exchange of the channel. -/
structure Won (index : Fin heartbeatChannelCount) (i : Fin n) (now : UInt64)
    (s t : BeatRun n) : Prop where
  before : s.thread i = .exchangeNext index now (s.nextHeartbeatNs index)
  after : (t.thread i).publishing index = some (.active, now)
  slot : t.slot index = s.slot index
  next : t.nextHeartbeatNs index = now + minimumIntervalNs
  wins : t.log.wins index = s.log.wins index ++ [(i, now)]
  stored : ∀ w, t.log.stored w index = s.log.stored w index

/-- The thread makes its next store in the slot. -/
structure Stored (index : Fin heartbeatChannelCount) (i : Fin n) (w : BeatStore) (now : UInt64)
    (s t : BeatRun n) : Prop where
  before : (s.thread i).publishing index = some (w, now)
  after : (t.thread i).publishing index = w.next.map (·, now)
  slot : t.slot index = w.apply now (s.slot index)
  next : t.nextHeartbeatNs index = s.nextHeartbeatNs index
  wins : t.log.wins index = s.log.wins index
  stored : ∀ v, t.log.stored v index =
    if v = w then s.log.stored v index ++ [(i, now)] else s.log.stored v index

/-- The access is none of the channel's business. -/
structure Kept (index : Fin heartbeatChannelCount) (i : Fin n) (s t : BeatRun n) : Prop where
  before : (s.thread i).publishing index = none
  after : (t.thread i).publishing index = none
  slot : t.slot index = s.slot index
  next : t.nextHeartbeatNs index = s.nextHeartbeatNs index
  wins : t.log.wins index = s.log.wins index
  stored : ∀ w, t.log.stored w index = s.log.stored w index

variable {s t : BeatRun n} {i : Fin n} {spurious : Bool} {clock now : UInt64} {value : Channel}
  {index : Fin heartbeatChannelCount}

theorem thread_access_self :
    (s.access i spurious clock).thread i =
      ((s.thread i).step spurious (s.sharedAt clock)).1 :=
  Function.update_self ..

theorem thread_access_ne {k : Fin n} (hk : k ≠ i) :
    (s.access i spurious clock).thread k = s.thread k := Function.update_of_ne hk _ _

theorem sharedAt_mem : (s.sharedAt clock).mem = s.mem := rfl

@[simp] theorem sharedAt_next : (s.sharedAt clock).nextHeartbeatNs = s.nextHeartbeatNs := rfl

theorem slot_access :
    (s.access i spurious clock).slot index =
      ((s.thread i).step spurious (s.sharedAt clock)).2.mem.heartbeats index := rfl

theorem next_access :
    (s.access i spurious clock).nextHeartbeatNs =
      ((s.thread i).step spurious (s.sharedAt clock)).2.nextHeartbeatNs := rfl

theorem log_access (s : BeatRun n) (i : Fin n) (spurious : Bool) (clock : UInt64) :
    (s.access i spurious clock).log =
      s.log.access i (s.thread i) ((s.access i spurious clock).thread i) := by
  rw [thread_access_self]
  rfl

theorem kept_of_step {pc next : Pc} (hpc : s.thread i = pc)
    (hnext : (s.access i spurious clock).thread i = next)
    (hb : pc.publishing index = none) (ha : next.publishing index = none)
    (hs : (s.access i spurious clock).slot index = s.slot index)
    (hn : (s.access i spurious clock).nextHeartbeatNs index = s.nextHeartbeatNs index)
    (hw : (s.log.access i pc next).wins index = s.log.wins index)
    (hl : ∀ w, (s.log.access i pc next).stored w index = s.log.stored w index) :
    Kept index i s (s.access i spurious clock) where
  before := hpc ▸ hb
  after := hnext ▸ ha
  slot := hs
  next := hn
  wins := by rw [log_access, hpc, hnext, hw]
  stored w := by rw [log_access, hpc, hnext, hl]

theorem access_won {j : Fin heartbeatChannelCount} {next : UInt64}
    (hpc : s.thread i = .exchangeNext j now next)
    (hx : s.nextHeartbeatNs j = next ∧ spurious = false) :
    (j = index ∧ Won index i now s (s.access i spurious clock)) ∨
      Kept index i s (s.access i spurious clock) := by
  have hstep : (s.thread i).step spurious (s.sharedAt clock) =
      (.storeActive j now, { s.sharedAt clock with
        nextHeartbeatNs := Function.update s.nextHeartbeatNs j (now + minimumIntervalNs) }) := by
    rw [hpc, Pc.step, sharedAt_next, if_pos hx]
  have hnext : (s.access i spurious clock).thread i = .storeActive j now := by
    rw [thread_access_self, hstep]
  have hslot : (s.access i spurious clock).slot index = s.slot index := by
    rw [slot_access, hstep]
    rfl
  have hlog := log_access s i spurious clock
  rw [hpc, hnext] at hlog
  by_cases hj : j = index
  · subst hj
    refine .inl ⟨rfl, ?_⟩
    constructor
    · rw [hpc, hx.1]
    · simp [hnext, Pc.publishing]
    · exact hslot
    · simp [next_access, hstep]
    · simp [hlog, BeatLog.access]
    · simp [hlog, BeatLog.access]
  · refine .inr (kept_of_step hpc hnext rfl ?_ hslot ?_ ?_ fun w => rfl)
    · simp [Pc.publishing, hj]
    · simp [next_access, hstep, Ne.symm hj]
    · simp [BeatLog.access, Ne.symm hj]

theorem access_lost {j : Fin heartbeatChannelCount} {next : UInt64}
    (hpc : s.thread i = .exchangeNext j now next)
    (hx : ¬(s.nextHeartbeatNs j = next ∧ spurious = false)) :
    Kept index i s (s.access i spurious clock) := by
  have hstep : (s.thread i).step spurious (s.sharedAt clock) =
      (Pc.tryNext j now (s.nextHeartbeatNs j), s.sharedAt clock) := by
    rw [hpc, Pc.step, sharedAt_next, if_neg hx]
  have hnext : (s.access i spurious clock).thread i = .idle ∨
      (s.access i spurious clock).thread i = .exchangeNext j now (s.nextHeartbeatNs j) := by
    rw [thread_access_self, hstep, Pc.tryNext]
    split
    · exact .inl rfl
    · exact .inr rfl
  have hs : (s.access i spurious clock).slot index = s.slot index := by
    rw [slot_access, hstep]
    rfl
  have hn : (s.access i spurious clock).nextHeartbeatNs index = s.nextHeartbeatNs index := by
    simp [next_access, hstep]
  rcases hnext with hnext | hnext
  · exact kept_of_step hpc hnext rfl rfl hs hn rfl fun w => rfl
  · exact kept_of_step hpc hnext rfl rfl hs hn rfl fun w => rfl

theorem access_exchange {j : Fin heartbeatChannelCount} {next : UInt64}
    (hpc : s.thread i = .exchangeNext j now next) :
    (j = index ∧ Won index i now s (s.access i spurious clock)) ∨
      Kept index i s (s.access i spurious clock) := by
  by_cases hx : s.nextHeartbeatNs j = next ∧ spurious = false
  · exact access_won hpc hx
  · exact .inr (access_lost hpc hx)

theorem publishing_pc (w : BeatStore) (j index : Fin heartbeatChannelCount) (now : UInt64) :
    (w.pc j now).publishing index = if j = index then some (w, now) else none := by
  cases w <;> rfl

theorem step_pc (w : BeatStore) (j : Fin heartbeatChannelCount) (now : UInt64) (spurious : Bool)
    (s : Shared) :
    (w.pc j now).step spurious s = ((w.next.map (·.pc j now)).getD .idle,
      s.setMem (s.mem.setHeartbeat j (w.apply now (s.mem.heartbeats j)))) := by
  cases w <;> rfl

theorem log_pc (log : BeatLog n) (i : Fin n) (w : BeatStore) (j : Fin heartbeatChannelCount)
    (now : UInt64) (next : Pc) : log.access i (w.pc j now) next = log.store i w j now := by
  cases w <;> rfl

theorem access_store {w : BeatStore} {j : Fin heartbeatChannelCount}
    (hpc : s.thread i = w.pc j now) :
    (j = index ∧ Stored index i w now s (s.access i spurious clock)) ∨
      Kept index i s (s.access i spurious clock) := by
  have hstep := step_pc w j now spurious (s.sharedAt clock)
  rw [← hpc] at hstep
  have hnext : (s.access i spurious clock).thread i = (w.next.map (·.pc j now)).getD .idle := by
    rw [thread_access_self, hstep]
  have hafter : ((s.access i spurious clock).thread i).publishing index =
      if j = index then w.next.map (·, now) else none := by
    rw [hnext]
    cases w with
    | sequence => simp [BeatStore.next, Pc.publishing]
    | _ => simp [BeatStore.next, publishing_pc]
  have hlog := log_access s i spurious clock
  rw [hpc, log_pc] at hlog
  by_cases hj : j = index
  · subst hj
    refine .inl ⟨rfl, ?_⟩
    constructor
    · rw [hpc, publishing_pc, if_pos rfl]
    · rw [hafter, if_pos rfl]
    · rw [slot_access, hstep]
      simp [Shared.setMem, SharedState.setHeartbeat, slot, sharedAt_mem]
    · simp [next_access, hstep, Shared.setMem]
    · simp [hlog, BeatLog.store]
    · intro v
      by_cases hv : v = w
      · subst hv
        simp [hlog, BeatLog.store]
      · simp [hlog, BeatLog.store, hv]
  · refine .inr ⟨?_, ?_, ?_, ?_, ?_, fun v => ?_⟩
    · rw [hpc, publishing_pc, if_neg hj]
    · rw [hafter, if_neg hj]
    · rw [slot_access, hstep]
      simp [Shared.setMem, SharedState.setHeartbeat, slot, sharedAt_mem, Ne.symm hj]
    · simp [next_access, hstep, Shared.setMem]
    · simp [hlog, BeatLog.store]
    · by_cases hv : v = w
      · subst hv
        simp [hlog, BeatLog.store, Ne.symm hj]
      · simp [hlog, BeatLog.store, hv]

theorem access_cases (h : (s.thread i).Beats value) (index : Fin heartbeatChannelCount)
    (spurious : Bool) (clock : UInt64) :
    (∃ now, Won index i now s (s.access i spurious clock)) ∨
      (∃ w now, Stored index i w now s (s.access i spurious clock)) ∨
        Kept index i s (s.access i spurious clock) := by
  cases hpc : s.thread i with
  | exchangeNext j now next =>
    rcases access_exchange hpc with ⟨-, hw⟩ | hk
    · exact .inl ⟨now, hw⟩
    · exact .inr (.inr hk)
  | storeActive j now =>
    rcases access_store (w := .active) hpc with ⟨-, hw⟩ | hk
    · exact .inr (.inl ⟨_, _, hw⟩)
    · exact .inr (.inr hk)
  | storeTimestamp j now =>
    rcases access_store (w := .timestampNs) hpc with ⟨-, hw⟩ | hk
    · exact .inr (.inl ⟨_, _, hw⟩)
    · exact .inr (.inr hk)
  | addSequence j now =>
    rcases access_store (w := .sequence) hpc with ⟨-, hw⟩ | hk
    · exact .inr (.inl ⟨_, _, hw⟩)
    · exact .inr (.inr hk)
  | setLoadState | setStoreActive | drawTicket | store =>
    rw [hpc] at h
    exact h.elim
  | _ =>
    refine .inr (.inr (kept_of_step hpc rfl rfl ?_ ?_ ?_ rfl fun w => rfl))
    · rw [thread_access_self, hpc]
      simp only [Pc.step, Pc.admitted, Pc.tryNext]
      repeat' split
      all_goals rfl
    · rw [slot_access, hpc]
      rfl
    · rw [next_access, hpc]
      rfl

theorem beats_step {pc : Pc} (h : pc.Beats value) (spurious : Bool) (s : Shared) :
    (pc.step spurious s).1.Beats value := by
  cases pc with
  | setLoadState | setStoreActive | drawTicket | store => exact h.elim
  | storeActive | storeTimestamp => exact h
  | idle | clearPresent | addSequence => trivial
  | readClock => exact h
  | loadState | loadPresent | reloadState | reloadPresent =>
    simp only [Pc.step]
    split
    · first | exact h | trivial
    · first | exact h | trivial
  | loadLease work now =>
    have hw : work = .heartbeat value := h
    subst hw
    simp only [Pc.step, Pc.admitted]
    repeat' split
    · trivial
    · rfl
    · trivial
  | loadNext j now =>
    simp only [Pc.step, Pc.tryNext]
    split
    · trivial
    · exact h
  | exchangeNext j now next =>
    simp only [Pc.step, Pc.tryNext]
    repeat' split
    · exact h
    · trivial
    · exact h

theorem reading_step {pc : Pc} {spurious : Bool} {s : Shared}
    (h : (pc.step spurious s).1.reading = some now) : pc.reading = some now ∨ s.clock = now := by
  cases pc with
  | readClock => exact .inr (Option.some.inj h)
  | storeActive | storeTimestamp => exact .inl h
  | _ =>
    simp only [Pc.step, Pc.admitted, Pc.tryNext] at h
    repeat' split at h
    all_goals first | exact .inl h | cases h

/-- A thread that is about to exchange has found the deadline it loaded to be past. -/
theorem le_of_exchange {pc : Pc} {spurious : Bool} {s : Shared} {j : Fin heartbeatChannelCount}
    {next : UInt64} (h : (pc.step spurious s).1 = .exchangeNext j now next) : next ≤ now := by
  have htry {k : Fin heartbeatChannelCount} {clock deadline : UInt64}
      (h : Pc.tryNext k clock deadline = .exchangeNext j now next) : next ≤ now := by
    unfold Pc.tryNext at h
    split at h
    · cases h
    · next hlt =>
      cases h
      exact UInt64.not_lt.mp hlt
  cases pc with
  | loadNext k clock => exact htry h
  | exchangeNext k clock deadline =>
    simp only [Pc.step] at h
    split at h
    · cases h
    · exact htry h
  | _ =>
    simp only [Pc.step, Pc.admitted] at h
    repeat' split at h
    all_goals cases h

end BeatRun

end Peepbooth
