import Peepbooth.Admission

/-! What a mapping is for, without its words: a history of operations decides
until when publishing is let through, which channels are active, and when each
was last published. -/

namespace Peepbooth

open Schedule

structure Ledger where
  until_ : Option Nat := none
  active : Fin heartbeatChannelCount → Bool := fun _ => false
  published : Fin heartbeatChannelCount → Option UInt64 := fun _ => none

namespace Ledger

variable {l : Ledger} {clocks : List UInt64} {c : Client} {m : SharedState} {now : UInt64}
  {i index : Fin heartbeatChannelCount}

/-- A heartbeat at `now` is published: a lease lets it through, and the limiter does. -/
def due (l : Ledger) (index : Fin heartbeatChannelCount) (now : UInt64) : Bool :=
  l.until_.any (now.toNat ≤ ·) && (l.published index).all (· + minimumIntervalNs ≤ now)

def mark (l : Ledger) (index : Fin heartbeatChannelCount) (active : Bool) : Ledger :=
  { l with active := Function.update l.active index active }

def publish (l : Ledger) (index : Fin heartbeatChannelCount) (now : UInt64) : Ledger :=
  { l.mark index true with published := Function.update l.published index (some now) }

def beat (l : Ledger) (index : Fin heartbeatChannelCount) (now : UInt64) : Ledger :=
  if l.due index now then l.publish index now else l

def call (l : Ledger) (now : UInt64) : Call → Ledger
  | .heartbeat value =>
    if h : channelIndex value < heartbeatChannelCount then l.beat ⟨_, h⟩ now else l
  | .setChannelActive value active =>
    if h : channelIndex value < heartbeatChannelCount then
      if active then (l.mark ⟨_, h⟩ true).beat ⟨_, h⟩ now else l.mark ⟨_, h⟩ false
    else l
  | .breadcrumb _ => l

def record (l : Ledger) : Operation → Ledger
  | .call now call => l.call now call
  | op => { l with until_ := op.grant l.until_ }

/-- The words of a mapping and the limiter of its client agree with the ledger,
after calls at the readings `clocks`. -/
structure Keeps (l : Ledger) (clocks : List UInt64) (c : Client) (m : SharedState) : Prop where
  mapping : c.mapping = some m
  lease : m.Grants l.until_ clocks
  active : ∀ i, (m.heartbeats i).active = if l.active i then 1 else 0
  timestampNs : ∀ i, (m.heartbeats i).timestampNs = (l.published i).getD 0
  limiter : ∀ i, c.nextHeartbeatNs i = (l.published i).elim 0 (· + minimumIntervalNs)

theorem due_eq : l.due index now = true ↔
    (∃ u, l.until_ = some u ∧ now.toNat ≤ u) ∧
      ∀ t, l.published index = some t → t + minimumIntervalNs ≤ now := by
  rw [due, Bool.and_eq_true, Option.any_eq_true, Option.all_eq_true]
  simp only [decide_eq_true_eq]

theorem Keeps.due_iff (h : l.Keeps clocks c m) (hn : ∀ x ∈ clocks, x ≤ now) :
    c.Due m i now ↔ l.due i now = true := by
  rw [Client.Due, h.lease.open_iff hn, due_eq, h.limiter i]
  refine and_congr_right fun _ => ?_
  cases l.published i with
  | none => exact iff_of_true (UInt64.not_lt.mpr (UInt64.zero_le)) (fun _ h => by cases h)
  | some t =>
    rw [Option.elim_some, UInt64.not_lt]
    exact ⟨fun hle u hu => Option.some.inj hu ▸ hle, fun h => h t rfl⟩

theorem Keeps.expired (h : l.Keeps clocks c m) (now : UInt64) :
    l.Keeps (clocks ++ [now]) { c with mapping := some (m.expired now) } (m.expired now) where
  mapping := rfl
  lease := h.lease.call (leaseKept_expired m now)
  active i := by
    rw [SharedState.expired, ← h.active i]
    split <;> rfl
  timestampNs i := by
    rw [SharedState.expired, ← h.timestampNs i]
    split <;> rfl
  limiter := h.limiter

theorem Keeps.beat (h : l.Keeps clocks c m) (hn : ∀ x ∈ clocks, x ≤ now) {value : Channel}
    (hv : channelIndex value < heartbeatChannelCount) :
    ∃ m', (l.beat ⟨channelIndex value, hv⟩ now).Keeps (clocks ++ [now]) (c.heartbeat value now)
      m' := by
  rw [heartbeat_mapping h.mapping hv, Ledger.beat]
  by_cases hd : c.Due m ⟨channelIndex value, hv⟩ now
  case neg =>
    rw [if_neg hd, if_neg (mt (h.due_iff hn).mpr hd)]
    exact ⟨_, h.expired now⟩
  rw [if_pos hd, if_pos ((h.due_iff hn).mp hd)]
  refine ⟨_, rfl, h.lease.call ⟨rfl, .inl rfl, fun _ _ => rfl⟩, fun i => ?_, fun i => ?_,
    fun i => ?_⟩ <;> by_cases hi : i = ⟨channelIndex value, hv⟩
  · simp [SharedState.beat, SharedState.setHeartbeat, publish, mark, hi]
  · simpa [SharedState.beat, SharedState.setHeartbeat, publish, mark, hi] using h.active i
  · simp [SharedState.beat, SharedState.setHeartbeat, publish, hi]
  · simpa [SharedState.beat, SharedState.setHeartbeat, publish, mark, hi] using h.timestampNs i
  · simp [publish, hi]
  · simpa [publish, mark, hi] using h.limiter i

theorem marked_timestampNs (m : SharedState) (index : Fin heartbeatChannelCount) (active : Bool)
    (i : Fin heartbeatChannelCount) :
    ((m.marked index active).heartbeats i).timestampNs = (m.heartbeats i).timestampNs := by
  by_cases hi : i = index <;> simp [SharedState.marked, SharedState.setHeartbeat, hi]

theorem Keeps.mark (h : l.Keeps clocks c m) (index : Fin heartbeatChannelCount)
    (active : Bool) :
    (l.mark index active).Keeps clocks { c with mapping := some (m.marked index active) }
      (m.marked index active) where
  mapping := rfl
  lease := ⟨h.lease.flag, h.lease.released, h.lease.lease, h.lease.past⟩
  active i := by
    by_cases hi : i = index
    · simp [SharedState.marked, SharedState.setHeartbeat, Ledger.mark, hi]
    · simpa [SharedState.marked, SharedState.setHeartbeat, Ledger.mark, hi] using h.active i
  timestampNs i := (marked_timestampNs m index active i).trans (h.timestampNs i)
  limiter := h.limiter

theorem Keeps.heartbeat (h : l.Keeps clocks c m) (hn : ∀ x ∈ clocks, x ≤ now) (value : Channel) :
    ∃ m', (l.call now (.heartbeat value)).Keeps (clocks ++ [now]) (c.heartbeat value now) m' := by
  by_cases hv : channelIndex value < heartbeatChannelCount
  · simpa only [Ledger.call, hv, dite_true] using h.beat hn hv
  · rw [heartbeat_unnamed h.mapping hv]
    simpa only [Ledger.call, hv, dite_false] using ⟨_, h.expired now⟩

theorem Keeps.later (h : l.Keeps clocks c m) (now : UInt64) : l.Keeps (clocks ++ [now]) c m :=
  { h with lease := h.lease.call ⟨rfl, .inl rfl, fun _ _ => rfl⟩ }

theorem Keeps.setChannelActive (h : l.Keeps clocks c m) (hn : ∀ x ∈ clocks, x ≤ now)
    (value : Channel) (active : Bool) :
    ∃ m', (l.call now (.setChannelActive value active)).Keeps (clocks ++ [now])
      (c.setChannelActive value active now) m' := by
  by_cases hv : channelIndex value < heartbeatChannelCount
  case neg =>
    refine ⟨m, ?_⟩
    simpa only [Ledger.call, Client.setChannelActive, h.mapping, hv, dite_false] using h.later now
  rw [setChannelActive_eq now h.mapping hv active]
  cases active with
  | false => exact ⟨_, by simpa [Ledger.call, hv] using (h.mark _ false).later now⟩
  | true => simpa [Ledger.call, hv] using (h.mark ⟨_, hv⟩ true).beat hn hv

theorem Keeps.breadcrumb (h : l.Keeps clocks c m) (args : BreadcrumbArgs) :
    ∃ m', l.Keeps (clocks ++ [now]) (c.breadcrumb args now) m' := by
  have hm : (c.breadcrumb args now).mapping = _ := breadcrumb_mapping h.mapping args
  have hl : (c.breadcrumb args now).nextHeartbeatNs = c.nextHeartbeatNs := by
    simp only [Client.breadcrumb, h.mapping]
    repeat' split
    all_goals rfl
  split at hm
  · exact ⟨_, hm, h.lease.call ⟨rfl, .inl rfl, fun _ _ => rfl⟩, h.active, h.timestampNs,
      fun i => hl ▸ h.limiter i⟩
  · have he := h.expired now
    exact ⟨_, hm, he.lease, he.active, he.timestampNs, fun i => hl ▸ h.limiter i⟩

theorem Keeps.call (h : l.Keeps clocks c m) (hn : ∀ x ∈ clocks, x ≤ now) (call : Call) :
    ∃ m', (l.call now call).Keeps (clocks ++ [now]) (c.call now call) m' := by
  cases call with
  | heartbeat value => exact h.heartbeat hn value
  | setChannelActive value active => exact h.setChannelActive hn value active
  | breadcrumb args => exact h.breadcrumb args

end Ledger

def ledgerOf (ops : List Operation) : Ledger := ops.foldl Ledger.record {}

@[simp] theorem ledgerOf_concat (ops : List Operation) (op : Operation) :
    ledgerOf (ops ++ [op]) = (ledgerOf ops).record op := by
  simp [ledgerOf]

/-- When each channel that is marked active was last beaten, or was marked. -/
abbrev Beats := Fin heartbeatChannelCount → Option UInt64

def Beats.record (b : Beats) : Operation → Beats
  | .call now (.heartbeat value) =>
    if h : channelIndex value < heartbeatChannelCount then
      Function.update b ⟨_, h⟩ ((b ⟨_, h⟩).map fun _ => now)
    else b
  | .call now (.setChannelActive value active) =>
    if h : channelIndex value < heartbeatChannelCount then
      Function.update b ⟨_, h⟩ (if active then some now else none)
    else b
  | _ => b

def beatsOf (b : Beats) (ops : List Operation) : Beats := ops.foldl Beats.record b

@[simp] theorem beatsOf_concat (b : Beats) (ops : List Operation) (op : Operation) :
    beatsOf b (ops ++ [op]) = (beatsOf b ops).record op := by
  simp [beatsOf]

/-- At `now` no channel that is marked active has been silent for longer than `gap`. -/
def Beats.Within (gap : Nat) (b : Beats) (now : UInt64) : Prop :=
  ∀ i, (b i).all (now.toNat ≤ ·.toNat + gap) = true

instance (gap : Nat) (b : Beats) (now : UInt64) : Decidable (b.Within gap now) :=
  inferInstanceAs (Decidable (∀ _, _))

section Runs

variable (identity : ProcessIdentity) (uid : UInt32) (name : List UInt8)

def clientAfter (ops : List Operation) : Client :=
  run (Client.operate identity uid) (freshClient identity uid name fun _ => 0) ops

theorem clientAfter_concat (ops : List Operation) (op : Operation) :
    clientAfter identity uid name (ops ++ [op]) =
      (clientAfter identity uid name ops).operate identity uid op :=
  run_concat op

/-- The memory that a run of operations leaves is the one its ledger tells of. -/
theorem keeps_clientAfter {ops : List Operation}
    (hc : (ops.filterMap Operation.clock).Pairwise (· ≤ ·)) :
    ∃ m, m.validState identity uid = true ∧
      (ledgerOf ops).Keeps (ops.filterMap Operation.clock)
        (clientAfter identity uid name ops) m := by
  induction ops using List.reverseRecOn with
  | nil =>
    refine ⟨_, SharedState.validState_createProcessMapping _ _ _, rfl, ?_, ?_, ?_, ?_⟩
    · exact ⟨.inl rfl, fun _ => rfl, fun _ h => (nomatch h), fun _ h => (nomatch h)⟩
    all_goals exact fun _ => rfl
  | append_singleton ops op ih =>
    rw [List.filterMap_append, List.pairwise_append] at hc
    obtain ⟨m, hvalid, h⟩ := ih hc.1
    rw [clientAfter_concat, ledgerOf_concat, List.filterMap_append]
    cases op with
    | attach now =>
      refine ⟨m.renewLease now, hvalid, ?_, ?_, h.active, h.timestampNs, h.limiter⟩
      · simp [Client.operate, h.mapping, hvalid]
      · exact SharedState.grants_renewLease now defaultWatcherLeaseNs
    | renew now duration =>
      refine ⟨m.renewLease now duration, hvalid, ?_, ?_, h.active, h.timestampNs, h.limiter⟩
      · simp [Client.operate, h.mapping]
      · exact SharedState.grants_renewLease now duration
    | release =>
      refine ⟨m.release, hvalid, ?_, SharedState.grants_release, h.active, h.timestampNs,
        h.limiter⟩
      simp [Client.operate, h.mapping]
    | call now call =>
      have hpast : ∀ x ∈ ops.filterMap Operation.clock, x ≤ now := fun x hx =>
        hc.2.2 x hx now (by simp [Operation.clock])
      obtain ⟨m', h'⟩ := h.call hpast call
      obtain ⟨m'', hm'', hk, -⟩ := call_effect now h.mapping call
      have he : m' = m'' := Option.some.inj (h'.mapping.symm.trans hm'')
      exact ⟨m', (he ▸ hk.valid _ _).trans hvalid, h'⟩

end Runs

end Peepbooth
