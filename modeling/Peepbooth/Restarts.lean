import Peepbooth.Admission

/-! A client that is stopped and started again. The heartbeats it publishes lie in
the mapping, which a restart replaces; its limiter lies in the client, which keeps it. -/

namespace Peepbooth

open Schedule

/-- `client::start`; `created` is what `create_process_mapping` returns. -/
def Client.start (c : Client) (created : Option SharedState) : Client :=
  if c.available then c
  else
    match created with
    | some m => { c with mapping := some m }
    | none => c

/-- `client::stop`, what it leaves of the client. -/
def Client.stop (c : Client) : Client := { c with mapping := none }

/-- `lease` is what a watcher has stored in the lease words. -/
inductive RestartCall
  | start (created : Option { m : SharedState // m.Fresh })
  | stop
  | heartbeat (value : Channel) (now : UInt64)
  | setChannelActive (value : Channel) (active : Bool) (now : UInt64)
  | lease (present : UInt32) (untilNs : UInt64)

namespace RestartCall

def apply (c : Client) : RestartCall → Client
  | .start created => c.start (created.map Subtype.val)
  | .stop => c.stop
  | .heartbeat value now => c.heartbeat value now
  | .setChannelActive value active now => c.setChannelActive value active now
  | .lease present untilNs =>
    { c with mapping := c.mapping.map fun m =>
        { m with watcherPresent := present, watcherLeaseUntilNs := untilNs } }

/-- The heartbeat that a call makes: the channel and the clock reading. -/
def beat : RestartCall → Option (Channel × UInt64)
  | .heartbeat value now => some (value, now)
  | .setChannelActive value true now => some (value, now)
  | _ => none

end RestartCall

/-- The slot goes from one publication to the next. -/
def Client.publishes (before after : Client) (index : Fin heartbeatChannelCount) (now : UInt64) :
    Bool :=
  before.mapping.any fun m => after.mapping.any fun m' =>
    m'.heartbeats index =
      { active := 1, timestampNs := now, sequence := (m.heartbeats index).sequence + 1 }

/-- A client with the times at which it published on each channel: in the mapping
in use and in the mappings before it. -/
structure Restarts where
  client : Client
  published : Fin heartbeatChannelCount → List UInt64 := fun _ => []
  earlier : Fin heartbeatChannelCount → List UInt64 := fun _ => []

/-- A heartbeat at `now` falls into the interval of a publication at `t`. -/
def Within (now t : UInt64) : Prop := now.toNat < t.toNat + 500000000

instance decidableWithin (now t : UInt64) : Decidable (Within now t) :=
  inferInstanceAs (Decidable (_ < _))

-- over the list, not over all times
instance decidableNoneWithin (now : UInt64) (times : List UInt64) :
    Decidable (∀ t ∈ times, ¬Within now t) := List.decidableBAll _ _

namespace Restarts

variable {s : Restarts} {c : Client} {m : SharedState} {call : RestartCall} {value : Channel}
  {now : UInt64} {index : Fin heartbeatChannelCount}

def step (s : Restarts) (call : RestartCall) : Restarts :=
  let after := call.apply s.client
  match call with
  | .start _ =>
    if s.client.available = false ∧ after.available = true then
      { client := after, earlier := fun i => s.earlier i ++ s.published i }
    else { s with client := after }
  | _ =>
    { s with
      client := after
      published := fun i =>
        match call.beat with
        | some (value, now) =>
          if channelIndex value = i.val ∧ s.client.publishes after i now then
            s.published i ++ [now]
          else s.published i
        | none => s.published i }

def times (s : Restarts) (i : Fin heartbeatChannelCount) : List UInt64 :=
  s.earlier i ++ s.published i

/-- A heartbeat finds a live lease, and its clock reading leaves room for the interval. -/
def Watched (s : Restarts) (call : RestartCall) : Prop :=
  ∀ b ∈ call.beat, b.2.toNat < 2 ^ 64 - 500000000 ∧ ∀ m ∈ s.client.mapping, m.Open b.2

/-- A heartbeat on a mapping is published if none was within the interval before. -/
def PublicationRule (s : Restarts) (call : RestartCall) : Prop :=
  ∀ b ∈ call.beat, ∀ hv : channelIndex b.1 < heartbeatChannelCount, s.client.available = true →
    (s.client.publishes (call.apply s.client) ⟨channelIndex b.1, hv⟩ b.2 = true ↔
      ∀ t ∈ s.published ⟨channelIndex b.1, hv⟩, ¬Within b.2 t)

/-- No interval of an earlier mapping reaches the heartbeat, unless one of the
mapping in use does too. -/
def NoCarryOver (s : Restarts) (call : RestartCall) : Prop :=
  ∀ b ∈ call.beat, ∀ hv : channelIndex b.1 < heartbeatChannelCount, s.client.available = true →
    (∃ t ∈ s.earlier ⟨channelIndex b.1, hv⟩, Within b.2 t) →
    ∃ t ∈ s.published ⟨channelIndex b.1, hv⟩, Within b.2 t

instance (s : Restarts) (call : RestartCall) : Decidable (s.Watched call) :=
  inferInstanceAs (Decidable (∀ _ ∈ _, _))

instance (s : Restarts) (call : RestartCall) : Decidable (s.PublicationRule call) :=
  inferInstanceAs (Decidable (∀ _ ∈ _, _))

/-- The limiter stands one interval after the last publication, in whatever mapping. -/
structure Limited (s : Restarts) : Prop where
  ceiling : ∀ i, ∀ t ∈ s.times i, t.toNat + 500000000 ≤ (s.client.nextHeartbeatNs i).toNat
  attained : ∀ i, s.client.nextHeartbeatNs i = 0 ∨
    ∃ t ∈ s.times i, (s.client.nextHeartbeatNs i).toNat = t.toNat + 500000000

theorem Limited.due_iff (h : s.Limited) (now : UInt64) :
    ¬now < s.client.nextHeartbeatNs index ↔
      ∀ t ∈ s.times index, ¬Within now t := by
  rw [UInt64.lt_iff_toNat_lt, not_lt]
  constructor
  · intro hn t ht
    exact not_lt.mpr ((h.ceiling index t ht).trans hn)
  · intro hn
    rcases h.attained index with h0 | ⟨t, ht, he⟩
    · rw [h0]
      exact Nat.zero_le _
    · rw [he]
      exact not_lt.mp (hn t ht)

theorem publishes_eq {c' : Client} {m' : SharedState} (hm : c.mapping = some m)
    (hm' : c'.mapping = some m') : c.publishes c' index now = true ↔
      m'.heartbeats index =
        { active := 1, timestampNs := now, sequence := (m.heartbeats index).sequence + 1 } := by
  simp [Client.publishes, hm, hm']

theorem sequence_expired (m : SharedState) (now : UInt64) :
    ((m.expired now).heartbeats index).sequence = (m.heartbeats index).sequence := by
  rw [SharedState.expired]
  split <;> rfl

theorem not_publishes {c' : Client} {m' : SharedState} (hm : c.mapping = some m)
    (hm' : c'.mapping = some m')
    (hs : (m'.heartbeats index).sequence = (m.heartbeats index).sequence) :
    ¬c.publishes c' index now = true := by
  rw [publishes_eq hm hm']
  intro h
  have hh := congrArg HeartbeatSlot.sequence h
  rw [hs] at hh
  exact absurd hh.symm (by simp)

theorem heartbeat_publishes (hm : c.mapping = some m) (ho : m.Open now)
    (hv : channelIndex value < heartbeatChannelCount) :
    (c.publishes (c.heartbeat value now) ⟨channelIndex value, hv⟩ now = true ↔
      ¬now < c.nextHeartbeatNs ⟨channelIndex value, hv⟩) ∧
    (c.heartbeat value now).nextHeartbeatNs =
      if now < c.nextHeartbeatNs ⟨channelIndex value, hv⟩ then c.nextHeartbeatNs
      else
        Function.update c.nextHeartbeatNs ⟨channelIndex value, hv⟩ (now + minimumIntervalNs) := by
  rw [heartbeat_mapping hm hv]
  by_cases hn : now < c.nextHeartbeatNs ⟨channelIndex value, hv⟩
  · have hd : ¬c.Due m ⟨channelIndex value, hv⟩ now := fun h => h.2 hn
    rw [if_neg hd, if_pos hn]
    exact ⟨iff_of_false (not_publishes hm rfl (sequence_expired m now)) (not_not.mpr hn), rfl⟩
  · have hd : c.Due m ⟨channelIndex value, hv⟩ now := ⟨ho, hn⟩
    rw [if_pos hd, if_neg hn]
    refine ⟨iff_of_true ?_ hn, rfl⟩
    rw [publishes_eq hm rfl]
    simp [SharedState.beat, SharedState.setHeartbeat]

theorem marked_sequence (m : SharedState) (index i : Fin heartbeatChannelCount) (active : Bool) :
    ((m.marked index active).heartbeats i).sequence = (m.heartbeats i).sequence := by
  by_cases hi : i = index <;> simp [SharedState.marked, SharedState.setHeartbeat, hi]

theorem beat_publishes (hb : call.beat = some (value, now)) (hm : c.mapping = some m)
    (ho : m.Open now) (hv : channelIndex value < heartbeatChannelCount) :
    (c.publishes (call.apply c) ⟨channelIndex value, hv⟩ now = true ↔
      ¬now < c.nextHeartbeatNs ⟨channelIndex value, hv⟩) ∧
    (call.apply c).nextHeartbeatNs =
      if now < c.nextHeartbeatNs ⟨channelIndex value, hv⟩ then c.nextHeartbeatNs
      else
        Function.update c.nextHeartbeatNs ⟨channelIndex value, hv⟩ (now + minimumIntervalNs) := by
  rcases call with _ | _ | ⟨w, t⟩ | ⟨w, _ | _, t⟩ | _ <;> cases hb
  · exact heartbeat_publishes hm ho hv
  · have h := heartbeat_publishes
      (c := { c with mapping := some (m.marked ⟨channelIndex value, hv⟩ true) }) rfl ho hv
    rw [RestartCall.apply, setChannelActive_eq now hm hv, if_pos rfl]
    refine ⟨?_, h.2⟩
    rw [← h.1]
    simp only [Client.publishes, hm, Option.any_some, marked_sequence]

theorem beat_ignored (hb : call.beat = some (value, now))
    (h : channelIndex value < heartbeatChannelCount → c.mapping = none) :
    (call.apply c).nextHeartbeatNs = c.nextHeartbeatNs := by
  cases hm : c.mapping with
  | none =>
    rcases call with _ | _ | ⟨w, t⟩ | ⟨w, _ | _, t⟩ | _ <;> cases hb <;>
      simp [RestartCall.apply, Client.heartbeat, Client.setChannelActive, hm]
  | some m =>
    have hv : ¬channelIndex value < heartbeatChannelCount := fun hv => by simp [h hv] at hm
    rcases call with _ | _ | ⟨w, t⟩ | ⟨w, _ | _, t⟩ | _ <;> cases hb
    · simp [RestartCall.apply, heartbeat_unnamed hm hv]
    · simp [RestartCall.apply, Client.setChannelActive, hm, hv]

theorem apply_next (hb : call.beat = none) :
    (call.apply c).nextHeartbeatNs = c.nextHeartbeatNs := by
  rcases call with created | _ | ⟨w, t⟩ | ⟨w, _ | _, t⟩ | _ <;> try cases hb
  · simp only [RestartCall.apply, Client.start]
    split
    · rfl
    · split <;> rfl
  · rfl
  · rw [RestartCall.apply, Client.setChannelActive]
    split
    · rfl
    · split <;> rfl
  · rfl

/-- A heartbeat leaves the limiters of the other channels alone. -/
theorem beat_next_ne {i : Fin heartbeatChannelCount} (hb : call.beat = some (value, now))
    (ho : ∀ m ∈ c.mapping, m.Open now) (hi : channelIndex value ≠ i.val) :
    (call.apply c).nextHeartbeatNs i = c.nextHeartbeatNs i := by
  by_cases hv : channelIndex value < heartbeatChannelCount ∧ ∃ m, c.mapping = some m
  · obtain ⟨hv, m, hm⟩ := hv
    rw [(beat_publishes hb hm (ho m hm) hv).2]
    split
    · rfl
    · exact Function.update_of_ne (fun h => hi (congrArg Fin.val h).symm) _ _
  · refine congrFun (beat_ignored hb fun hv' => ?_) i
    by_contra hne
    exact hv ⟨hv', Option.ne_none_iff_exists'.mp hne⟩

theorem step_client (s : Restarts) (call : RestartCall) :
    (s.step call).client = call.apply s.client := by
  simp only [step]
  split
  · split <;> rfl
  · rfl

theorem step_times_of_no_beat (hb : call.beat = none) (i : Fin heartbeatChannelCount) :
    (s.step call).times i = s.times i := by
  simp only [step]
  split
  · split
    · simp [times]
    · rfl
  · simp [times, hb]

theorem step_times_of_beat (hb : call.beat = some (value, now)) (i : Fin heartbeatChannelCount) :
    (s.step call).times i = s.earlier i ++
      if channelIndex value = i.val ∧ s.client.publishes (call.apply s.client) i now then
        s.published i ++ [now]
      else s.published i := by
  rcases call with _ | _ | ⟨w, t⟩ | ⟨w, _ | _, t⟩ | _ <;> cases hb <;> rfl

/-- What a call does to a channel: nothing, or it publishes when the limiter lets it. -/
theorem step_times (hw : s.Watched call) (i : Fin heartbeatChannelCount) :
    (s.step call).times i = s.times i ∧
        (s.step call).client.nextHeartbeatNs i = s.client.nextHeartbeatNs i ∨
      ∃ now, (s.step call).times i = s.times i ++ [now] ∧
        (s.step call).client.nextHeartbeatNs i = now + minimumIntervalNs ∧
        ¬now < s.client.nextHeartbeatNs i ∧ now.toNat < 2 ^ 64 - 500000000 := by
  rw [step_client]
  cases hb : call.beat with
  | none => exact .inl ⟨step_times_of_no_beat hb i, congrFun (apply_next hb) i⟩
  | some b =>
    obtain ⟨value, now⟩ := b
    obtain ⟨hbound, hopen⟩ := hw (value, now) hb
    rw [step_times_of_beat hb]
    by_cases hi : channelIndex value = i.val
    · have hv : channelIndex value < heartbeatChannelCount := hi ▸ i.isLt
      obtain rfl : i = ⟨channelIndex value, hv⟩ := Fin.ext hi.symm
      cases hm : s.client.mapping with
      | none =>
        rw [beat_ignored hb fun _ => hm, if_neg (by simp [Client.publishes, hm])]
        exact .inl ⟨rfl, rfl⟩
      | some m =>
        obtain ⟨hp, hn⟩ := beat_publishes hb hm (hopen m hm) hv
        rw [hn]
        by_cases hlt : now < s.client.nextHeartbeatNs ⟨channelIndex value, hv⟩
        · rw [if_pos hlt, if_neg (fun h => hp.mp h.2 hlt)]
          exact .inl ⟨rfl, rfl⟩
        · rw [if_neg hlt, if_pos ⟨rfl, hp.mpr hlt⟩]
          exact .inr ⟨now, by simp [times], by simp, hlt, hbound⟩
    · rw [if_neg (fun h => hi h.1)]
      exact .inl ⟨rfl, beat_next_ne hb hopen hi⟩

theorem Limited.step (h : s.Limited) (hw : s.Watched call) : (s.step call).Limited := by
  have hadd : ∀ {now : UInt64}, now.toNat < 2 ^ 64 - 500000000 →
      (now + minimumIntervalNs).toNat = now.toNat + 500000000 := by
    intro now hn
    rw [UInt64.toNat_add, show minimumIntervalNs.toNat = 500000000 from rfl]
    omega
  refine ⟨fun i t ht => ?_, fun i => ?_⟩
  · rcases step_times hw i with ⟨ht', hn⟩ | ⟨now, ht', hn, hlt, hb⟩
    · rw [hn]
      exact h.ceiling i t (ht' ▸ ht)
    · rw [hn, hadd hb]
      rw [ht', List.mem_append, List.mem_singleton] at ht
      rcases ht with ht | rfl
      · have hle := h.ceiling i t ht
        rw [UInt64.lt_iff_toNat_lt] at hlt
        omega
      · exact Nat.le_refl _
  · rcases step_times hw i with ⟨ht', hn⟩ | ⟨now, ht', hn, -, hb⟩
    · rw [hn, ht']
      exact h.attained i
    · rw [hn, ht']
      exact .inr ⟨now, by simp, hadd hb⟩

theorem Limited.rule_iff (h : s.Limited) (hw : s.Watched call) :
    s.PublicationRule call ↔ s.NoCarryOver call := by
  refine forall_congr' fun b => forall_congr' fun hb => forall_congr' fun hv => ?_
  refine forall_congr' fun ha => ?_
  obtain ⟨m, hm⟩ := Option.isSome_iff_exists.mp ha
  rw [(beat_publishes hb hm ((hw b hb).2 m hm) hv).1, h.due_iff]
  simp only [times, List.mem_append]
  constructor
  · rintro hr ⟨t, ht, hin⟩
    by_contra hn
    refine hr.mpr ?_ t (.inl ht) hin
    exact fun u hu hin => hn ⟨u, hu, hin⟩
  · intro hr
    refine ⟨fun hh t ht => hh t (.inr ht), fun hh t ht hin => ?_⟩
    rcases ht with ht | ht
    · obtain ⟨u, hu, hin'⟩ := hr ⟨t, ht, hin⟩
      exact hh u hu hin'
    · exact hh t ht hin

def constructed : Restarts := ⟨{}, fun _ => [], fun _ => []⟩

theorem limited_constructed : constructed.Limited :=
  ⟨by simp [constructed, times], fun _ => .inl rfl⟩

/-- In any sequence of calls, every heartbeat keeps the publication rule exactly
where none is held back by a publication of an earlier mapping alone. -/
theorem publication_rule_iff {calls : List RestartCall}
    (h : Permits step Watched constructed calls) :
    Permits step PublicationRule constructed calls ↔
      Permits step NoCarryOver constructed calls := by
  have hiff : Permits step (fun s e => s.Watched e ∧ s.PublicationRule e) constructed calls ↔
      Permits step (fun s e => s.Watched e ∧ s.NoCarryOver e) constructed calls :=
    permits_iff_permits (I := Limited) (fun s e hs hG => hs.step hG.1)
      (fun s e hs => and_congr_right fun hw => hs.rule_iff hw) limited_constructed
  exact ⟨fun hr => (hiff.mp (h.and hr)).imp fun _ _ => And.right,
    fun hc => (hiff.mpr (h.and hc)).imp fun _ _ => And.right⟩

/-- One heartbeat at 1 s, a restart, and another heartbeat 100 ms later. -/
def restarted : List RestartCall :=
  let created : SharedState := .createProcessMapping 7 1000 (some 100) []
  let fresh := SharedState.createProcessMapping_fresh 7 1000 (some 100) []
  [.start (some ⟨created, fresh⟩), .lease 1 9000000000, .heartbeat .main 1000000000, .stop,
    .start (some ⟨created, fresh⟩), .lease 1 9000000000, .heartbeat .main 1100000000]

theorem publication_rule_iff_restarted :
    Permits step PublicationRule constructed restarted ↔
      Permits step NoCarryOver constructed restarted :=
  publication_rule_iff (by decide +kernel)

/-- The second mapping gets no heartbeat, although none has been published in it. -/
theorem restart_drops_heartbeat :
    let s := run step constructed (restarted.take 6)
    Permits step Watched constructed restarted ∧
      ¬Permits step PublicationRule constructed restarted ∧
      s.published 0 = [] ∧ (s.step (.heartbeat .main 1100000000)).published 0 = [] := by
  decide +kernel

end Restarts

end Peepbooth
