import Peepbooth.Schedule
import Peepbooth.Client
import Peepbooth.Watchdog

/-! Whole runs of one mapping, one operation at a time: the calls of the client
and the operations of sessions that hold the mapping. What a call may publish is
decided by the last of the latter. -/

namespace Peepbooth

open Schedule

namespace SharedState

/-- The lease words let a call at clock reading `now` publish. -/
def Open (m : SharedState) (now : UInt64) : Prop :=
  m.watcherPresent ≠ 0 ∧ ¬m.watcherLeaseUntilNs < now

instance (m : SharedState) (now : UInt64) : Decidable (m.Open now) :=
  inferInstanceAs (Decidable (_ ∧ _))

/-- The state a call leaves that is not let through. -/
def expired (m : SharedState) (now : UInt64) : SharedState :=
  if m.watcherPresent ≠ 0 ∧ m.watcherLeaseUntilNs < now then { m with watcherPresent := 0 } else m

end SharedState

section Calls

variable {c : Client} {m : SharedState} {now : UInt64}

theorem breadcrumb_mapping (h : c.mapping = some m) (args : BreadcrumbArgs) :
    (c.breadcrumb args now).mapping =
      some (if m.Open now then m.crumb args now else m.expired now) := by
  by_cases hp : m.watcherPresent = 0
  · simp [Client.breadcrumb, h, hp, SharedState.Open, SharedState.expired]
  · by_cases hl : m.watcherLeaseUntilNs < now <;>
      simp [Client.breadcrumb, h, hp, hl, SharedState.Open, SharedState.expired,
        SharedState.activeState]

def SharedState.marked (m : SharedState) (index : Fin heartbeatChannelCount) (active : Bool) :
    SharedState :=
  m.setHeartbeat index { m.heartbeats index with active := if active then 1 else 0 }

theorem setChannelActive_eq (now : UInt64) (h : c.mapping = some m) {value : Channel}
    (hv : channelIndex value < heartbeatChannelCount) (active : Bool) :
    c.setChannelActive value active now =
      if active then
        Client.heartbeat { c with mapping := some (m.marked ⟨channelIndex value, hv⟩ true) } value
          now
      else { c with mapping := some (m.marked ⟨channelIndex value, hv⟩ false) } := by
  cases active <;> simp [Client.setChannelActive, h, hv, SharedState.marked]

/-- The heartbeat is let through, names a channel, and is due. -/
def Client.Due (c : Client) (m : SharedState) (index : Fin heartbeatChannelCount) (now : UInt64) :
    Prop :=
  m.Open now ∧ ¬now < c.nextHeartbeatNs index

instance (c : Client) (m : SharedState) (index : Fin heartbeatChannelCount) (now : UInt64) :
    Decidable (c.Due m index now) :=
  inferInstanceAs (Decidable (_ ∧ _))

theorem heartbeat_mapping (h : c.mapping = some m) {value : Channel}
    (hv : channelIndex value < heartbeatChannelCount) :
    c.heartbeat value now =
      if c.Due m ⟨channelIndex value, hv⟩ now then
        { mapping := some (m.beat ⟨channelIndex value, hv⟩ now)
          nextHeartbeatNs := Function.update c.nextHeartbeatNs ⟨channelIndex value, hv⟩
            (now + minimumIntervalNs) }
      else { c with mapping := some (m.expired now) } := by
  by_cases hp : m.watcherPresent = 0
  · simp only [Client.heartbeat, h, hp, Client.Due, SharedState.Open, SharedState.expired]
    simp [← h]
  · by_cases hl : m.watcherLeaseUntilNs < now
    · simp [Client.heartbeat, h, hp, hl, Client.Due, SharedState.Open, SharedState.expired,
        SharedState.activeState]
    · by_cases hn : now < c.nextHeartbeatNs ⟨channelIndex value, hv⟩ <;>
        simp [Client.heartbeat, h, hp, hl, hv, hn, Client.Due, SharedState.Open,
          SharedState.expired, SharedState.activeState]

theorem heartbeat_unnamed (h : c.mapping = some m) {value : Channel}
    (hv : ¬channelIndex value < heartbeatChannelCount) :
    c.heartbeat value now = { c with mapping := some (m.expired now) } := by
  by_cases hp : m.watcherPresent = 0
  · simp only [Client.heartbeat, h, hp, SharedState.expired]
    simp [← h]
  · by_cases hl : m.watcherLeaseUntilNs < now <;>
      simp [Client.heartbeat, h, hp, hl, hv, SharedState.expired, SharedState.activeState]

end Calls

/-- `attach`, `renew` and `release` are those of sessions that hold the mapping. -/
inductive Operation
  | attach (now : UInt64)
  | renew (now duration : UInt64)
  | release
  | call (now : UInt64) (call : Call)
  deriving DecidableEq

/-- `identity` and `uid` are what the attaching sessions look for. -/
def Client.operate (identity : ProcessIdentity) (uid : UInt32) (c : Client) : Operation → Client
  | .attach now =>
    { c with mapping := c.mapping.map fun m =>
        if m.validState identity uid then m.renewLease now else m }
  | .renew now duration => { c with mapping := c.mapping.map (·.renewLease now duration) }
  | .release => { c with mapping := c.mapping.map (·.release) }
  | .call now call => c.call now call

def Operation.clock : Operation → Option UInt64
  | .call now _ => some now
  | _ => none

theorem Operation.clock_attach (now : UInt64) : (attach now).clock = none := rfl

/-- Until when the last operation of a watcher lets the producer publish. -/
def Operation.grant (g : Option Nat) : Operation → Option Nat
  | .attach now => some (min (now.toNat + defaultWatcherLeaseNs.toNat) (2 ^ 64 - 1))
  | .renew now duration => some (min (now.toNat + duration.toNat) (2 ^ 64 - 1))
  | .release => none
  | .call _ _ => g

def grantOf (ops : List Operation) : Option Nat := ops.foldl Operation.grant none

def GrantedAt (ops : List Operation) (now : UInt64) : Prop :=
  ∃ until_, grantOf ops = some until_ ∧ now.toNat ≤ until_

namespace SharedState

/-- The lease words after operations that granted `g` and calls at the readings
`clocks`: the flag is down early only if a call has seen the grant expired. -/
structure Grants (m : SharedState) (g : Option Nat) (clocks : List UInt64) : Prop where
  flag : m.watcherPresent = 0 ∨ m.watcherPresent = 1
  released : g = none → m.watcherPresent = 0
  lease : ∀ l, g = some l → m.watcherLeaseUntilNs.toNat = l
  past : ∀ l, g = some l → m.watcherPresent = 0 → ∃ x ∈ clocks, l < x.toNat

variable {m m' : SharedState} {g : Option Nat} {clocks : List UInt64} {now : UInt64}

theorem Grants.open_iff (h : m.Grants g clocks) (hn : ∀ x ∈ clocks, x ≤ now) :
    m.Open now ↔ ∃ l, g = some l ∧ now.toNat ≤ l := by
  rw [Open, UInt64.not_lt, UInt64.le_iff_toNat_le]
  constructor
  · rintro ⟨hp, hl⟩
    cases hg : g with
    | none => exact absurd (h.released hg) hp
    | some l => exact ⟨l, rfl, h.lease l hg ▸ hl⟩
  · rintro ⟨l, hg, hl⟩
    refine ⟨fun hp => ?_, (h.lease l hg).symm ▸ hl⟩
    obtain ⟨x, hx, hlt⟩ := h.past l hg hp
    have hle := UInt64.le_iff_toNat_le.mp (hn x hx)
    omega

theorem grants_renewLease (now duration : UInt64) :
    (m.renewLease now duration).Grants (some (min (now.toNat + duration.toNat) (2 ^ 64 - 1)))
      clocks where
  flag := .inr rfl
  released := by simp
  lease l hl := by rw [← Option.some.inj hl, ← toNat_leaseDeadline]; rfl
  past l _ hp := by simp [renewLease] at hp

theorem grants_release : m.release.Grants none clocks where
  flag := .inl rfl
  released _ := rfl
  lease l hl := by cases hl
  past l hl := by cases hl

structure LeaseKept (now : UInt64) (m m' : SharedState) : Prop where
  lease : m'.watcherLeaseUntilNs = m.watcherLeaseUntilNs
  present : m'.watcherPresent = m.watcherPresent ∨
    m'.watcherPresent = 0 ∧ m.watcherLeaseUntilNs < now
  valid : ∀ identity uid, m'.validState identity uid = m.validState identity uid

theorem Grants.call (h : m.Grants g clocks) (hk : LeaseKept now m m') :
    m'.Grants g (clocks ++ [now]) where
  flag := by
    rcases hk.present with he | ⟨he, -⟩
    · exact he ▸ h.flag
    · exact .inl he
  released hg := by
    rcases hk.present with he | ⟨he, -⟩
    · exact he.trans (h.released hg)
    · exact he
  lease l hl := hk.lease ▸ h.lease l hl
  past l hl hp := by
    rcases hk.present with he | ⟨-, hlt⟩
    · obtain ⟨x, hx, hxl⟩ := h.past l hl (he ▸ hp)
      exact ⟨x, List.mem_append_left _ hx, hxl⟩
    · exact ⟨now, by simp, by rw [← h.lease l hl]; exact UInt64.lt_iff_toNat_lt.mp hlt⟩

end SharedState

/-- What a call that is not let through may change: the presence flag, from 1
to 0, and the active flag that `set_channel_active` names. -/
structure Inert (call : Call) (m m' : SharedState) : Prop where
  rest : m' = { m with watcherPresent := m'.watcherPresent, heartbeats := m'.heartbeats }
  present : m'.watcherPresent = m.watcherPresent ∨ m.watcherPresent ≠ 0 ∧ m'.watcherPresent = 0
  timestampNs : ∀ i, (m'.heartbeats i).timestampNs = (m.heartbeats i).timestampNs
  sequence : ∀ i, (m'.heartbeats i).sequence = (m.heartbeats i).sequence
  active : ∀ i, (m'.heartbeats i).active = (m.heartbeats i).active ∨
    ∃ value active, call = .setChannelActive value active ∧ channelIndex value = i.val ∧
      (m'.heartbeats i).active = if active then 1 else 0

theorem inert_expired (call : Call) (m : SharedState) (now : UInt64) :
    Inert call m (m.expired now) := by
  simp only [SharedState.expired]
  split
  · next h => exact ⟨rfl, .inr ⟨h.1, rfl⟩, fun _ => rfl, fun _ => rfl, fun _ => .inl rfl⟩
  · exact ⟨rfl, .inl rfl, fun _ => rfl, fun _ => rfl, fun _ => .inl rfl⟩

theorem leaseKept_expired (m : SharedState) (now : UInt64) :
    SharedState.LeaseKept now m (m.expired now) := by
  simp only [SharedState.expired]
  split
  · next h => exact ⟨rfl, .inr ⟨rfl, h.2⟩, fun _ _ => rfl⟩
  · exact ⟨rfl, .inl rfl, fun _ _ => rfl⟩

section Calls

variable {c : Client} {m : SharedState} {now : UInt64}

theorem heartbeat_effect (now : UInt64) (h : c.mapping = some m) (value : Channel) :
    ∃ m', (c.heartbeat value now).mapping = some m' ∧ SharedState.LeaseKept now m m' ∧
      (¬m.Open now → m' = m.expired now) := by
  by_cases hv : channelIndex value < heartbeatChannelCount
  · rw [heartbeat_mapping h hv]
    split
    · next hd =>
      exact ⟨_, rfl, ⟨rfl, .inl rfl, fun _ _ => rfl⟩, fun ho => absurd hd.1 ho⟩
    · exact ⟨_, rfl, leaseKept_expired m now, fun _ => rfl⟩
  · rw [heartbeat_unnamed h hv]
    exact ⟨_, rfl, leaseKept_expired m now, fun _ => rfl⟩

theorem inert_marked (m : SharedState) {value : Channel} (active : Bool)
    (hv : channelIndex value < heartbeatChannelCount) :
    Inert (.setChannelActive value active) m (m.marked ⟨channelIndex value, hv⟩ active) := by
  have hslot : ∀ i, (m.marked ⟨channelIndex value, hv⟩ active).heartbeats i = m.heartbeats i ∨
      i = ⟨channelIndex value, hv⟩ ∧ (m.marked ⟨channelIndex value, hv⟩ active).heartbeats i =
        { m.heartbeats i with active := if active then 1 else 0 } := by
    intro i
    by_cases hi : i = ⟨channelIndex value, hv⟩ <;>
      simp [SharedState.marked, SharedState.setHeartbeat, hi]
  refine ⟨rfl, .inl rfl, fun i => ?_, fun i => ?_, fun i => ?_⟩ <;>
    rcases hslot i with he | ⟨hi, he⟩ <;> rw [he]
  · exact .inl rfl
  · exact .inr ⟨value, active, rfl, by rw [hi], rfl⟩

theorem Inert.expired {call : Call} {m' : SharedState} (h : Inert call m m') (now : UInt64) :
    Inert call m (m'.expired now) := by
  simp only [SharedState.expired]
  split
  · next hp =>
    refine ⟨?_, .inr ⟨?_, rfl⟩, h.timestampNs, h.sequence, h.active⟩
    · rw [h.rest]
    · rcases h.present with he | ⟨hne, -⟩
      · exact he ▸ hp.1
      · exact hne
  · exact h

theorem call_effect (now : UInt64) (h : c.mapping = some m) (call : Call) :
    ∃ m', (c.call now call).mapping = some m' ∧ SharedState.LeaseKept now m m' ∧
      (¬m.Open now → Inert call m m') := by
  cases call with
  | heartbeat value =>
    obtain ⟨m', hm, hk, hi⟩ := heartbeat_effect now h value
    exact ⟨m', hm, hk, fun ho => hi ho ▸ inert_expired _ m now⟩
  | breadcrumb args =>
    refine ⟨_, breadcrumb_mapping h args, ?_, fun ho => ?_⟩
    · split
      · exact ⟨rfl, .inl rfl, fun _ _ => rfl⟩
      · exact leaseKept_expired m now
    · rw [if_neg ho]
      exact inert_expired _ m now
  | setChannelActive value active =>
    by_cases hv : channelIndex value < heartbeatChannelCount
    case neg =>
      exact ⟨m, by simp [Client.call, Client.setChannelActive, h, hv],
        ⟨rfl, .inl rfl, fun _ _ => rfl⟩, fun _ => ⟨rfl, .inl rfl, by simp, by simp, by simp⟩⟩
    have hmark := inert_marked m active hv
    have heq := setChannelActive_eq now h hv active
    cases active with
    | false =>
      exact ⟨_, congrArg Client.mapping heq, ⟨rfl, .inl rfl, fun _ _ => rfl⟩, fun _ => hmark⟩
    | true =>
      obtain ⟨m', hm, hk, hi⟩ := heartbeat_effect now
        (c := { c with mapping := some (m.marked ⟨channelIndex value, hv⟩ true) }) rfl value
      refine ⟨m', (congrArg Client.mapping heq).trans hm, ⟨hk.lease, hk.present, hk.valid⟩,
        fun ho => ?_⟩
      rw [hi ho]
      exact hmark.expired now

end Calls

theorem crumb_breadcrumbs (m : SharedState) (args : BreadcrumbArgs) (now : UInt64) :
    (m.crumb args now).breadcrumbs =
      Function.update m.breadcrumbs (slotIndex (m.breadcrumbTicket + 1))
        (⟨m.breadcrumbTicket + 1, now, args⟩ : RingWrite).slot := by
  simp only [SharedState.crumb, RingWrite.foldl_inOrder]
  rfl

section Runs

variable (identity : ProcessIdentity) (uid : UInt32) (name : List UInt8)
  (next : Fin heartbeatChannelCount → UInt64)

def freshClient : Client :=
  ⟨some (.createProcessMapping identity.pid uid (some identity.startTicks) name), next⟩

def mappingAfter (ops : List Operation) : Option SharedState :=
  (run (Client.operate identity uid) (freshClient identity uid name next) ops).mapping

theorem granted_run (ops : List Operation) :
    ∃ m, mappingAfter identity uid name next ops = some m ∧ m.validState identity uid = true ∧
      m.Grants (grantOf ops) (ops.filterMap Operation.clock) := by
  induction ops using List.reverseRecOn with
  | nil =>
    refine ⟨_, rfl, SharedState.validState_createProcessMapping _ _ _, .inl rfl, fun _ => rfl,
      ?_, ?_⟩ <;> simp [grantOf]
  | append_singleton ops op ih =>
    obtain ⟨m, hm, hvalid, hg⟩ := ih
    simp only [mappingAfter, run_concat, grantOf, List.foldl_append, List.foldl_cons,
      List.foldl_nil, List.filterMap_append] at hm ⊢
    cases op with
    | attach now =>
      refine ⟨m.renewLease now, by simp [Client.operate, hm, hvalid], hvalid, ?_⟩
      exact SharedState.grants_renewLease now defaultWatcherLeaseNs
    | renew now duration =>
      exact ⟨m.renewLease now duration, by simp [Client.operate, hm], hvalid,
        SharedState.grants_renewLease now duration⟩
    | release =>
      exact ⟨m.release, by simp [Client.operate, hm], hvalid, SharedState.grants_release⟩
    | call now call =>
      obtain ⟨m', hm', hk, -⟩ := call_effect now hm call
      exact ⟨m', hm', (hk.valid _ _).trans hvalid, hg.call hk⟩

/-- A call made at `now` after other operations: it publishes exactly where the
last operation of a watcher grants `now`, and changes next to nothing elsewhere. -/
theorem exact_admission (ops : List Operation) (now : UInt64) (call : Call)
    (hc : ((ops ++ [Operation.call now call]).filterMap Operation.clock).Pairwise (· ≤ ·)) :
    ∃ m m', mappingAfter identity uid name next ops = some m ∧
      mappingAfter identity uid name next (ops ++ [.call now call]) = some m' ∧
      (∀ args, call = .breadcrumb args →
        (m'.breadcrumbTicket ≠ m.breadcrumbTicket ↔ GrantedAt ops now) ∧
        (GrantedAt ops now → m'.breadcrumbTicket = m.breadcrumbTicket + 1 ∧
          m'.breadcrumbs = Function.update m.breadcrumbs (slotIndex (m.breadcrumbTicket + 1))
            (⟨m.breadcrumbTicket + 1, now, args⟩ : RingWrite).slot)) ∧
      (∀ value, call = .heartbeat value → m'.heartbeats ≠ m.heartbeats → GrantedAt ops now) ∧
      (¬GrantedAt ops now → Inert call m m') := by
  obtain ⟨m, hm, -, hg⟩ := granted_run identity uid name next ops
  obtain ⟨m', hm', hk, hi⟩ := call_effect now hm call
  have hpast : ∀ x ∈ ops.filterMap Operation.clock, x ≤ now := by
    rw [List.filterMap_append, List.pairwise_append] at hc
    exact fun x hx => hc.2.2 x hx now (by simp [Operation.clock])
  have ho : m.Open now ↔ GrantedAt ops now := hg.open_iff hpast
  rw [← ho]
  have hrun : mappingAfter identity uid name next (ops ++ [.call now call]) = some m' := by
    rw [mappingAfter, run_concat]
    exact hm'
  refine ⟨m, m', hm, hrun, fun args hcall => ?_, fun value hcall hne => ?_, hi⟩
  · subst hcall
    have hcr := (breadcrumb_mapping hm args).symm.trans hm'
    have hopen : m.Open now → m' = m.crumb args now := fun hop => by
      rw [if_pos hop] at hcr
      exact (Option.some.inj hcr).symm
    refine ⟨⟨fun hne => ?_, fun hop => ?_⟩, fun hop => ?_⟩
    · by_contra hno
      exact hne (by rw [(hi hno).rest])
    · rw [hopen hop]
      simp [SharedState.crumb, SharedState.setBreadcrumb]
    · rw [hopen hop]
      exact ⟨rfl, crumb_breadcrumbs m args now⟩
  · subst hcall
    by_contra hno
    have hin := hi hno
    refine hne (funext fun i => HeartbeatSlot.ext (hin.timestampNs i) (hin.sequence i) ?_)
    rcases hin.active i with he | ⟨_, _, hcall, -⟩
    · exact he
    · cases hcall

/-- A renewal up to clock reading 30 lets a call at 30 through. -/
theorem exact_admission_inclusive :
    ∃ m m', mappingAfter ⟨7, 100⟩ 1000 [] (fun _ => 0)
        [.attach 0, .release, .call 5 (.heartbeat .main), .renew 10 20] = some m ∧
      mappingAfter ⟨7, 100⟩ 1000 [] (fun _ => 0)
        [.attach 0, .release, .call 5 (.heartbeat .main), .renew 10 20,
          .call 30 (.breadcrumb ⟨1, 0, 2, 3, 4⟩)] = some m' ∧
      m'.breadcrumbTicket = m.breadcrumbTicket + 1 := by
  obtain ⟨m, m', hm, hm', hb, -⟩ := exact_admission ⟨7, 100⟩ 1000 [] (fun _ => 0)
    [.attach 0, .release, .call 5 (.heartbeat .main), .renew 10 20] 30
    (.breadcrumb ⟨1, 0, 2, 3, 4⟩) (by decide)
  exact ⟨m, m', hm, hm', ((hb _ rfl).2 ⟨30, rfl, by decide⟩).1⟩

end Runs

end Peepbooth
