import Peepbooth.BeatRun
import Peepbooth.SeriesSpan

/-! The winners of a channel's exchange. They are at least 500 ms apart by their own
clock readings, in the order in which they win, and each of them publishes once. -/

namespace Peepbooth

open Schedule InHand SeriesSpan

theorem Pc.owes_of_publishing {pc : Pc} {index : Fin heartbeatChannelCount} {v : BeatStore}
    {now : UInt64} (h : pc.publishing index = some (v, now)) (w : BeatStore) :
    pc.owes index w = if v.rank ≤ w.rank then some now else none := by
  rw [owes, h, Option.bind_some]

theorem Pc.owes_of_published {pc : Pc} {index : Fin heartbeatChannelCount} {v : BeatStore}
    {now : UInt64} (h : pc.publishing index = v.next.map (·, now)) (w : BeatStore) :
    pc.owes index w = if v.rank < w.rank then some now else none := by
  rw [owes, h]
  cases v <;> cases w <;> rfl

theorem Pc.owes_of_none {pc : Pc} {index : Fin heartbeatChannelCount}
    (h : pc.publishing index = none) (w : BeatStore) : pc.owes index w = none := by
  rw [owes, h, Option.bind_none]

theorem Pc.index_of_publishing {pc : Pc} {value : Channel} {index : Fin heartbeatChannelCount}
    {p : BeatStore × UInt64} (hb : pc.Beats value) (h : pc.publishing index = some p) :
    channelIndex value = index.val := by
  cases pc with
  | storeActive j | storeTimestamp j | addSequence j =>
    simp only [Pc.publishing] at h
    split at h
    · next hj => exact hj ▸ hb
    · cases h
  | _ => cases h

namespace BeatRun

variable {n : Nat} {s t : BeatRun n} {i : Fin n} {spurious : Bool} {clock now : UInt64}
  {index : Fin heartbeatChannelCount} {v w : BeatStore}

theorem owing_access (s : BeatRun n) (i : Fin n) (spurious : Bool) (clock : UInt64)
    (index : Fin heartbeatChannelCount) (w : BeatStore) :
    ∃ rest, (owing index w s).Perm ((((s.thread i).owes index w).map (i, ·)).toList ++ rest) ∧
      (owing index w (s.access i spurious clock)).Perm
        (((((s.access i spurious clock).thread i).owes index w).map (i, ·)).toList ++ rest) := by
  refine ⟨_, inHand_perm _ i, ?_⟩
  have hf : (fun k => (((s.access i spurious clock).thread k).owes index w).map (k, ·)) =
      Function.update (fun k => ((s.thread k).owes index w).map (k, ·)) i
        ((((s.access i spurious clock).thread i).owes index w).map (i, ·)) := by
    funext k
    by_cases hk : k = i
    · subst hk
      rw [Function.update_self]
    · rw [Function.update_of_ne hk, thread_access_ne hk]
  rw [owing, hf]
  exact inHand_update _ i _

/-- Every winner has made the store or owes it. -/
def Published (index : Fin heartbeatChannelCount) (w : BeatStore) (s : BeatRun n) : Prop :=
  (s.log.wins index).Perm (s.log.stored w index ++ owing index w s)

theorem Won.published (h : Won index i now s (s.access i spurious clock))
    (hp : Published index w s) : Published index w (s.access i spurious clock) := by
  obtain ⟨rest, hs, ht⟩ := owing_access s i spurious clock index w
  rw [Pc.owes_of_none (by rw [h.before]; rfl)] at hs
  rw [Pc.owes_of_publishing h.after, if_pos (show BeatStore.active.rank ≤ w.rank from
    Nat.zero_le _)] at ht
  have hwins := (hp.trans (hs.append_left _)).append_right [(i, now)]
  rw [List.append_assoc] at hwins
  rw [Published, h.wins, h.stored]
  refine hwins.trans (List.Perm.append_left _ ?_)
  exact (List.perm_append_singleton _ _).trans ht.symm

theorem Stored.published (h : Stored index i v now s (s.access i spurious clock))
    (hp : Published index w s) : Published index w (s.access i spurious clock) := by
  obtain ⟨rest, hs, ht⟩ := owing_access s i spurious clock index w
  rw [Pc.owes_of_publishing h.before] at hs
  rw [Pc.owes_of_published h.after] at ht
  rw [Published, h.wins, h.stored]
  have hwins := hp.trans (hs.append_left _)
  by_cases hw : w = v
  · subst hw
    rw [if_pos le_rfl] at hwins
    rw [if_neg (lt_irrefl _)] at ht
    rw [if_pos rfl, List.append_assoc]
    exact hwins.trans (List.Perm.append_left _ (ht.symm.cons _))
  · have hr : v.rank ≤ w.rank ↔ v.rank < w.rank := by
      revert hw
      cases v <;> cases w <;> decide
    simp only [hr] at hwins
    rw [if_neg hw]
    exact hwins.trans (List.Perm.append_left _ ht.symm)

theorem Kept.published (h : Kept index i s (s.access i spurious clock))
    (hp : Published index w s) : Published index w (s.access i spurious clock) := by
  obtain ⟨rest, hs, ht⟩ := owing_access s i spurious clock index w
  rw [Pc.owes_of_none h.before] at hs
  rw [Pc.owes_of_none h.after] at ht
  rw [Published, h.wins, h.stored]
  exact hp.trans (List.Perm.append_left _ (hs.trans ht.symm))

/-- The readings of the winners, in the order in which they win, are 500 ms apart. -/
def Spaced (index : Fin heartbeatChannelCount) (s : BeatRun n) : Prop :=
  (s.log.wins index).Pairwise fun a b => a.2.toNat + 500000000 ≤ b.2.toNat

theorem Spaced.length_lt (h : Spaced index s) : (s.log.wins index).length < 2 ^ 64 := by
  have hinc : Increasing (fun a : Fin n × UInt64 => a.2.toNat) (s.log.wins index) :=
    h.imp fun {a b} hab => show a.2.toNat < b.2.toNat by omega
  have hchain := h.isChain.imp (S := fun p q => 500000000 ≤ 1 * (q.2.toNat - p.2.toNat))
    fun _ _ hab => by omega
  have hspan := le_span (f := fun a : Fin n × UInt64 => a.2.toNat) hinc hchain
  have hle : span (fun a : Fin n × UInt64 => a.2.toNat) (s.log.wins index) < 2 ^ 64 := by
    cases s.log.wins index with
    | nil => exact Nat.two_pow_pos 64
    | cons a l =>
      have := ((a :: l).getLast (List.cons_ne_nil a l)).2.toNat_lt
      simp only [span]
      omega
  omega

/-- Every thread is somewhere in a heartbeat of the channel that it has called. -/
def Beating (s : BeatRun n) : Prop :=
  ∀ i, ∃ value, (s.thread i).Beats value ∧ (s.thread i = .idle ∨ s.log.calling i = some value)

/-- What holds of every channel in every state. -/
structure Limited (index : Fin heartbeatChannelCount) (s : BeatRun n) : Prop where
  beating : Beating s
  reading : ∀ i now, (s.thread i).reading = some now → now.toNat + 500000000 < 2 ^ 64
  exchange : ∀ i j now next, s.thread i = .exchangeNext j now next → next ≤ now
  deadline : ∀ a ∈ s.log.wins index,
    a.2.toNat + 500000000 ≤ (s.nextHeartbeatNs index).toNat
  spaced : Spaced index s
  published : ∀ w, Published index w s
  sequence : (s.slot index).sequence = UInt64.ofNat (s.log.stored .sequence index).length

theorem calling_access : (s.access i spurious clock).log.calling = s.log.calling := by
  rw [log_access]
  unfold BeatLog.access
  split <;> rfl

theorem thread_access {P : Pc → Prop} {k : Fin n} (hk : P (s.thread k))
    (hi : P (s.thread i) → P ((s.thread i).step spurious (s.sharedAt clock)).1) :
    P ((s.access i spurious clock).thread k) := by
  by_cases hki : k = i
  · subst hki
    rw [thread_access_self]
    exact hi hk
  · rwa [thread_access_ne hki]

theorem Beating.access (h : Beating s) (i : Fin n) (spurious : Bool) (clock : UInt64) :
    Beating (s.access i spurious clock) := by
  intro k
  obtain ⟨value, hb, hc⟩ := h k
  rw [calling_access]
  refine ⟨value, thread_access hb fun hb => beats_step hb _ _, ?_⟩
  by_cases hki : k = i
  · subst hki
    rcases hc with hc | hc
    · left
      rw [thread_access_self, hc]
      rfl
    · exact .inr hc
  · rwa [thread_access_ne hki]

theorem Beating.call (h : Beating s) (i : Fin n) (value : Channel) :
    Beating (s.step (.call i value)) := by
  simp only [step]
  split
  · intro k
    by_cases hk : k = i
    · subst hk
      exact ⟨value, by simp [Pc.start, Pc.Beats], by simp⟩
    · simpa [hk] using h k
  · exact h

theorem Beating.step (h : Beating s) (e : BeatEvent n) : Beating (s.step e) := by
  cases e with
  | call i value => exact h.call i value
  | access i spurious now => exact h.access i spurious now
  | lease present untilNs => exact h

namespace Limited

theorem reading_access (h : Limited index s) (i : Fin n) (spurious : Bool)
    (hclock : clock.toNat + 500000000 < 2 ^ 64) (k : Fin n) (now : UInt64)
    (hk : ((s.access i spurious clock).thread k).reading = some now) :
    now.toNat + 500000000 < 2 ^ 64 := by
  refine thread_access (P := fun pc => ∀ now, pc.reading = some now →
    now.toNat + 500000000 < 2 ^ 64) (h.reading k) (fun hi now hnow => ?_) now hk
  rcases reading_step hnow with hr | hr
  · exact hi now hr
  · exact hr ▸ hclock

theorem exchange_access (h : Limited index s) (i : Fin n) (spurious : Bool) (clock : UInt64)
    (k : Fin n) (j : Fin heartbeatChannelCount) (now next : UInt64)
    (hk : (s.access i spurious clock).thread k = .exchangeNext j now next) : next ≤ now :=
  thread_access (P := fun pc => ∀ j now next, pc = .exchangeNext j now next → next ≤ now)
    (h.exchange k) (fun _ _ _ _ hi => le_of_exchange hi) j now next hk

theorem won (h : Limited index s) (hw : Won index i now s t) :
    now.toNat + 500000000 < 2 ^ 64 ∧
      ∀ a ∈ s.log.wins index, a.2.toNat + 500000000 ≤ now.toNat := by
  refine ⟨h.reading i now (by rw [hw.before]; rfl), fun a ha => ?_⟩
  exact (h.deadline a ha).trans (UInt64.le_iff_toNat_le.mp (h.exchange i _ _ _ hw.before))

theorem access (h : Limited index s) (hclock : clock.toNat + 500000000 < 2 ^ 64) :
    Limited index (s.access i spurious clock) := by
  have hb := h.beating.access i spurious clock
  have hr := h.reading_access i spurious hclock
  have hx := h.exchange_access i spurious clock
  obtain ⟨value, hv, -⟩ := h.beating i
  rcases access_cases hv index spurious clock with
    ⟨now, hw⟩ | ⟨v, now, hs⟩ | hk
  · obtain ⟨hnow, hlate⟩ := h.won hw
    have hnext : (now + minimumIntervalNs).toNat = now.toNat + 500000000 := by
      rw [UInt64.toNat_add, show minimumIntervalNs.toNat = 500000000 from rfl]
      omega
    refine ⟨hb, hr, hx, ?_, ?_, fun w => hw.published (h.published w), ?_⟩
    · rw [hw.wins, hw.next, hnext]
      intro a ha
      rcases List.mem_append.mp ha with ha | ha
      · have := hlate a ha
        omega
      · rw [List.mem_singleton.mp ha]
    · rw [Spaced, hw.wins, List.pairwise_append]
      refine ⟨h.spaced, List.pairwise_singleton _ _, fun a ha b hb => ?_⟩
      rw [List.mem_singleton.mp hb]
      exact hlate a ha
    · rw [hw.slot, hw.stored]
      exact h.sequence
  · refine ⟨hb, hr, hx, ?_, ?_, fun w => hs.published (h.published w), ?_⟩
    · rw [hs.wins, hs.next]
      exact h.deadline
    · rw [Spaced, hs.wins]
      exact h.spaced
    · rw [hs.slot, hs.stored]
      cases v with
      | sequence => simp [BeatStore.apply, h.sequence, UInt64.ofNat_add]
      | _ => exact h.sequence
  · refine ⟨hb, hr, hx, ?_, ?_, fun w => hk.published (h.published w), ?_⟩
    · rw [hk.wins, hk.next]
      exact h.deadline
    · rw [Spaced, hk.wins]
      exact h.spaced
    · rw [hk.slot, hk.stored]
      exact h.sequence

theorem call (h : Limited index s) (i : Fin n) (value : Channel) :
    Limited index (s.step (.call i value)) := by
  have hb := h.beating.call i value
  simp only [BeatRun.step] at hb ⊢
  split at hb
  · next hidle =>
    have hpub (w : BeatStore) : owing index w
        { s with
          thread := Function.update s.thread i (Pc.start (.heartbeat value))
          log := { s.log with calling := Function.update s.log.calling i (some value) } } =
        owing index w s := by
      refine congrArg inHand (funext fun k => ?_)
      by_cases hk : k = i
      · subst hk
        simp only [Function.update_self, hidle]
        rfl
      · simp only [Function.update_of_ne hk]
    rw [if_pos hidle]
    refine ⟨hb, fun k now hr => ?_, fun k j now next hx => ?_, h.deadline, h.spaced,
      fun w => ?_, h.sequence⟩
    · by_cases hk : k = i
      · subst hk
        simp [Pc.start, Pc.reading] at hr
      · exact h.reading k now (by simpa [hk] using hr)
    · by_cases hk : k = i
      · subst hk
        simp [Pc.start] at hx
      · exact h.exchange k j now next (by simpa [hk] using hx)
    · rw [Published, hpub]
      exact h.published w
  · next hbusy =>
    rw [if_neg hbusy]
    exact h

theorem step (h : Limited index s) {e : BeatEvent n} (he : e.Bounded) :
    Limited index (s.step e) := by
  cases e with
  | call i value => exact h.call i value
  | access i spurious now => exact h.access he
  | lease present untilNs =>
    exact ⟨h.beating, h.reading, h.exchange, h.deadline, h.spaced, h.published, h.sequence⟩

theorem mem_wins (h : Limited index s) (hp : (s.thread i).publishing index = some (w, now)) :
    (i, now) ∈ s.log.wins index := by
  refine (h.published w).mem_iff.mpr (List.mem_append_right _ (mem_inHand (i := i) ?_))
  rw [Pc.owes_of_publishing hp, if_pos le_rfl]
  rfl

theorem sequence_add (h : Limited index s) :
    (s.slot index).sequence.toNat + (owing index .sequence s).length =
      (s.log.wins index).length := by
  have hp := (h.published .sequence).length_eq
  have hw := h.spaced.length_lt
  rw [List.length_append] at hp
  rw [h.sequence, UInt64.toNat_ofNat', Nat.mod_eq_of_lt (by omega), hp]

end Limited

/-- A freshly started client whose threads have yet to call. -/
def started (n : Nat) (mem : SharedState) : BeatRun n where
  state := true
  mapped := true
  mutex := none
  mem := mem
  nextHeartbeatNs _ := 0
  clock := 0
  thread _ := .idle
  log := {}

theorem Limited.init {mem : SharedState} (hf : mem.Fresh) (index : Fin heartbeatChannelCount) :
    Limited index (started n mem) where
  beating _ := ⟨.main, trivial, .inl rfl⟩
  reading _ _ h := absurd h (by simp [started, Pc.reading])
  exchange _ _ _ _ h := absurd h (by simp [started])
  deadline := by simp [started]
  spaced := List.Pairwise.nil
  published w := by
    have ho : owing index w (started n mem) = [] := inHand_none
    rw [Published, ho]
    exact List.Perm.refl _
  sequence := by simp [slot, started, hf.heartbeats]

/-- What a step may do to the slot of a channel and to its limiter. -/
def Orderly (index : Fin heartbeatChannelCount) (s : BeatRun n) : BeatEvent n → Prop
  | .access i spurious clock =>
    let t := s.access i spurious clock
    (match (s.thread i).publishing index with
      | none => t.slot index = s.slot index
      | some (w, now) =>
        (i, now) ∈ s.log.wins index ∧ (t.thread i).publishing index = w.next.map (·, now) ∧
          t.slot index = w.apply now (s.slot index)) ∧
    ∀ value, s.log.calling i = some value → channelIndex value ≠ index.val →
      t.slot index = s.slot index ∧ t.nextHeartbeatNs index = s.nextHeartbeatNs index ∧
        t.log.wins index = s.log.wins index
  | e =>
    (s.step e).slot index = s.slot index ∧
      (s.step e).nextHeartbeatNs index = s.nextHeartbeatNs index ∧
        (s.step e).log.wins index = s.log.wins index

theorem Limited.orderly_access (h : Limited index s) :
    Orderly index s (.access i spurious clock) := by
  obtain ⟨value, hv, hc⟩ := h.beating i
  refine ⟨?_, fun other ho hne => ?_⟩
  · rcases access_cases hv index spurious clock with
      ⟨now, hw⟩ | ⟨w, now, hs⟩ | hk
    · rw [hw.before]
      exact hw.slot
    · rw [hs.before]
      exact ⟨h.mem_wins hs.before, hs.after, hs.slot⟩
    · rw [hk.before]
      exact hk.slot
  · have hb : (s.thread i).Beats other := by
      rcases hc with hc | hc
      · rw [hc]
        trivial
      · rwa [← Option.some.inj (ho.symm.trans hc)] at hv
    rcases access_cases hb index spurious clock with
      ⟨now, hw⟩ | ⟨w, now, hs⟩ | hk
    · rw [hw.before] at hb
      exact absurd hb hne
    · exact absurd (Pc.index_of_publishing hb hs.before) hne
    · exact ⟨hk.slot, hk.next, hk.wins⟩

theorem Limited.orderly (h : Limited index s) (e : BeatEvent n) : Orderly index s e := by
  cases e with
  | call i value =>
    simp only [Orderly, BeatRun.step]
    split <;> exact ⟨rfl, rfl, rfl⟩
  | access i spurious clock => exact h.orderly_access
  | lease present untilNs => exact ⟨rfl, rfl, rfl⟩

/-- The limiter of `client::heartbeat` under any number of threads. -/
theorem heartbeat_rate_limit (n : Nat) {mem : SharedState} (hf : mem.Fresh)
    (index : Fin heartbeatChannelCount) {es : List (BeatEvent n)} (hes : ∀ e ∈ es, e.Bounded) :
    Always step (fun s => Spaced index s ∧ (∀ w, Published index w s) ∧
        (s.slot index).sequence.toNat + (owing index .sequence s).length =
          (s.log.wins index).length) (started n mem) es ∧
      Permits step (Orderly index) (started n mem) es := by
  have hrun : Always step (Limited index) (started n mem) es :=
    always_of_permits (fun s e hs he => hs.step he) (Limited.init hf index)
      (permits_of_forall fun e he s => hes e he)
  refine ⟨hrun.imp fun s hs => ⟨hs.spaced, hs.published, hs.sequence_add⟩, ?_⟩
  exact (permits_of_always hrun).imp fun s e hs => hs.1.orderly e

/-- Two threads load the same deadline, and one of them loses the exchange. -/
def contest (a b : Fin n) : List (BeatEvent n) :=
  List.flatten [[.lease 1 5000000000, .call a .main, .call b .main],
    List.replicate 7 (.access a false 1000000000),
    List.replicate 7 (.access b false 1200000000),
    [.access a true 1000000000, .access a false 1000000000, .access b false 1200000000],
    List.replicate 3 (.access a false 1000000000)]

theorem heartbeat_rate_limit_contest :
    ((run step (started 2 {}) (contest 0 1)).log.wins 0 = [(0, 1000000000)] ∧
      (run step (started 2 {}) (contest 0 1)).slot 0 = ⟨1000000000, 1, 1⟩) ∧
    Always step (fun s => Spaced 0 s ∧ (∀ w, Published 0 w s) ∧
        (s.slot 0).sequence.toNat + (owing 0 .sequence s).length = (s.log.wins 0).length)
        (started 2 {}) (contest 0 1) ∧
      Permits step (Orderly 0) (started 2 {}) (contest 0 1) :=
  ⟨by decide, heartbeat_rate_limit 2 ⟨rfl, rfl, rfl, fun _ => rfl, fun _ => rfl⟩ 0
    (by simp [contest, BeatEvent.Bounded])⟩

end BeatRun

end Peepbooth
