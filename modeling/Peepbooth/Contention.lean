import Peepbooth.Progress
import Peepbooth.Winners

/-! What threads cost each other that beat the same channel. A thread loses an exchange to
a winner only, and the winners of a channel are 500 ms apart. -/

namespace Peepbooth

open Schedule SeriesSpan

def BeatEvent.Within {n : Nat} (a b : Nat) : BeatEvent n → Prop
  | .access _ _ now => a ≤ now.toNat ∧ now.toNat ≤ b
  | _ => True

namespace BeatRun

variable {n : Nat} {s : BeatRun n} {i : Fin n} {index : Fin heartbeatChannelCount} {a b : Nat}
  {now : UInt64} {spurious : Bool}

/-- The thread loses the exchange of the channel with its next access. -/
def lossOf (i : Fin n) (index : Fin heartbeatChannelCount) (s : BeatRun n) : BeatEvent n → Nat
  | .access j _ _ =>
    if j = i ∧ (s.thread i).tries = some index then ((s.thread i).lost s.toShared).toNat else 0
  | _ => 0

/-- A thread wins the exchange of the channel. -/
def winOn (index : Fin heartbeatChannelCount) (s : BeatRun n) (e : BeatEvent n) : Nat :=
  ((s.step e).log.wins index).length - (s.log.wins index).length

/-- The thread has lost the exchange that it is about to try. -/
def behind (i : Fin n) (index : Fin heartbeatChannelCount) (s : BeatRun n) : Nat :=
  if (s.thread i).tries = some index then ((s.thread i).lost s.toShared).toNat else 0

theorem lost_of_tryNext (j : Fin heartbeatChannelCount) (now : UInt64) (s : Shared) :
    (Pc.tryNext j now (s.nextHeartbeatNs j)).lost s = false := by
  unfold Pc.tryNext
  split
  · rfl
  · simp [Pc.lost]

/-- A thread that tries with its next deadline has just loaded it. -/
theorem lost_of_step {pc : Pc} {spurious : Bool} {s : Shared}
    (h : ((pc.step spurious s).1).tries = some index) :
    (pc.step spurious s).1.lost (pc.step spurious s).2 = false := by
  cases pc with
  | loadNext j now => exact lost_of_tryNext j now s
  | exchangeNext j now next =>
    simp only [Pc.step] at h ⊢
    split
    · rfl
    · exact lost_of_tryNext j now s
  | _ =>
    simp only [Pc.step, Pc.admitted] at h
    (repeat' split at h) <;> cases h

theorem wins_le_access (h : Limited index s) :
    (s.log.wins index).length ≤ ((s.access i spurious now).log.wins index).length := by
  obtain ⟨value, hv, -⟩ := h.beating i
  rcases access_cases hv index spurious now with ⟨clock, hw⟩ | ⟨v, clock, hs⟩ | hk
  · rw [hw.wins, List.length_append]
    exact Nat.le_add_right _ _
  · rw [hs.wins]
  · rw [hk.wins]

theorem wins_le_step (h : Limited index s) (e : BeatEvent n) :
    (s.log.wins index).length ≤ ((s.step e).log.wins index).length := by
  cases e with
  | call j value =>
    simp only [step]
    split <;> exact le_rfl
  | access j spurious now => exact wins_le_access h
  | lease present untilNs => exact le_rfl

theorem behind_le_one (i : Fin n) (index : Fin heartbeatChannelCount) (s : BeatRun n) :
    behind i index s ≤ 1 := by
  unfold behind
  split
  · exact Bool.toNat_le _
  · exact Nat.zero_le _

theorem behind_own (s : BeatRun n) (i : Fin n) (index : Fin heartbeatChannelCount)
    (spurious : Bool) (now : UInt64) : behind i index (s.access i spurious now) = 0 := by
  have hpc : (s.access i spurious now).thread i =
      ((s.thread i).step spurious (s.sharedAt now)).1 := thread_access_self
  unfold behind
  rw [hpc]
  split
  · next h =>
    exact congrArg Bool.toNat (lost_of_step (s := s.sharedAt now) h)
  · rfl

/-- The exchange of another thread is felt only where it wins. -/
theorem behind_other {j : Fin n} (hj : j ≠ i) (spurious : Bool) (now : UInt64)
    (h : Limited index s) :
    behind i index (s.access j spurious now) ≤
      behind i index s + winOn index s (.access j spurious now) := by
  have hthread : (s.access j spurious now).thread i = s.thread i := thread_access_ne (Ne.symm hj)
  obtain ⟨value, hv, -⟩ := h.beating j
  have hsame (hn : (s.access j spurious now).nextHeartbeatNs index = s.nextHeartbeatNs index) :
      behind i index (s.access j spurious now) = behind i index s := by
    unfold behind
    rw [hthread]
    cases s.thread i with
    | exchangeNext k clock next =>
      by_cases hk : k = index
      · subst hk
        simp only [Pc.lost, hn]
      · simp [Pc.tries, hk]
    | _ => rfl
  rcases access_cases hv index spurious now with ⟨clock, hw⟩ | ⟨v, clock, hs⟩ | hk
  · have hgain : winOn index s (.access j spurious now) = 1 := by
      simp only [winOn, step, hw.wins, List.length_append, List.length_singleton]
      omega
    have hone := behind_le_one i index (s.access j spurious now)
    omega
  · rw [hsame hs.next]
    exact Nat.le_add_right _ _
  · rw [hsame hk.next]
    exact Nat.le_add_right _ _

theorem behind_step (h : Limited index s) (e : BeatEvent n) :
    behind i index (s.step e) + lossOf i index s e ≤ behind i index s + winOn index s e := by
  cases e with
  | access j spurious now =>
    by_cases hj : j = i
    · subst hj
      have hown := behind_own s j index spurious now
      simp only [step, lossOf, hown]
      simp [behind]
    · have ho := behind_other hj spurious now h
      simpa [step, lossOf, hj] using ho
  | call j value =>
    simp only [step, lossOf]
    split
    · by_cases hj : j = i
      · subst hj
        simp [behind, Pc.start, Pc.tries]
      · simp [behind, Ne.symm hj]
    · exact Nat.le_add_right _ _
  | lease present untilNs => exact Nat.le_add_right _ _

/-- What the threads have read off the clock lies between `a` and `b`. -/
structure Read (a b : Nat) (index : Fin heartbeatChannelCount) (s : BeatRun n) : Prop where
  reading : ∀ i now, (s.thread i).reading = some now → a ≤ now.toNat ∧ now.toNat ≤ b
  wins : ∀ p ∈ s.log.wins index, a ≤ p.2.toNat ∧ p.2.toNat ≤ b

theorem Read.access (h : Read a b index s) (hl : Limited index s)
    (hnow : a ≤ now.toNat ∧ now.toNat ≤ b) : Read a b index (s.access i spurious now) where
  reading k clock hk := by
    refine thread_access (P := fun pc => ∀ clock, pc.reading = some clock →
      a ≤ clock.toNat ∧ clock.toNat ≤ b) (h.reading k) (fun hi clock hc => ?_) clock hk
    rcases reading_step hc with hr | hr
    · exact hi clock hr
    · exact hr ▸ hnow
  wins p hp := by
    obtain ⟨value, hv, -⟩ := hl.beating i
    rcases access_cases hv index spurious now with ⟨clock, hw⟩ | ⟨v, clock, hs⟩ | hk
    · rw [hw.wins] at hp
      rcases List.mem_append.mp hp with hp | hp
      · exact h.wins p hp
      · rw [List.mem_singleton.mp hp]
        exact h.reading i clock (by rw [hw.before]; rfl)
    · exact h.wins p (hs.wins ▸ hp)
    · exact h.wins p (hk.wins ▸ hp)

theorem Read.step (h : Read a b index s) (hl : Limited index s) {e : BeatEvent n}
    (he : e.Within a b) : Read a b index (s.step e) := by
  cases e with
  | access j spurious now => exact h.access hl he
  | lease present untilNs => exact ⟨h.reading, h.wins⟩
  | call j value =>
    simp only [BeatRun.step]
    split
    · refine ⟨fun k now hk => ?_, h.wins⟩
      by_cases hkj : k = j
      · subst hkj
        simp [Pc.start, Pc.reading] at hk
      · exact h.reading k now (by simpa [hkj] using hk)
    · exact h

theorem Spaced.length_le (h : Spaced index s) (hr : Read a b index s) :
    (s.log.wins index).length ≤ (b - a) / 500000000 + 1 := by
  have hinc : Increasing (fun p : Fin n × UInt64 => p.2.toNat) (s.log.wins index) :=
    h.imp fun {p q} hpq => show p.2.toNat < q.2.toNat by omega
  have hchain := h.isChain.imp (S := fun p q => 500000000 ≤ 1 * (q.2.toNat - p.2.toNat))
    fun _ _ hpq => by omega
  have hspan := le_span (f := fun p : Fin n × UInt64 => p.2.toNat) hinc hchain
  have hle : span (fun p : Fin n × UInt64 => p.2.toNat) (s.log.wins index) ≤ b - a := by
    have hwins := hr.wins
    cases hl : s.log.wins index with
    | nil => exact Nat.zero_le _
    | cons p l =>
      rw [hl] at hwins
      have hfirst := hwins p List.mem_cons_self
      have hlast := hwins _ (List.getLast_mem (List.cons_ne_nil p l))
      simp only [span]
      omega
  omega

/-- However many threads beat a channel, and in whatever order: in a time span `b - a` it
is won once for every 500 ms that have begun, and no thread loses its exchange more often. -/
theorem losses_le (n : Nat) {mem : SharedState} (hf : mem.Fresh)
    (index : Fin heartbeatChannelCount) {a b : Nat} (hb : b + 500000000 < 2 ^ 64)
    {es : List (BeatEvent n)} (hes : ∀ e ∈ es, e.Within a b) (i : Fin n) :
    total step (lossOf i index) (started n mem) es ≤
        ((run step (started n mem) es).log.wins index).length ∧
      ((run step (started n mem) es).log.wins index).length ≤ (b - a) / 500000000 + 1 := by
  have hbounded (e : BeatEvent n) (he : e.Within a b) : e.Bounded := by
    cases e with
    | access j spurious now =>
      have hnow := he.2
      simp only [BeatEvent.Bounded]
      omega
    | call | lease => trivial
  have hstart : Read a b index (started n mem) :=
    ⟨fun _ _ h => (by cases h), fun _ h => (by cases h)⟩
  have hrun : Always step (fun s => Limited index s ∧ Read a b index s) (started n mem) es :=
    always_of_permits (G := fun _ e => e.Within a b)
      (fun s e hs he => ⟨hs.1.step (hbounded e he), hs.2.step hs.1 he⟩)
      ⟨.init hf index, hstart⟩ (permits_of_forall fun e he _ => hes e he)
  have hlimited := permits_of_always (hrun.imp fun _ hs => hs.1)
  have hwon : total step (winOn index) (started n mem) es + 0 =
      ((run step (started n mem) es).log.wins index).length :=
    total_gain (f := fun s : BeatRun n => (s.log.wins index).length)
      (hlimited.imp fun s e hs => wins_le_step hs.1 e)
  have hloss : total step (lossOf i index) (started n mem) es +
        behind i index (run step (started n mem) es) ≤
      0 + total step (winOn index) (started n mem) es :=
    total_add_potential_le (hlimited.imp fun s e hs => behind_step hs.1 e)
  exact ⟨by omega, hrun.last.1.spaced.length_le hrun.last.2⟩

theorem losses_le_contest :
    total step (lossOf 1 0) (started 2 {}) (contest 0 1) = 1 ∧
    (total step (lossOf 1 0) (started 2 {}) (contest 0 1) ≤
        ((run step (started 2 {}) (contest 0 1)).log.wins 0).length ∧
      ((run step (started 2 {}) (contest 0 1)).log.wins 0).length ≤
        (1200000000 - 1000000000) / 500000000 + 1) :=
  ⟨by decide, losses_le 2 ⟨rfl, rfl, rfl, fun _ => rfl, fun _ => rfl⟩ 0 (by decide)
    (by simp [contest, BeatEvent.Within]) 1⟩

end BeatRun

end Peepbooth
