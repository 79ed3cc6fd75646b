import Peepbooth.Ledger

/-! How far the last published heartbeat of a channel can fall behind, when the
lease is renewed every `interval` and the channel is beaten every 100 ms. -/

namespace Peepbooth

/-- Times in ns: the watcher attached at `a` and renewed last at `r`; the channel
was beaten last at `b` and published last at `t`. The limiter is behind, or the
lease has run out on a channel that was published late in it. -/
structure Cadence (a interval r b t : Nat) : Prop where
  attached : a ≤ r
  fresh : b < max t a + 500000000 ∨
    3000000000 < interval ∧ (r + 2900000000 < max t a + 500000000 ∨ b ≤ r)

namespace Cadence

variable {a interval r b t now p stale : Nat}

theorem start (a interval : Nat) : Cadence a interval a a t := ⟨le_rfl, .inl (by omega)⟩

theorem publish (h : Cadence a interval r b t) (now : Nat) : Cadence a interval r now now :=
  ⟨h.attached, .inl (by omega)⟩

theorem limited (h : Cadence a interval r b t) (hn : now < t + 500000000) :
    Cadence a interval r now t :=
  ⟨h.attached, .inl (by omega)⟩

theorem inert (h : Cadence a interval r b t) (hb : now ≤ b + 100000000)
    (hr : r + 3000000000 < now) (hp : now ≤ r + interval) : Cadence a interval r now t := by
  refine ⟨h.attached, .inr ⟨by omega, .inl ?_⟩⟩
  rcases h.fresh with hf | ⟨-, hf | hf⟩ <;> omega

theorem renew (h : Cadence a interval r b t) (hr : r ≤ now) (hb : b ≤ now) :
    Cadence a interval now b t := by
  refine ⟨h.attached.trans hr, h.fresh.imp_right fun hf => ⟨hf.1, .inr hb⟩⟩

theorem recent (h : Cadence a interval r b t) (hb : r + interval ≤ b + 100000000)
    (ha : a + 1000000000 ≤ r + interval) (hs : 1000000000 ≤ stale)
    (hi : interval ≤ stale + 2400000000) : t ≠ 0 ∧ r + interval ≤ t + stale := by
  have hr := h.attached
  rcases h.fresh with hf | ⟨hl, hf | hf⟩
  · constructor <;> omega
  · constructor <;> omega
  · omega

end Cadence

/-- When the ledger has the channel published, in ns. -/
def Ledger.stamp (l : Ledger) (i : Fin heartbeatChannelCount) : Nat :=
  ((l.published i).getD 0).toNat

namespace Ledger

variable {l : Ledger} {i : Fin heartbeatChannelCount} {now : UInt64} {a interval r b : Nat}

theorem stamp_mark {index : Fin heartbeatChannelCount} {active : Bool} :
    (l.mark index active).stamp i = l.stamp i := rfl

theorem beat_until {index : Fin heartbeatChannelCount} : (l.beat index now).until_ = l.until_ := by
  unfold beat
  split <;> rfl

theorem call_until {call : Call} : (l.call now call).until_ = l.until_ := by
  cases call with
  | breadcrumb args => rfl
  | heartbeat value =>
    dsimp only [Ledger.call]
    split
    · exact beat_until
    · rfl
  | setChannelActive value active =>
    dsimp only [Ledger.call]
    split
    · split
      · exact beat_until
      · rfl
    · rfl

theorem stamp_beat_of_ne {index : Fin heartbeatChannelCount} (h : i ≠ index) :
    (l.beat index now).stamp i = l.stamp i := by
  unfold beat
  split
  · simp [stamp, publish, h]
  · rfl

theorem not_due (h : l.due i now = false) {r : Nat}
    (hu : l.until_ = some (min (r + 3000000000) (2 ^ 64 - 1))) :
    r + 3000000000 < now.toNat ∨ now.toNat < l.stamp i + 500000000 := by
  by_contra hn
  rw [not_or, Nat.not_lt, Nat.not_lt] at hn
  refine Bool.eq_false_iff.mp h (due_eq.mpr ⟨⟨_, hu, ?_⟩, fun t ht => ?_⟩)
  · have := now.toNat_lt
    omega
  · have hs : l.stamp i = t.toNat := by rw [stamp, ht, Option.getD_some]
    have hm : minimumIntervalNs.toNat = 500000000 := by decide
    have := now.toNat_lt
    rw [UInt64.le_iff_toNat_le, UInt64.toNat_add, hm]
    omega

theorem cadence_beat (h : Cadence a interval r b (l.stamp i))
    (hu : l.until_ = some (min (r + 3000000000) (2 ^ 64 - 1)))
    (hb : now.toNat ≤ b + 100000000) (hp : now.toNat ≤ r + interval) :
    Cadence a interval r now.toNat ((l.beat i now).stamp i) := by
  unfold beat
  split
  · simpa [stamp, Ledger.publish] using h.publish now.toNat
  · next hd =>
    rcases not_due (by simpa using hd) hu with hr | hl
    · exact h.inert hb hr hp
    · exact h.limited hl

theorem cadence_call {beats : Beats} {beat : UInt64} {call : Call} (hbeat : beats i = some beat)
    (h : Cadence a interval r beat.toNat (l.stamp i))
    (hu : l.until_ = some (min (r + 3000000000) (2 ^ 64 - 1)))
    (hb : now.toNat ≤ beat.toNat + 100000000) (hp : now.toNat ≤ r + interval)
    (hact : (l.call now call).active i = true) :
    ∃ beat', beats.record (.call now call) i = some beat' ∧ (beat' = beat ∨ beat' = now) ∧
      Cadence a interval r beat'.toNat ((l.call now call).stamp i) := by
  cases call with
  | breadcrumb args => exact ⟨beat, hbeat, .inl rfl, h⟩
  | heartbeat value =>
    by_cases hv : channelIndex value < heartbeatChannelCount
    case neg =>
      exact ⟨beat, by simp [Beats.record, hv, hbeat], .inl rfl, by simpa [call, hv] using h⟩
    by_cases hi : i = ⟨channelIndex value, hv⟩
    · subst hi
      refine ⟨now, by simp [Beats.record, hv, hbeat], .inr rfl, ?_⟩
      simpa [call, hv] using cadence_beat h hu hb hp
    · refine ⟨beat, by simp [Beats.record, hv, hi, hbeat], .inl rfl, ?_⟩
      simpa [call, hv, stamp_beat_of_ne hi] using h
  | setChannelActive value active =>
    by_cases hv : channelIndex value < heartbeatChannelCount
    case neg =>
      exact ⟨beat, by simp [Beats.record, hv, hbeat], .inl rfl, by simpa [call, hv] using h⟩
    by_cases hi : i = ⟨channelIndex value, hv⟩
    · subst hi
      cases active with
      | false => simp [call, hv, mark] at hact
      | true =>
        refine ⟨now, by simp [Beats.record, hv], .inr rfl, ?_⟩
        simpa [call, hv] using cadence_beat (l := l.mark ⟨channelIndex value, hv⟩ true) h hu hb hp
    · refine ⟨beat, by simp [Beats.record, hv, hi, hbeat], .inl rfl, ?_⟩
      cases active with
      | false => simpa [call, hv, stamp_mark] using h
      | true => simpa [call, hv, stamp_beat_of_ne hi, stamp_mark] using h

end Ledger

end Peepbooth
