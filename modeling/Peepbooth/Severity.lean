import Peepbooth.Health

/-! The verdicts by severity. Evidence that is no older never makes one worse. -/

namespace Peepbooth

/-- The rank of a verdict. To await a first heartbeat is not a matter of evidence. -/
def Health.rank : Health → Nat
  | .awaitingHeartbeat | .healthy => 0
  | .degraded => 1
  | .guiStalled => 2
  | .globallyStalledIdle | .globallyStalledBusy => 3

/-- The entries of a snapshot, each with the id of its index. -/
def WatchdogSnapshot.InOrder (w : WatchdogSnapshot) : Prop :=
  w.heartbeats.map HeartbeatSnapshot.id = [.main, .gui, .core, .worker]

/-- The same channel, with a beat that is no older where the channel is active. -/
def HeartbeatSnapshot.NoOlder (h h' : HeartbeatSnapshot) : Prop :=
  h.active = h'.active ∧ (h.active = true → h.timestampNs ≤ h'.timestampNs)

variable {w w' : WatchdogSnapshot} {now now' staleAfter staleAfter' : UInt64}

/-- A beat that was current is so at an earlier time, under a longer threshold. -/
theorem HeartbeatSnapshot.NoOlder.stale_eq_false {h h' : HeartbeatSnapshot} (hno : h.NoOlder h')
    (ha : h.active = true) (hn : now' ≤ now) (hs : staleAfter ≤ staleAfter')
    (hc : h.stale now staleAfter = false) : h'.stale now' staleAfter' = false := by
  have ht := UInt64.le_iff_toNat_le.mp (hno.2 ha)
  have hn := UInt64.le_iff_toNat_le.mp hn
  have hs := UInt64.le_iff_toNat_le.mp hs
  have hz : h.timestampNs ≠ 0 := by
    intro hz
    simp [stale, hz] at hc
  have hz' : h'.timestampNs ≠ 0 := by
    intro hz'
    rw [hz'] at ht
    exact hz (UInt64.toNat_inj.mp (Nat.le_zero.mp ht))
  by_cases hle : h'.timestampNs ≤ now'
  · have hle' := UInt64.le_iff_toNat_le.mp hle
    have hcle : h.timestampNs ≤ now := UInt64.le_iff_toNat_le.mpr (by omega)
    have hage := UInt64.le_iff_toNat_le.mp ((Peepbooth.stale_eq_false hcle).mp hc).2
    rw [UInt64.toNat_sub_of_le _ _ hcle] at hage
    refine (Peepbooth.stale_eq_false hle).mpr ⟨hz', UInt64.le_iff_toNat_le.mpr ?_⟩
    rw [UInt64.toNat_sub_of_le _ _ hle]
    omega
  · simp [stale, hz', hle]

namespace Evidence

variable {e : Evidence} {cpu : ℚ}

theorem verdict_awaiting : e.verdict cpu = .awaitingHeartbeat ↔ e.anyActive = false := by
  unfold verdict
  cases e.anyActive with
  | false => simp
  | true =>
    cases e.guiActive && e.guiStale && e.nonGuiCurrent with
    | true => simp
    | false =>
      cases e.anyCurrent with
      | false => by_cases hc : cpu ≥ 20 <;> simp [hc]
      | true => cases e.anyStale <;> simp

theorem rank_le_two (ha : e.anyActive = true)
    (hn : e.nonGuiCurrent = true → e.anyCurrent = true) :
    (e.verdict cpu).rank ≤ 2 ↔ e.anyCurrent = true := by
  unfold verdict
  cases hc : e.anyCurrent with
  | true =>
    cases e.guiActive && e.guiStale && e.nonGuiCurrent <;> cases e.anyStale <;>
      simp [ha, Health.rank]
  | false =>
    have hng : e.nonGuiCurrent = false := Bool.eq_false_iff.mpr fun h => by simpa [hc] using hn h
    by_cases hb : cpu ≥ 20 <;> simp [ha, hng, hb, Health.rank]

end Evidence

theorem rank_le_zero {v : Health} (hv : v ≠ .awaitingHeartbeat) : v.rank ≤ 0 ↔ v = .healthy := by
  cases v <;> simp_all [Health.rank]

theorem rank_le_one (v : Health) : v.rank ≤ 1 ↔ v.stalled = false := by
  cases v <;> simp [Health.rank, Health.stalled]

theorem classifyHealth_awaiting (w : WatchdogSnapshot) (now staleAfter : UInt64) (cpu : ℚ) :
    classifyHealth w now staleAfter cpu = .awaitingHeartbeat ↔
      ∀ h ∈ w.heartbeats, h.active = false := by
  rw [classifyHealth, Evidence.verdict_awaiting, ← Bool.not_eq_true, Evidence.foldl_anyActive]
  simp

theorem classifyHealth_rank_le_two {cpu : ℚ} (ha : ∃ h ∈ w.heartbeats, h.active = true) :
    (classifyHealth w now staleAfter cpu).rank ≤ 2 ↔
      ∃ h ∈ w.heartbeats, h.active = true ∧ h.stale now staleAfter = false := by
  rw [classifyHealth, Evidence.rank_le_two (Evidence.foldl_anyActive.mpr (.inr ha)),
    Evidence.foldl_anyCurrent]
  · simp
  · rw [Evidence.foldl_nonGuiCurrent, Evidence.foldl_anyCurrent]
    rintro (h | ⟨h, hh, hact, -, hc⟩)
    · cases h
    · exact .inr ⟨h, hh, hact, hc⟩

theorem WatchdogSnapshot.InOrder.split (hw : w.InOrder) :
    ∃ m g c k, w.heartbeats = [m, g, c, k] ∧ m.id = .main ∧ g.id = .gui ∧ c.id = .core ∧
      k.id = .worker := by
  unfold InOrder at hw
  rcases h : w.heartbeats with _ | ⟨m, _ | ⟨g, _ | ⟨c, _ | ⟨k, _ | ⟨x, l⟩⟩⟩⟩⟩
  all_goals simp_all

/-- Where some channel is active, a verdict that is no stall is one of a current beat,
the gui's among them. -/
theorem classifyHealth_rank_le_one {cpu : ℚ} {m g c k : HeartbeatSnapshot} (hw : w.InOrder)
    (hl : w.heartbeats = [m, g, c, k]) (ha : ∃ h ∈ w.heartbeats, h.active = true) :
    (classifyHealth w now staleAfter cpu).rank ≤ 1 ↔
      (∃ h ∈ w.heartbeats, h.active = true ∧ h.stale now staleAfter = false) ∧
        (g.active = true → g.stale now staleAfter = false) := by
  have hids := hw
  rw [WatchdogSnapshot.InOrder, hl] at hids
  simp only [List.map_cons, List.map_nil, List.cons.injEq, and_true] at hids
  obtain ⟨hm, hg, hc, hk⟩ := hids
  have hsplit : w.heartbeats = [m] ++ g :: [c, k] := hl
  rw [rank_le_one, classifyHealth_stalled hsplit hg]
  · refine or_iff_right fun hnone => ?_
    obtain ⟨h, hh, hact⟩ := ha
    rw [hnone h hh] at hact
    cases hact
  · intro h hh
    rw [List.mem_singleton.mp hh, hm]
    decide
  · intro h hh
    rcases List.mem_pair.mp hh with rfl | rfl
    · rw [hc]
      decide
    · rw [hk]
      decide

theorem active_of_noOlder (hno : List.Forall₂ HeartbeatSnapshot.NoOlder w.heartbeats w'.heartbeats)
    (ha : ∃ h ∈ w.heartbeats, h.active = true) : ∃ h ∈ w'.heartbeats, h.active = true := by
  obtain ⟨h, hh, hact⟩ := ha
  obtain ⟨i, hi, rfl⟩ := List.getElem_of_mem hh
  have hi' : i < w'.heartbeats.length := hno.length_eq ▸ hi
  exact ⟨w'.heartbeats[i], List.getElem_mem _, (hno.get hi hi').1 ▸ hact⟩

theorem current_of_noOlder
    (hno : List.Forall₂ HeartbeatSnapshot.NoOlder w.heartbeats w'.heartbeats)
    (hn : now' ≤ now) (hs : staleAfter ≤ staleAfter')
    (h : ∃ h ∈ w.heartbeats, h.active = true ∧ h.stale now staleAfter = false) :
    ∃ h ∈ w'.heartbeats, h.active = true ∧ h.stale now' staleAfter' = false := by
  obtain ⟨h, hh, hact, hc⟩ := h
  obtain ⟨i, hi, rfl⟩ := List.getElem_of_mem hh
  have hi' : i < w'.heartbeats.length := hno.length_eq ▸ hi
  have hr := hno.get hi hi'
  exact ⟨w'.heartbeats[i], List.getElem_mem _, hr.1 ▸ hact, hr.stale_eq_false hact hn hs hc⟩

theorem all_current_of_noOlder
    (hno : List.Forall₂ HeartbeatSnapshot.NoOlder w.heartbeats w'.heartbeats)
    (hn : now' ≤ now) (hs : staleAfter ≤ staleAfter')
    (h : ∀ h ∈ w.heartbeats, h.active = true → h.stale now staleAfter = false) :
    ∀ h ∈ w'.heartbeats, h.active = true → h.stale now' staleAfter' = false := by
  intro h' hh' hact
  obtain ⟨i, hi', rfl⟩ := List.getElem_of_mem hh'
  have hi : i < w.heartbeats.length := hno.length_eq ▸ hi'
  have hr := hno.get hi hi'
  have ha : w.heartbeats[i].active = true := hr.1.trans hact
  exact hr.stale_eq_false ha hn hs (h _ (List.getElem_mem _) ha)

/-- A snapshot with no older beats, judged no later under no shorter a threshold,
gets a verdict that is no worse. -/
theorem classifyHealth_rank_mono :
    (∀ (w w' : WatchdogSnapshot) (now now' staleAfter staleAfter' : UInt64) (cpu cpu' : ℚ),
      w.InOrder → w'.InOrder →
      List.Forall₂ HeartbeatSnapshot.NoOlder w.heartbeats w'.heartbeats →
      (∃ h ∈ w.heartbeats, h.active = true) → now' ≤ now → staleAfter ≤ staleAfter' →
      (classifyHealth w' now' staleAfter' cpu').rank ≤
        (classifyHealth w now staleAfter cpu).rank) ∧
    ∀ (w : WatchdogSnapshot) (now staleAfter : UInt64) (cpu : ℚ),
      classifyHealth w now staleAfter cpu = .awaitingHeartbeat ↔
        ∀ h ∈ w.heartbeats, h.active = false := by
  refine ⟨?_, classifyHealth_awaiting⟩
  intro w w' now now' staleAfter staleAfter' cpu cpu' hw hw' hno ha hn hs
  have ha' := active_of_noOlder hno ha
  obtain ⟨m, g, c, k, hl, -⟩ := hw.split
  obtain ⟨m', g', c', k', hl', -⟩ := hw'.split
  have hgui : g.NoOlder g' := by
    rw [hl, hl'] at hno
    cases hno with
    | cons _ hno => cases hno with
      | cons hg _ => exact hg
  rcases hr : (classifyHealth w now staleAfter cpu).rank with _ | _ | _ | n
  · have hne : classifyHealth w now staleAfter cpu ≠ .awaitingHeartbeat := by
      intro hv
      obtain ⟨h, hh, hact⟩ := ha
      rw [(classifyHealth_awaiting w now staleAfter cpu).mp hv h hh] at hact
      cases hact
    have hall := (classifyHealth_eq_healthy.mp ((rank_le_zero hne).mp hr.le)).2
    rw [classifyHealth_eq_healthy.mpr ⟨ha', all_current_of_noOlder hno hn hs hall⟩]
    exact Nat.le_refl 0
  · obtain ⟨hcur, hg⟩ := (classifyHealth_rank_le_one hw hl ha).mp hr.le
    refine (classifyHealth_rank_le_one hw' hl' ha').mpr
      ⟨current_of_noOlder hno hn hs hcur, fun hact => ?_⟩
    have hact' := hgui.1.trans hact
    exact hgui.stale_eq_false hact' hn hs (hg hact')
  · have hcur := (classifyHealth_rank_le_two ha).mp hr.le
    exact (classifyHealth_rank_le_two ha').mpr (current_of_noOlder hno hn hs hcur)
  · cases classifyHealth w' now' staleAfter' cpu' <;> simp [Health.rank]

theorem classifyHealth_rank_mono_gui :
    let entry := fun (c : Channel) (t : UInt64) => HeartbeatSnapshot.mk c true t 1
    let w : WatchdogSnapshot := { heartbeats :=
      [entry .main 50, entry .gui 0, entry .core 0, entry .worker 90] }
    let w' : WatchdogSnapshot := { heartbeats :=
      [entry .main 60, entry .gui 200, entry .core 0, entry .worker 90] }
    (classifyHealth w' 100 40 0).rank ≤ (classifyHealth w 110 30 50).rank :=
  classifyHealth_rank_mono.1 _ _ 110 100 30 40 50 0 rfl rfl
    (by simp [HeartbeatSnapshot.NoOlder]) ⟨_, List.mem_cons_self, rfl⟩ (by decide) (by decide)

end Peepbooth
