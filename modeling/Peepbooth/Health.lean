import Peepbooth.ObservedProcess

/-! What a verdict says about the heartbeats it was reached on. -/

namespace Peepbooth

namespace Evidence

variable {now staleAfter : UInt64} {e : Evidence} {hs : List HeartbeatSnapshot}

theorem foldl_anyActive :
    (hs.foldl (add now staleAfter) e).anyActive = true ↔
      e.anyActive = true ∨ ∃ h ∈ hs, h.active = true := by
  induction hs generalizing e with
  | nil => simp
  | cons h hs ih =>
    rw [List.foldl_cons, ih]
    cases ha : h.active <;> by_cases hg : h.id = Channel.gui <;> simp [add, ha, hg]

theorem foldl_anyStale :
    (hs.foldl (add now staleAfter) e).anyStale = true ↔
      e.anyStale = true ∨ ∃ h ∈ hs, h.active = true ∧ h.stale now staleAfter = true := by
  induction hs generalizing e with
  | nil => simp
  | cons h hs ih =>
    rw [List.foldl_cons, ih]
    cases ha : h.active <;> by_cases hg : h.id = Channel.gui <;> simp [add, ha, hg, or_assoc]

theorem foldl_anyCurrent :
    (hs.foldl (add now staleAfter) e).anyCurrent = true ↔
      e.anyCurrent = true ∨ ∃ h ∈ hs, h.active = true ∧ h.stale now staleAfter = false := by
  induction hs generalizing e with
  | nil => simp
  | cons h hs ih =>
    rw [List.foldl_cons, ih]
    cases ha : h.active <;> by_cases hg : h.id = Channel.gui <;> simp [add, ha, hg, or_assoc]

theorem foldl_guiStale (he : e.guiStale = true → e.anyStale = true) :
    (hs.foldl (add now staleAfter) e).guiStale = true →
      (hs.foldl (add now staleAfter) e).anyStale = true := by
  induction hs generalizing e with
  | nil => exact he
  | cons h hs ih =>
    rw [List.foldl_cons]
    apply ih
    cases ha : h.active <;> by_cases hg : h.id = Channel.gui <;> simp_all [add]

theorem foldl_nonGuiCurrent :
    (hs.foldl (add now staleAfter) e).nonGuiCurrent = true ↔
      e.nonGuiCurrent = true ∨
        ∃ h ∈ hs, h.active = true ∧ h.id ≠ Channel.gui ∧ h.stale now staleAfter = false := by
  induction hs generalizing e with
  | nil => simp
  | cons h hs ih =>
    rw [List.foldl_cons, ih]
    cases ha : h.active <;> by_cases hg : h.id = Channel.gui <;> simp [add, ha, hg, or_assoc]

theorem foldl_gui_of_ne (h : ∀ h ∈ hs, h.id ≠ Channel.gui) :
    (hs.foldl (add now staleAfter) e).guiActive = e.guiActive ∧
      (hs.foldl (add now staleAfter) e).guiStale = e.guiStale := by
  induction hs generalizing e with
  | nil => exact ⟨rfl, rfl⟩
  | cons h' hs ih =>
    rw [List.forall_mem_cons] at h
    rw [List.foldl_cons, (ih h.2).1, (ih h.2).2]
    cases ha : h'.active <;> simp [add, ha, h.1]

theorem verdict_eq_healthy {cpu : ℚ} (hg : e.guiStale = true → e.anyStale = true) :
    e.verdict cpu = .healthy ↔
      e.anyActive = true ∧ e.anyCurrent = true ∧ e.anyStale = false := by
  unfold verdict
  cases e.anyActive with
  | false => simp
  | true =>
    cases hs : e.anyStale with
    | false =>
      have hgui : e.guiStale = false := Bool.eq_false_iff.mpr fun h => by simpa [hs] using hg h
      cases e.anyCurrent with
      | false => by_cases hc : cpu ≥ 20 <;> simp [hgui, hc]
      | true => simp [hgui]
    | true =>
      cases e.guiActive && e.guiStale && e.nonGuiCurrent with
      | true => simp
      | false =>
        cases e.anyCurrent with
        | false => by_cases hc : cpu ≥ 20 <;> simp [hc]
        | true => simp

theorem foldl_guiStale_mem :
    (hs.foldl (add now staleAfter) e).guiStale = true →
      e.guiStale = true ∨
        ∃ h ∈ hs, h.active = true ∧ h.id = Channel.gui ∧ h.stale now staleAfter = true := by
  induction hs generalizing e with
  | nil => exact .inl
  | cons h hs ih =>
    intro hg
    rcases ih hg with hh | ⟨h', hm, hh⟩
    · cases ha : h.active <;> by_cases hid : h.id = Channel.gui <;>
        simp [add, ha, hid] at hh <;> simp [ha, hid, hh]
    · exact .inr ⟨h', List.mem_cons_of_mem _ hm, hh⟩

/-- What a verdict rests on. -/
theorem verdict_spec (e : Evidence) (cpu : ℚ) :
    match e.verdict cpu with
    | .awaitingHeartbeat => e.anyActive = false
    | .healthy => e.anyActive = true ∧ e.anyCurrent = true ∧ e.anyStale = false
    | .degraded => e.anyCurrent = true ∧ e.anyStale = true
    | .guiStalled => e.guiStale = true ∧ e.nonGuiCurrent = true
    | .globallyStalledIdle => e.anyActive = true ∧ e.anyCurrent = false ∧ cpu < 20
    | .globallyStalledBusy => e.anyActive = true ∧ e.anyCurrent = false ∧ 20 ≤ cpu := by
  unfold verdict
  cases e.anyActive with
  | false => simp
  | true =>
    cases hg : e.guiActive && e.guiStale && e.nonGuiCurrent with
    | true =>
      simp only [Bool.and_eq_true] at hg
      simpa using ⟨hg.1.2, hg.2⟩
    | false =>
      cases e.anyCurrent with
      | true => cases e.anyStale <;> simp
      | false =>
        by_cases hcpu : 20 ≤ cpu
        · simp [hcpu]
        · simp [hcpu, lt_of_not_ge hcpu]

end Evidence

theorem classifyHealth_eq_healthy {w : WatchdogSnapshot} {now staleAfter : UInt64} {cpu : ℚ} :
    classifyHealth w now staleAfter cpu = .healthy ↔
      (∃ h ∈ w.heartbeats, h.active = true) ∧
        ∀ h ∈ w.heartbeats, h.active = true → h.stale now staleAfter = false := by
  rw [classifyHealth, Evidence.verdict_eq_healthy (Evidence.foldl_guiStale (by simp)),
    Evidence.foldl_anyActive, Evidence.foldl_anyCurrent, ← Bool.not_eq_true,
    Evidence.foldl_anyStale]
  constructor
  · rintro ⟨ha, -, hst⟩
    refine ⟨by simpa using ha, fun h hh hact => ?_⟩
    by_contra hc
    exact hst (.inr ⟨h, hh, hact, by simpa using hc⟩)
  · rintro ⟨⟨h, hh, ha⟩, hst⟩
    refine ⟨.inr ⟨h, hh, ha⟩, .inr ⟨h, hh, ha, hst h hh ha⟩, ?_⟩
    rintro (hf | ⟨h', hh', ha', hs'⟩)
    · cases hf
    · simp [hst h' hh' ha'] at hs'

def Health.stalled : Health → Bool
  | .guiStalled | .globallyStalledIdle | .globallyStalledBusy => true
  | _ => false

theorem Evidence.verdict_stalled {e : Evidence} {cpu : ℚ} :
    (e.verdict cpu).stalled = false ↔ e.anyActive = false ∨
      e.anyCurrent = true ∧ (e.guiActive && e.guiStale && e.nonGuiCurrent) = false := by
  unfold verdict
  cases e.anyActive with
  | false => simp [Health.stalled]
  | true =>
    cases e.guiActive && e.guiStale && e.nonGuiCurrent with
    | true => simp [Health.stalled]
    | false =>
      cases e.anyCurrent with
      | false => by_cases hc : cpu ≥ 20 <;> simp [hc, Health.stalled]
      | true => cases e.anyStale <;> simp [Health.stalled]

/-- The heartbeats of a snapshot hold the gui channel once. -/
theorem classifyHealth_stalled {w : WatchdogSnapshot} {now staleAfter : UInt64} {cpu : ℚ}
    {l₁ l₂ : List HeartbeatSnapshot} {g : HeartbeatSnapshot} (hw : w.heartbeats = l₁ ++ g :: l₂)
    (hg : g.id = Channel.gui) (h₁ : ∀ h ∈ l₁, h.id ≠ Channel.gui)
    (h₂ : ∀ h ∈ l₂, h.id ≠ Channel.gui) :
    (classifyHealth w now staleAfter cpu).stalled = false ↔
      (∀ h ∈ w.heartbeats, h.active = false) ∨
        (∃ h ∈ w.heartbeats, h.active = true ∧ h.stale now staleAfter = false) ∧
          (g.active = true → g.stale now staleAfter = false) := by
  have hgui : (w.heartbeats.foldl (Evidence.add now staleAfter) {}).guiActive = g.active ∧
      (w.heartbeats.foldl (Evidence.add now staleAfter) {}).guiStale =
        (g.active && g.stale now staleAfter) := by
    rw [hw, List.foldl_append, List.foldl_cons, (Evidence.foldl_gui_of_ne h₂).1,
      (Evidence.foldl_gui_of_ne h₂).2]
    cases ha : g.active <;> simp [Evidence.add, ha, hg, Evidence.foldl_gui_of_ne h₁]
  rw [classifyHealth, Evidence.verdict_stalled, hgui.1, hgui.2, ← Bool.not_eq_true,
    Evidence.foldl_anyActive, Evidence.foldl_anyCurrent]
  have hnone : ¬(({} : Evidence).anyActive = true ∨ ∃ h ∈ w.heartbeats, h.active = true) ↔
      ∀ h ∈ w.heartbeats, h.active = false := by simp
  rw [hnone]
  refine or_congr_right ?_
  simp only [Bool.false_eq_true, false_or]
  refine and_congr_right ?_
  rintro ⟨h, hh, ha, hs⟩
  cases hga : g.active with
  | false => simp
  | true =>
    cases hgs : g.stale now staleAfter with
    | false => simp
    | true =>
      have hne : h.id ≠ Channel.gui := by
        intro hid
        have hgw : h = g := by
          rcases List.mem_append.mp (hw ▸ hh) with hm | hm
          · exact absurd hid (h₁ h hm)
          · rcases List.mem_cons.mp hm with rfl | hm
            · rfl
            · exact absurd hid (h₂ h hm)
        rw [hgw, hgs] at hs
        cases hs
      have hnon := Evidence.foldl_nonGuiCurrent.mpr
        (Or.inr ⟨h, hh, ha, hne, hs⟩ : ({} : Evidence).nonGuiCurrent = true ∨ _)
      simp [hnon]

theorem run_readHeartbeat (index : Fin heartbeatChannelCount) (w : World) :
    (readHeartbeat index).run w =
      ⟨⟨index.val.toUInt8 + 1⟩, (w.mem.heartbeats index).active != 0,
        (w.mem.heartbeats index).timestampNs, (w.mem.heartbeats index).sequence⟩ := by
  simp [readHeartbeat, readHeartbeatAttempts]

theorem run_snapshot_heartbeats (w : World) :
    (snapshot.run w).heartbeats = (List.finRange heartbeatChannelCount).map fun i =>
      ⟨⟨i.val.toUInt8 + 1⟩, (w.mem.heartbeats i).active != 0, (w.mem.heartbeats i).timestampNs,
        (w.mem.heartbeats i).sequence⟩ := by
  simp only [snapshot_eq, ReadProgram.run_load, ReadProgram.run_bind, ReadProgram.run_done,
    ReadProgram.run_traverse, run_readHeartbeat]

theorem stale_eq_false {h : HeartbeatSnapshot} {now staleAfter : UInt64}
    (hle : h.timestampNs ≤ now) :
    h.stale now staleAfter = false ↔ h.timestampNs ≠ 0 ∧ now - h.timestampNs ≤ staleAfter := by
  simp [HeartbeatSnapshot.stale, hle, UInt64.not_lt]

theorem responsiveness_conclude {o : ObservedProcess} {r : PollReads} {health : Health}
    (h : (o.conclude r).latest.responsiveness = some health) :
    ∃ cpu, classifyHealth r.snapshot r.now o.staleAfterNs cpu = health := by
  simp only [ObservedProcess.conclude] at h
  split at h
  · simp only [ObservedProcess.acceptSample] at h
    repeat' split at h
    · cases h
    · cases h
    · exact ⟨_, Option.some.inj h⟩
  · cases h

end Peepbooth
