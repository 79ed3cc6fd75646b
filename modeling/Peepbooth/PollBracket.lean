import Peepbooth.Interference
import Peepbooth.Severity

/-! The verdict of a poll that reads the channels one after the other while they beat. No
moment need have shown what it puts together. As long as no published time moves back and no
channel is switched on or off meanwhile, the verdict lies between those on the memory as it
was at the beginning of the poll and at its end, at the clock of the poll. -/

namespace Peepbooth

open Schedule ReadProgram

/-- The same channels are active, and none shows an earlier time. -/
def SharedState.Onward (m m' : SharedState) : Prop :=
  ∀ i, ((m.heartbeats i).active != 0) = ((m'.heartbeats i).active != 0) ∧
    (m.heartbeats i).timestampNs ≤ (m'.heartbeats i).timestampNs

theorem SharedState.Onward.refl (m : SharedState) : m.Onward m :=
  fun _ => ⟨rfl, UInt64.le_refl _⟩

theorem SharedState.Onward.trans {m m' m'' : SharedState} (h : m.Onward m') (h' : m'.Onward m'') :
    m.Onward m'' :=
  fun i => ⟨(h i).1.trans (h' i).1, UInt64.le_trans (h i).2 (h' i).2⟩

def BeatsForward (s : System) (e : Event) : Prop := s.mem.Onward (s.step e).mem

instance (s : System) (e : Event) : Decidable (BeatsForward s e) :=
  inferInstanceAs (Decidable (∀ _, _ ∧ _))

instance : (w : Watcher) → Decidable (w = .idle)
  | .idle => isTrue rfl
  | .snapshotting _ | .polling _ | .storeLease .. | .storePresent _ | .clearPresent |
    .clearLease => isFalse nofun

def Watcher.polled : Watcher → Option PollReads
  | .polling (.done r) => some r
  | _ => none

theorem Watcher.polled_eq_some {w : Watcher} {r : PollReads} :
    w.polled = some r ↔ w = .polling (.done r) := by
  rcases w with _ | _ | (_ | _) | _ | _ | _ | _ <;> simp [polled]

/-- What a snapshot that began in the memory `m` relies on. -/
def forwardReads (m : SharedState) : Interference BeatsForward where
  inv s := m.Onward s.mem
  may _ _ := True
  rel _ s s' := s.mem.Onward s'.mem
  trans := SharedState.Onward.trans
  may_load _ _ _ _ := trivial
  inv_step _ _ h hG := h.trans hG
  inv_load _ _ h := h
  rel_watcher _ s _ _ := .refl s.mem
  rel_step _ _ _ hG _ := hG

/-- An entry of a snapshot that began in `m` and is still being taken in `s`. -/
structure ReadBetween (m : SharedState) (i : Fin heartbeatChannelCount) (h : HeartbeatSnapshot)
    (s : System) : Prop where
  id : h.id = ⟨i.val.toUInt8 + 1⟩
  active : h.active = ((m.heartbeats i).active != 0)
  lower : (m.heartbeats i).timestampNs ≤ h.timestampNs
  upper : h.timestampNs ≤ (s.mem.heartbeats i).timestampNs

section Reader

variable {m : SharedState} {i : Fin heartbeatChannelCount} {h : HeartbeatSnapshot}
  {s u : System}

theorem ReadBetween.onward (hh : ReadBetween m i h s) (hr : s.mem.Onward u.mem) :
    ReadBetween m i h u :=
  ⟨hh.id, hh.active, hh.lower, UInt64.le_trans hh.upper (hr i).2⟩

theorem readHeartbeatAttempts_between {attempts : Nat} {result : HeartbeatSnapshot}
    (hh : attempts = 0 → ReadBetween m i result s) :
    Safe (forwardReads m).rely (ReadBetween m i)
      (readHeartbeatAttempts i ⟨i.val.toUInt8 + 1⟩ attempts result) s := by
  induction attempts generalizing result s with
  | zero => exact safe_done (fun _ hr hb => hb.onward hr) (hh rfl)
  | succ attempts ih =>
    intro u₀ _ _ _ u₁ h₁ _ _ u₂ h₂ _ _ u₃ _ hr _
    have hb : ReadBetween m i ⟨⟨i.val.toUInt8 + 1⟩, (u₁.mem.heartbeats i).active != 0,
        (u₂.mem.heartbeats i).timestampNs, (u₃.mem.heartbeats i).sequence⟩
        ((forwardReads m).rely.mark (.heartbeat i .after) u₃) :=
      ⟨rfl, (h₁ i).1.symm, (h₂ i).2, (hr i).2⟩
    by_cases he : (u₀.mem.heartbeats i).sequence = (u₃.mem.heartbeats i).sequence
    · simpa [he] using safe_done (fun _ hr hb => hb.onward hr) hb
    · simpa [he] using ih fun _ => hb

def AllReadBetween (m : SharedState) (hs : List HeartbeatSnapshot) (s : System) : Prop :=
  List.Forall₂ (fun i h => ReadBetween m i h s) (List.finRange heartbeatChannelCount) hs

theorem AllReadBetween.onward {hs : List HeartbeatSnapshot} (hh : AllReadBetween m hs s)
    (hr : s.mem.Onward u.mem) : AllReadBetween m hs u :=
  hh.imp fun _ _ hb => hb.onward hr

theorem snapshot_between :
    Safe (forwardReads m).rely (fun w => AllReadBetween m w.heartbeats) snapshot s := by
  rw [snapshot_eq]
  intro u₀ _ _ _ u₁ h₁ _ _
  refine Safe.bind h₁ (Safe.traverse (Q := ReadBetween m) h₁ (fun _ _ _ _ _ _ hr hb => hb.onward hr)
    (fun _ _ _ _ hb => ⟨hb.id, hb.active, hb.lower, hb.upper⟩)
    fun _ _ _ _ => readHeartbeatAttempts_between (by simp)) fun hs u₂ h₂ hb => ?_
  refine Safe.bind h₂ (Safe.keeps (K := AllReadBetween m hs) (fun _ _ _ _ hr hk => hk.onward hr)
    (fun _ t hk => hk.onward (.refl t.mem)) hb) fun items u₃ _ hk => ?_
  exact safe_done (fun _ hr hq => hq.onward hr) hk

theorem AllReadBetween.inOrder {w : WatchdogSnapshot} (hw : AllReadBetween m w.heartbeats s) :
    w.InOrder := by
  have hids : w.heartbeats.map HeartbeatSnapshot.id =
      (List.finRange heartbeatChannelCount).map fun i => ⟨i.val.toUInt8 + 1⟩ :=
    List.forall₂_eq_eq_eq ▸ List.forall₂_map_left_iff.mpr
      (List.forall₂_map_right_iff.mpr (hw.flip.imp fun _ _ hb => hb.id))
  rw [WatchdogSnapshot.InOrder, hids]
  rfl

theorem AllReadBetween.noOlder_first {w : WatchdogSnapshot} {x : World} (hx : x.mem = m)
    (hw : AllReadBetween m w.heartbeats s) :
    List.Forall₂ HeartbeatSnapshot.NoOlder (snapshot.run x).heartbeats w.heartbeats := by
  rw [run_snapshot_heartbeats, hx]
  exact List.forall₂_map_left_iff.mpr (hw.imp fun _ _ hb => ⟨hb.active.symm, fun _ => hb.lower⟩)

theorem AllReadBetween.noOlder_last {w : WatchdogSnapshot} (hm : m.Onward s.mem)
    (hw : AllReadBetween m w.heartbeats s) :
    List.Forall₂ HeartbeatSnapshot.NoOlder w.heartbeats (snapshot.run s.world).heartbeats := by
  rw [run_snapshot_heartbeats]
  exact List.forall₂_map_right_iff.mpr
    (hw.flip.imp fun _ i hb => ⟨hb.active.trans (hm i).1, fun _ => hb.upper⟩)

end Reader

theorem inOrder_run (x : World) : (snapshot.run x).InOrder := by
  rw [WatchdogSnapshot.InOrder, run_snapshot_heartbeats]
  rfl

theorem rank_le_of_noOlder {w w' : WatchdogSnapshot} (hw : w.InOrder) (hw' : w'.InOrder)
    (hno : List.Forall₂ HeartbeatSnapshot.NoOlder w.heartbeats w'.heartbeats)
    (now staleAfter : UInt64) (cpu cpu' : ℚ) :
    (classifyHealth w' now staleAfter cpu').rank ≤ (classifyHealth w now staleAfter cpu).rank := by
  have hnow := UInt64.le_refl now
  have hlimit := UInt64.le_refl staleAfter
  by_cases ha : ∃ h ∈ w.heartbeats, h.active = true
  case neg =>
    have hawaiting : classifyHealth w' now staleAfter cpu' = .awaitingHeartbeat := by
      refine (classifyHealth_awaiting ..).mpr fun h' hh' => ?_
      obtain ⟨h, hh, hr⟩ := exists_of_forall₂ hno hh'
      exact hr.1 ▸ Bool.eq_false_iff.mpr fun hact => ha ⟨h, hh, hact⟩
    rw [hawaiting]
    exact Nat.zero_le _
  have ha' := active_of_noOlder hno ha
  have hcurrent := current_of_noOlder hno hnow hlimit
  obtain ⟨m, g, c, k, hl, -⟩ := hw.split
  obtain ⟨m', g', c', k', hl', -⟩ := hw'.split
  have hgui : g.NoOlder g' := by
    rw [hl, hl'] at hno
    exact (List.forall₂_cons.mp (List.forall₂_cons.mp hno).2).1
  generalize hn : (classifyHealth w now staleAfter cpu).rank = n
  match n with
  | 0 =>
    have hne : classifyHealth w now staleAfter cpu ≠ .awaitingHeartbeat := fun hv => by
      obtain ⟨h, hh, hact⟩ := ha
      exact absurd ((classifyHealth_awaiting ..).mp hv h hh) (by simp [hact])
    have hall := (classifyHealth_eq_healthy.mp ((rank_le_zero hne).mp hn.le)).2
    rw [classifyHealth_eq_healthy.mpr ⟨ha', all_current_of_noOlder hno hnow hlimit hall⟩]
    exact Nat.le_refl 0
  | 1 =>
    obtain ⟨hcur, hg⟩ := (classifyHealth_rank_le_one hw hl ha).mp hn.le
    refine (classifyHealth_rank_le_one hw' hl' ha').mpr ⟨hcurrent hcur, fun hact => ?_⟩
    have hact' := hgui.1.trans hact
    exact hgui.stale_eq_false hact' hnow hlimit (hg hact')
  | 2 =>
    have hcur := (classifyHealth_rank_le_two ha).mp hn.le
    exact (classifyHealth_rank_le_two ha').mpr (hcurrent hcur)
  | n + 3 => cases classifyHealth w' now staleAfter cpu' <;> simp [Health.rank]

theorem poll_between {s : System} {es : List Event} {r : PollReads} {v : Health}
    (hi : s.watcher = .idle) (hG : Permits System.step BeatsForward s es)
    (hr : (run System.step s es).watcher = .polling (.done r))
    (hv : ((run System.step s es).observer.conclude r).latest.responsiveness = some v)
    (cpu cpu' : ℚ) :
    let t := run System.step s es
    (classifyHealth (snapshot.run t.world) r.now t.observer.staleAfterNs cpu).rank ≤ v.rank ∧
      v.rank ≤ (classifyHealth (snapshot.run s.world) r.now t.observer.staleAfterNs cpu').rank := by
  intro t
  obtain ⟨hm, htaken⟩ := ((forwardReads s.mem).always_taken
    (Q := fun w => AllReadBetween s.mem w.heartbeats) (fun _ _ _ _ _ hr hk => hk.onward hr)
    (fun _ _ u hk => hk.onward (.refl u.mem)) (fun _ _ => snapshot_between)
    (show s.mem.Onward s.mem from .refl _) hi hG).last
  have hread := htaken r.snapshot (by rw [hr]; rfl)
  obtain ⟨cpu₀, rfl⟩ := responsiveness_conclude hv
  exact ⟨rank_le_of_noOlder hread.inOrder (inOrder_run _) (hread.noOlder_last hm) ..,
    rank_le_of_noOlder (inOrder_run _) hread.inOrder (hread.noOlder_first rfl) ..⟩

/-- Two channels beat for the first time. -/
def beaten : List Event :=
  [.renew 0 9000000000, .watcher, .watcher, .tick 5, .call 0 (.setChannelActive .main true),
    .call 1 (.setChannelActive .gui true)] ++
    List.replicate 13 (.thread 0 false) ++ List.replicate 13 (.thread 1 false)

/-- They beat again 4 s later, when a poll has read the first of them. -/
def beatenAgain : List Event :=
  .tick 4000000000 :: .poll :: List.replicate 9 .watcher ++ .call 0 (.heartbeat .main) ::
    .call 1 (.heartbeat .gui) :: (List.replicate 11 (.thread 0 false) ++
      List.replicate 11 (.thread 1 false) ++ List.replicate 16 .watcher)

/-- The poll concludes what holds at neither end. -/
theorem poll_between_beatenAgain :
    let s := run System.step System.sample beaten
    ∃ r, (run System.step s beatenAgain).watcher = .polling (.done r) ∧
      ((run System.step s beatenAgain).observer.conclude r).latest.responsiveness =
        some .degraded ∧
      let t := run System.step s beatenAgain
      (classifyHealth (snapshot.run t.world) r.now t.observer.staleAfterNs 0).rank ≤
          Health.degraded.rank ∧
        Health.degraded.rank ≤
          (classifyHealth (snapshot.run s.world) r.now t.observer.staleAfterNs 0).rank := by
  intro s
  have hread : (run System.step s beatenAgain).watcher.polled.map (fun r =>
      ((run System.step s beatenAgain).observer.conclude r).latest.responsiveness) =
        some (some .degraded) := by
    decide +kernel
  obtain ⟨r, hr, hv⟩ := Option.map_eq_some_iff.mp hread
  have hr := Watcher.polled_eq_some.mp hr
  have hforward : Permits System.step BeatsForward s beatenAgain := by decide +kernel
  exact ⟨r, hr, hv, poll_between (by decide +kernel) hforward hr hv 0 0⟩

end Peepbooth
