import Peepbooth.RingWrite
import Peepbooth.Watchdog

/-! The reader of the ring when nobody writes: which tickets it visits and what
it returns for each of them. -/

namespace Peepbooth

/-- The loop of `snapshot` counts up to the newest ticket. It stops there even
where the next ticket would wrap to zero, and its bound on iterations is enough. -/
theorem ringTicketsFrom_ofNat {n : Nat} (hn : n < 2 ^ 64) {fuel k : Nat} (hk : 0 < k)
    (hkn : k ≤ n + 1) (hf : n + 1 - k ≤ fuel) :
    ringTicketsFrom (UInt64.ofNat n) fuel (UInt64.ofNat k) =
      (List.range' k (n + 1 - k)).map UInt64.ofNat := by
  induction fuel generalizing k with
  | zero =>
    have hz : n + 1 - k = 0 := by omega
    simp [ringTicketsFrom, hz]
  | succ fuel ih =>
    rcases Nat.lt_or_ge n k with hlt | hge
    · -- past the newest ticket, or wrapped to zero
      have hstop : ¬(UInt64.ofNat k ≤ UInt64.ofNat n ∧ UInt64.ofNat k ≠ 0) := by
        rw [UInt64.le_iff_toNat_le, ← UInt64.toNat_inj.ne]
        simp only [UInt64.toNat_ofNat', UInt64.toNat_zero]
        omega
      have hz : n + 1 - k = 0 := by omega
      simp only [ringTicketsFrom, if_neg hstop, hz, List.range'_zero, List.map_nil]
    · have hgo : UInt64.ofNat k ≤ UInt64.ofNat n ∧ UInt64.ofNat k ≠ 0 := by
        rw [UInt64.le_iff_toNat_le, ← UInt64.toNat_inj.ne]
        simp only [UInt64.toNat_ofNat', UInt64.toNat_zero]
        omega
      have hs : n + 1 - k = n + 1 - (k + 1) + 1 := by omega
      have hsucc : UInt64.ofNat k + 1 = UInt64.ofNat (k + 1) := by
        rw [UInt64.ofNat_add]
        rfl
      rw [ringTicketsFrom, if_pos hgo, hsucc, ih (by omega) (by omega) (by omega), hs,
        List.range'_succ, List.map_cons]

theorem ringOldest_ofNat {n : Nat} (hn : n < 2 ^ 64) :
    ringOldest (UInt64.ofNat n) = UInt64.ofNat (n - 128 + 1) := by
  have hh : UInt64.ofNat n > 128 ↔ 128 < n := by
    simp only [gt_iff_lt, UInt64.lt_iff_toNat_lt, UInt64.toNat_ofNat', UInt64.reduceToNat]
    omega
  simp only [ringOldest, hh]
  split
  · next hlt =>
    rw [UInt64.ofNat_add, UInt64.ofNat_sub hlt.le]
    rfl
  · next hge =>
    have hz : n - 128 = 0 := by omega
    rw [hz]
    rfl

theorem ringTickets_ofNat {n : Nat} (hn : n < 2 ^ 64) :
    ringTickets (UInt64.ofNat n) =
      (List.range' (n - 128 + 1) (n - (n - 128))).map UInt64.ofNat := by
  have hl : n + 1 - (n - 128 + 1) = n - (n - 128) := by omega
  rw [ringTickets, ringOldest_ofNat hn, ringTicketsFrom_ofNat hn (by omega) (by omega)
    (by simp only [breadcrumbCapacity]; omega), hl]

theorem mem_ringTickets {t : UInt64} {n : Nat} (hn : n < 2 ^ 64) :
    t ∈ ringTickets (UInt64.ofNat n) ↔ 0 < t.toNat ∧ t.toNat ≤ n ∧ n < t.toNat + 128 := by
  have hlt := t.toNat_lt
  rw [ringTickets_ofNat hn, List.mem_map]
  constructor
  · rintro ⟨k, hk, rfl⟩
    have hk := List.mem_range'_1.mp hk
    rw [UInt64.toNat_ofNat', Nat.mod_eq_of_lt (by omega)]
    omega
  · intro hh
    exact ⟨t.toNat, List.mem_range'_1.mpr (by omega), UInt64.ofNat_toNat⟩

theorem run_readBreadcrumb (t : UInt64) (w : World) :
    (readBreadcrumb t).run w =
      if (w.mem.breadcrumbs (slotIndex t)).commit = closedWord t ∧
          (w.mem.breadcrumbs (slotIndex t)).ticket = t then
        some (RingWrite.contents (w.mem.breadcrumbs (slotIndex t)))
      else none := by
  rw [readBreadcrumb_eq, ReadProgram.run_load]
  by_cases hc : (w.mem.breadcrumbs (slotIndex t)).commit = closedWord t
  · by_cases ht : (w.mem.breadcrumbs (slotIndex t)).ticket = t
    · simp [hc, ht, RingWrite.contents]
    · simp [hc, ht]
  · simp [hc]

theorem run_readRing (w : World) :
    readRing.run w = (ringTickets w.mem.breadcrumbTicket).filterMap fun t =>
      ((readBreadcrumb t).run w).map (t, ·) := by
  simp only [readRing_eq, readTicket_eq, ReadProgram.run_load, ReadProgram.run_bind,
    ReadProgram.run_traverse, ReadProgram.run_done, List.reduceOption, List.filterMap_map]
  rfl

theorem run_snapshot_breadcrumbs (w : World) :
    (snapshot.run w).breadcrumbs = readRing.run w := by
  simp only [snapshot_eq, ReadProgram.run_load, ReadProgram.run_bind, ReadProgram.run_done]

theorem mem_readRing (w : World) (t : UInt64) (b : Breadcrumb) :
    (t, b) ∈ readRing.run w ↔
      t ∈ ringTickets w.mem.breadcrumbTicket ∧ (readBreadcrumb t).run w = some b := by
  rw [run_readRing, List.mem_filterMap]
  constructor
  · rintro ⟨t', ht, he⟩
    obtain ⟨b', hb, hp⟩ := Option.map_eq_some_iff.mp he
    cases hp
    exact ⟨ht, hb⟩
  · rintro ⟨ht, hb⟩
    exact ⟨t, ht, by rw [hb]; rfl⟩

theorem pairwise_readRing (w : World) : (readRing.run w).Pairwise fun a b => a.1 < b.1 := by
  have hn := w.mem.breadcrumbTicket.toNat_lt
  rw [run_readRing, ← UInt64.ofNat_toNat (x := w.mem.breadcrumbTicket), ringTickets_ofNat hn,
    List.pairwise_filterMap, List.pairwise_map]
  refine List.Pairwise.imp_of_mem (fun {a b} ha hb hab x hx y hy => ?_) List.pairwise_lt_range'
  have ha := List.mem_range'_1.mp ha
  have hb := List.mem_range'_1.mp hb
  obtain ⟨_, -, rfl⟩ := Option.map_eq_some_iff.mp hx
  obtain ⟨_, -, rfl⟩ := Option.map_eq_some_iff.mp hy
  simp only [UInt64.lt_iff_toNat_lt, UInt64.toNat_ofNat']
  omega

end Peepbooth
