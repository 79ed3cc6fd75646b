import Peepbooth.FinalState
import Peepbooth.PostMortem

/-! The work of a snapshot on memory that is not trusted: every load may see
anything at all. -/

namespace Peepbooth

open ReadProgram

/-- The condition of the loop over the tickets. -/
def Continues (newest ticket : UInt64) : Prop := ticket ≤ newest ∧ ticket ≠ 0

/-- The size that `snapshot` reserves. -/
def reserveSize (newest : UInt64) : Nat :=
  if newest ≥ ringOldest newest then (newest - ringOldest newest + 1).toNat else 0

/-- The tickets of the iterations among the loads made, by the first load of each. -/
def visited (places : List Place) : List UInt64 :=
  places.filterMap fun
    | .breadcrumb ticket .before => some ticket
    | _ => none

def IsBreadcrumb : Place → Prop
  | .breadcrumb _ _ => True
  | _ => False

/-- How many tickets there are from the oldest on. -/
def ticketCount (newest : UInt64) : Nat := min newest.toNat 128

theorem toNat_ringOldest (newest : UInt64) :
    (ringOldest newest).toNat = newest.toNat - 128 + 1 := by
  have hlt := newest.toNat_lt
  have h := congrArg UInt64.toNat (ringOldest_ofNat hlt)
  rwa [UInt64.ofNat_toNat, UInt64.toNat_ofNat_of_lt' (by simp only [UInt64.size]; omega)] at h

theorem toNat_ticket {newest : UInt64} {i : Nat} (hi : i < ticketCount newest) :
    (ringOldest newest + UInt64.ofNat i).toNat = newest.toNat - 128 + 1 + i := by
  have hlt := newest.toNat_lt
  rw [ticketCount] at hi
  rw [UInt64.toNat_add, toNat_ringOldest, UInt64.toNat_ofNat']
  omega

theorem continues_ticket {newest : UInt64} {i : Nat} (hi : i < ticketCount newest) :
    Continues newest (ringOldest newest + UInt64.ofNat i) := by
  have ht := toNat_ticket hi
  rw [ticketCount] at hi
  refine ⟨UInt64.le_iff_toNat_le.mpr (by omega), fun hz => ?_⟩
  rw [hz, UInt64.toNat_zero] at ht
  omega

/-- After the newest ticket the next one is larger, or it has wrapped to zero. -/
theorem not_continues (newest : UInt64) :
    ¬Continues newest (ringOldest newest + UInt64.ofNat (ticketCount newest)) := by
  rintro ⟨hle, hz⟩
  have hlt := newest.toNat_lt
  have ht : (ringOldest newest + UInt64.ofNat (ticketCount newest)).toNat =
      (newest.toNat + 1) % 2 ^ 64 := by
    rw [UInt64.toNat_add, toNat_ringOldest, UInt64.toNat_ofNat', ticketCount]
    omega
  have hle := UInt64.le_iff_toNat_le.mp hle
  have hz : (ringOldest newest + UInt64.ofNat (ticketCount newest)).toNat ≠ 0 :=
    fun h => hz (UInt64.toNat_inj.mp h)
  omega

theorem reserveSize_eq (newest : UInt64) : reserveSize newest = ticketCount newest := by
  have hlt := newest.toNat_lt
  have ho := toNat_ringOldest newest
  rw [reserveSize, ticketCount]
  split
  · next hge =>
    have hle := UInt64.le_iff_toNat_le.mp hge
    rw [UInt64.toNat_add, UInt64.toNat_sub_of_le _ _ hge, ho]
    simp only [UInt64.toNat_one]
    omega
  · next hge =>
    have hlt' := UInt64.lt_iff_toNat_lt.mp (UInt64.not_le.mp hge)
    omega

/-- A loop that its condition ends within the fuel visits what the condition allows. -/
theorem ringTicketsFrom_eq {newest ticket : UInt64} {fuel count : Nat} (hf : count ≤ fuel)
    (hc : ∀ i < count, Continues newest (ticket + UInt64.ofNat i))
    (hstop : ¬Continues newest (ticket + UInt64.ofNat count)) :
    ringTicketsFrom newest fuel ticket =
      (List.range count).map fun i => ticket + UInt64.ofNat i := by
  have hzero (t : UInt64) : t + UInt64.ofNat 0 = t := by simp
  induction count generalizing fuel ticket with
  | zero =>
    rw [hzero, Continues] at hstop
    cases fuel with
    | zero => rfl
    | succ fuel =>
      rw [ringTicketsFrom, if_neg hstop]
      rfl
  | succ count ih =>
    obtain ⟨fuel, rfl⟩ := Nat.exists_eq_add_of_le' (Nat.succ_le_of_lt (Nat.lt_of_lt_of_le
      (Nat.succ_pos count) hf))
    have h0 := hc 0 (Nat.succ_pos count)
    rw [hzero, Continues] at h0
    have hsucc (i : Nat) : ticket + 1 + UInt64.ofNat i = ticket + UInt64.ofNat (i + 1) := by
      rw [UInt64.ofNat_add, UInt64.add_assoc, UInt64.add_comm 1]
      rfl
    rw [ringTicketsFrom, if_pos h0, ih (by omega), List.range_succ_eq_map, List.map_cons,
      List.map_map, hzero]
    · simp only [hsucc, Function.comp_def]
    · intro i hi
      rw [hsucc]
      exact hc (i + 1) (Nat.succ_lt_succ hi)
    · rw [hsucc]
      exact hstop

theorem ringTickets_eq (newest : UInt64) :
    ringTickets newest =
      (List.range (ticketCount newest)).map fun i => ringOldest newest + UInt64.ofNat i :=
  ringTicketsFrom_eq (Nat.min_le_right _ _) (fun _ => continues_ticket) (not_continues newest)

theorem ringTickets_pairwise (newest : UInt64) : (ringTickets newest).Pairwise (· < ·) := by
  rw [ringTickets_eq, List.pairwise_map]
  refine List.Pairwise.imp_of_mem (fun {i j} hi hj hij => ?_) List.pairwise_lt_range
  rw [UInt64.lt_iff_toNat_lt, toNat_ticket (List.mem_range.mp hi),
    toNat_ticket (List.mem_range.mp hj)]
  omega

theorem slotIndex_nodup (newest : UInt64) : ((ringTickets newest).map slotIndex).Nodup := by
  rw [ringTickets_eq, List.map_map]
  refine List.Nodup.map_on (fun i hi j hj he => ?_) List.nodup_range
  have hi := List.mem_range.mp hi
  have hj := List.mem_range.mp hj
  have hti := toNat_ticket hi
  have htj := toNat_ticket hj
  have hv := congrArg Fin.val he
  simp only [Function.comp_apply] at hv
  rw [val_slotIndex (by omega), val_slotIndex (by omega), hti, htj] at hv
  rw [ticketCount] at hi hj
  omega

variable (c : Nat → World) (n : Nat)

theorem visited_append (l l' : List Place) : visited (l ++ l') = visited l ++ visited l' :=
  List.filterMap_append

theorem visited_readBreadcrumb (ticket : UInt64) :
    visited ((readBreadcrumb ticket).placesUnder c n) = [ticket] := by
  rw [readBreadcrumb_eq]
  simp only [placesUnder]
  split
  · rfl
  · simp only [placesUnder]
    split
    · rfl
    · rfl

theorem readTicket_under (ticket : UInt64) :
    visited ((readTicket ticket).placesUnder c n) = [ticket] ∧
      (∀ place ∈ (readTicket ticket).placesUnder c n, ∃ l, place = .breadcrumb ticket l) ∧
      ∀ x ∈ (readTicket ticket).resultUnder c n, x.1 = ticket := by
  refine ⟨?_, ?_, ?_⟩
  · rw [readTicket_eq, placesUnder_bind, visited_append, visited_readBreadcrumb]
    rfl
  · exact (readTicket_within fun l => ⟨l, rfl⟩).mem_placesUnder c n
  · rw [readTicket_eq, resultUnder_bind]
    intro x hx
    obtain ⟨b, -, rfl⟩ := Option.map_eq_some_iff.mp hx
    rfl

theorem traverse_under (tickets : List UInt64) :
    visited ((ReadProgram.traverse readTicket tickets).placesUnder c n) = tickets ∧
      (∀ place ∈ (ReadProgram.traverse readTicket tickets).placesUnder c n,
        ∃ t ∈ tickets, ∃ l, place = .breadcrumb t l) ∧
      ((((ReadProgram.traverse readTicket tickets).resultUnder c n).reduceOption).map
        Prod.fst).Sublist tickets := by
  induction tickets generalizing n with
  | nil => exact ⟨rfl, fun place hp => absurd hp List.not_mem_nil, .slnil⟩
  | cons t tickets ih =>
    obtain ⟨hv, hp, hr⟩ := readTicket_under c n t
    obtain ⟨hv', hp', hr'⟩ := ih (n + ((readTicket t).placesUnder c n).length)
    rw [ReadProgram.traverse, placesUnder_bind, placesUnder_bind, resultUnder_bind,
      resultUnder_bind]
    simp only [placesUnder, resultUnder, List.append_nil]
    refine ⟨?_, fun place hm => ?_, ?_⟩
    · rw [visited_append, hv, hv', List.singleton_append]
    · rcases List.mem_append.mp hm with hm | hm
      · obtain ⟨l, hl⟩ := hp place hm
        exact ⟨t, List.mem_cons_self, l, hl⟩
      · obtain ⟨t', ht', l, hl⟩ := hp' place hm
        exact ⟨t', List.mem_cons_of_mem _ ht', l, hl⟩
    · cases hi : (readTicket t).resultUnder c n with
      | none =>
        rw [List.reduceOption_cons_of_none]
        exact hr'.cons t
      | some x =>
        rw [List.reduceOption_cons_of_some, List.map_cons, hr x hi]
        exact hr'.cons_cons t

theorem snapshot_under :
    ∃ before after, snapshot.placesUnder c 0 = before ++ .breadcrumbTicket :: after ∧
      (∀ place ∈ before, ¬IsBreadcrumb place) ∧
      after = (ReadProgram.traverse readTicket
        (ringTickets (c before.length).mem.breadcrumbTicket)).placesUnder c (before.length + 1) ∧
      (snapshot.resultUnder c 0).breadcrumbs =
        ((ReadProgram.traverse readTicket
          (ringTickets (c before.length).mem.breadcrumbTicket)).resultUnder c
            (before.length + 1)).reduceOption := by
  let beats := ReadProgram.traverse readHeartbeat (List.finRange heartbeatChannelCount)
  have hbeats : ∀ place ∈ beats.placesUnder c 2, ¬IsBreadcrumb place :=
    (Within.traverse fun i =>
      readHeartbeatAttempts_within (fun l h => h) _ _ _).mem_placesUnder c 2
  have hlen : 0 + 1 + 1 + (beats.placesUnder c (0 + 1 + 1)).length =
      (beats.placesUnder c 2).length + 1 + 1 := by
    simp only [Nat.reduceAdd]
    omega
  refine ⟨.processName :: .processLifecycle :: beats.placesUnder c 2, _, ?_, ?_, rfl, ?_⟩
  · rw [snapshot_eq]
    simp only [placesUnder, placesUnder_bind, readRing_eq, List.append_nil, List.cons_append,
      List.length_cons]
    rw [← hlen]
  · intro place hm
    rcases List.mem_cons.mp hm with rfl | hm
    · exact id
    rcases List.mem_cons.mp hm with rfl | hm
    · exact id
    · exact hbeats place hm
  · rw [snapshot_eq]
    simp only [resultUnder, resultUnder_bind, readRing_eq, List.length_cons]
    rw [← hlen]

theorem visited_of_no_breadcrumb {places : List Place}
    (h : ∀ place ∈ places, ¬IsBreadcrumb place) : visited places = [] := by
  refine List.filterMap_eq_nil_iff.mpr fun place hm => ?_
  have hplace := h place hm
  cases place with
  | breadcrumb t l => exact absurd trivial hplace
  | _ => rfl

theorem length_ringTickets_le (newest : UInt64) : (ringTickets newest).length ≤ 128 := by
  rw [ringTickets_eq, List.length_map, List.length_range]
  exact Nat.min_le_right _ _

/-- Whatever the loads of a snapshot see, its loop ends by its own condition within
128 iterations, as many as it reserved room for, on a slot each, and the records it
returns are of ever larger tickets. -/
theorem snapshot_bounded :
    ∃ before after, snapshot.placesUnder c 0 = before ++ .breadcrumbTicket :: after ∧
      let newest := (c before.length).mem.breadcrumbTicket
      let breadcrumbs := (snapshot.resultUnder c 0).breadcrumbs
      let tickets := visited (snapshot.placesUnder c 0)
      (∃ count ≤ 128, (∀ i < count, Continues newest (ringOldest newest + UInt64.ofNat i)) ∧
          ¬Continues newest (ringOldest newest + UInt64.ofNat count) ∧
          tickets = (List.range count).map (fun i => ringOldest newest + UInt64.ofNat i) ∧
          reserveSize newest = count) ∧
        (∀ ticket load, .breadcrumb ticket load ∈ snapshot.placesUnder c 0 →
          ticket ∈ tickets ∧ ((ticket - 1) % 128).toNat < 128) ∧
        (tickets.map slotIndex).Nodup ∧
        breadcrumbs.length ≤ 128 ∧ (breadcrumbs.map Prod.fst).Sublist tickets ∧
        (breadcrumbs.map Prod.fst).Pairwise (· < ·) := by
  obtain ⟨before, after, hplaces, hbefore, hafter, hresult⟩ := snapshot_under c
  refine ⟨before, after, hplaces, ?_⟩
  intro newest breadcrumbs tickets
  obtain ⟨hv, hp, hr⟩ := traverse_under c (before.length + 1) (ringTickets newest)
  rw [← hafter] at hv hp
  rw [← hresult] at hr
  have htickets : tickets = ringTickets newest := by
    change visited (snapshot.placesUnder c 0) = _
    rw [hplaces, visited_append, visited_of_no_breadcrumb hbefore, List.nil_append, ← hv]
    rfl
  rw [htickets]
  refine ⟨⟨ticketCount newest, Nat.min_le_right _ _, fun _ => continues_ticket,
    not_continues newest, ringTickets_eq newest, reserveSize_eq newest⟩, fun ticket load hm => ?_,
    slotIndex_nodup newest, ?_, hr, (ringTickets_pairwise newest).sublist hr⟩
  · refine ⟨?_, (slotIndex ticket).isLt⟩
    rw [hplaces] at hm
    rcases List.mem_append.mp hm with hm | hm
    · exact absurd trivial (hbefore _ hm)
    rcases List.mem_cons.mp hm with hm | hm
    · cases hm
    · obtain ⟨t, ht, l, hl⟩ := hp _ hm
      cases hl
      exact ht
  · have hle := hr.length_le
    rw [List.length_map] at hle
    exact hle.trans (length_ringTickets_le newest)

end Peepbooth
