import Peepbooth.RingOwnership
import Peepbooth.RingReader
import Peepbooth.CallHistory

/-! The ring as a watcher finds it after the producer has stopped anywhere. As
long as no ticket is drawn before the call 128 tickets earlier has finished, a
slot belongs to one call at a time. -/

namespace Peepbooth

open Schedule

theorem val_slotIndex {t : UInt64} (ht : 0 < t.toNat) :
    (slotIndex t).val = (t.toNat - 1) % 128 := by
  have hle : (1 : UInt64) ≤ t := by
    simp only [UInt64.le_iff_toNat_le, UInt64.reduceToNat]
    omega
  have hh : (t - 1).toNat = t.toNat - 1 := UInt64.toNat_sub_of_le _ _ hle
  simp [slotIndex, hh]

namespace Ring

/-- The call's ticket is among the newest 128. -/
def Recent (r : Ring) (d : RingWrite) : Prop := r.calls.length < d.ticket.toNat + 128

/-- What holds of the ring while fewer than `2 ^ 63` tickets are drawn. -/
structure Kept (r : Ring) : Prop extends Numbered r where
  /-- a slot that no call has drawn is untouched -/
  untouched : ∀ k, (∀ d ∈ r.calls, d.index ≠ k) → r.slots k = {}
  /-- a call has made its last store or some thread is still at it -/
  finished : ∀ d ∈ r.calls, d ∈ r.closed ∨ ∃ i w, r.pending i = some (w, d)
  drawn : ∀ d ∈ r.closed, d ∈ r.calls
  slot : ∀ d ∈ r.closed, r.Recent d → r.slots d.index = d.slot
  opening : ∀ i d, r.pending i = some (.opening, d) →
    r.slots d.index = {} ∨ ∃ d' ∈ r.closed, d' ≠ d ∧ r.slots d.index = d'.slot
  written : ∀ i w d, r.pending i = some (w, d) → d ∈ r.calls ∧ d ∉ r.closed ∧
    (w ≠ .opening → d.Written (r.slots d.index) w)
  alone : ∀ i j w w' d, r.pending i = some (w, d) → r.pending j = some (w', d) → i = j
  /-- only recent calls are unfinished -/
  lapped : ∀ d ∈ r.calls, ¬r.Recent d → d ∈ r.closed

variable {r : Ring} {i : Nat} {w : SlotStore} {d d' : RingWrite}

theorem Numbered.toNat_ticket (h : r.Numbered) (hn : r.calls.length < 2 ^ 63) {n : Nat}
    (hd : r.calls[n]? = some d) : d.ticket.toNat = n + 1 := by
  have hlt := (List.getElem?_eq_some_iff.mp hd).1
  rw [h.calls n d hd, UInt64.toNat_ofNat']
  omega

/-- Of the calls that share a slot only one is recent. -/
theorem Numbered.eq_of_recent (h : r.Numbered) (hn : r.calls.length < 2 ^ 63) (hd : d ∈ r.calls)
    (hd' : d' ∈ r.calls) (hi : d.index = d'.index) (hr : r.Recent d) (hr' : r.Recent d') :
    d = d' := by
  obtain ⟨n, hg⟩ := List.mem_iff_getElem?.mp hd
  obtain ⟨m, hg'⟩ := List.mem_iff_getElem?.mp hd'
  have ht := h.toNat_ticket hn hg
  have ht' := h.toNat_ticket hn hg'
  have hlt := (List.getElem?_eq_some_iff.mp hg).1
  have hlt' := (List.getElem?_eq_some_iff.mp hg').1
  have hv := congrArg Fin.val hi
  simp only [RingWrite.index] at hv
  rw [val_slotIndex (by omega), val_slotIndex (by omega)] at hv
  simp only [Recent] at hr hr'
  have he : n = m := by omega
  subst he
  rw [hg] at hg'
  exact Option.some.inj hg'

theorem Kept.recent_of_pending (h : r.Kept) (hi : r.pending i = some (w, d)) : r.Recent d := by
  obtain ⟨hd, hc, -⟩ := h.written i w d hi
  by_contra hr
  exact hc (h.lapped d hd hr)

theorem Kept.index_ne (h : r.Kept) (hn : r.calls.length < 2 ^ 63)
    (hi : r.pending i = some (w, d)) {j : Nat} {w' : SlotStore}
    (hj : r.pending j = some (w', d')) (hij : j ≠ i) : d'.index ≠ d.index := by
  intro he
  have hd := (h.written i w d hi).1
  have hd' := (h.written j w' d' hj).1
  have heq := h.eq_of_recent hn hd' hd he (h.recent_of_pending hj) (h.recent_of_pending hi)
  subst heq
  exact hij (h.alone j i w' w _ hj hi)

/-- The slot of a new ticket was never drawn, or the call 128 tickets earlier
has finished it. -/
theorem Kept.vacated (h : r.Kept) (hn : r.calls.length + 1 < 2 ^ 63)
    (hd : d.ticket.toNat = r.calls.length + 1) (hnot : d ∉ r.calls)
    (hl : ∀ d, 128 ≤ r.calls.length → r.calls[r.calls.length - 128]? = some d → d ∈ r.closed) :
    r.slots d.index = {} ∨ ∃ d' ∈ r.closed, d' ≠ d ∧ r.slots d.index = d'.slot := by
  have hk : d.index.val = r.calls.length % 128 := by
    rw [RingWrite.index, val_slotIndex (by omega), hd, Nat.add_sub_cancel]
  rcases Nat.lt_or_ge r.calls.length 128 with hlt | hge
  · refine .inl (h.untouched _ fun d' hd' he => ?_)
    obtain ⟨n, hg⟩ := List.mem_iff_getElem?.mp hd'
    have hlt' := (List.getElem?_eq_some_iff.mp hg).1
    have ht := h.toNat_ticket (by omega) hg
    have hk' : d'.index.val = n % 128 := by
      rw [RingWrite.index, val_slotIndex (by omega), ht, Nat.add_sub_cancel]
    rw [he] at hk'
    omega
  · have hg := List.getElem?_eq_getElem (l := r.calls) (i := r.calls.length - 128) (by omega)
    have ht := h.toNat_ticket (by omega) hg
    have hc := hl _ hge hg
    refine .inr ⟨_, hc, fun he => hnot (he ▸ h.drawn _ hc), ?_⟩
    rw [← h.slot _ hc (by simp only [Recent]; omega)]
    congr 1
    apply Fin.ext
    rw [hk, RingWrite.index, val_slotIndex (by omega), ht]
    omega

theorem Kept.ticket_lt (h : r.Kept) (hn : r.calls.length < 2 ^ 63) (hd : d ∈ r.calls) :
    0 < d.ticket.toNat ∧ d.ticket.toNat ≤ r.calls.length := by
  obtain ⟨n, hg⟩ := List.mem_iff_getElem?.mp hd
  have hlt := (List.getElem?_eq_some_iff.mp hg).1
  have ht := h.toNat_ticket hn hg
  omega

theorem Kept.draw (h : r.Kept) (hi : r.pending i = none) (args : BreadcrumbArgs) (now : UInt64)
    (hn : r.calls.length + 1 < 2 ^ 63)
    (hl : ∀ d, 128 ≤ r.calls.length → r.calls[r.calls.length - 128]? = some d → d ∈ r.closed) :
    (r.draw i (r.drawn args now)).Kept := by
  have hnum := h.toNumbered.draw (i := i) args now
  have hlen : (r.draw i (r.drawn args now)).calls.length = r.calls.length + 1 := by
    simp [Ring.draw]
  have hnew : (r.drawn args now).ticket.toNat = r.calls.length + 1 :=
    hnum.toNat_ticket (n := r.calls.length) (by omega) (by simp [Ring.draw])
  have hnot : r.drawn args now ∉ r.calls := fun hd => by
    have := (h.ticket_lt (by omega) hd).2
    omega
  have hrec : ∀ d, (r.draw i (r.drawn args now)).Recent d → r.Recent d := by
    intro d hd
    simp only [Recent, hlen] at hd ⊢
    omega
  exact {
    toNumbered := hnum
    untouched k hk := h.untouched k fun d hd => hk d (List.mem_append_left _ hd)
    finished d hd := by
      rcases List.mem_append.mp hd with hd | hd
      · rcases h.finished d hd with hc | ⟨j, w, hj⟩
        · exact .inl hc
        · have hji : j ≠ i := by
            rintro rfl
            simp [hi] at hj
          exact .inr ⟨j, w, (draw_pending_ne hji).trans hj⟩
      · obtain rfl : d = r.drawn args now := by simpa using hd
        exact .inr ⟨i, .opening, by simp [Ring.draw]⟩
    drawn d hd := List.mem_append_left _ (h.drawn d hd)
    slot d hd hr := h.slot d hd (hrec d hr)
    opening j d hj := by
      rcases draw_pending_cases hj with ⟨-, -, rfl⟩ | ⟨-, hj⟩
      · exact h.vacated hn hnew hnot hl
      · exact h.opening j d hj
    written j w d hj := by
      rcases draw_pending_cases hj with ⟨-, rfl, rfl⟩ | ⟨-, hj⟩
      · exact ⟨by simp [Ring.draw], fun hc => hnot (h.drawn _ hc), fun hw => absurd rfl hw⟩
      · obtain ⟨hd, hh⟩ := h.written j w d hj
        exact ⟨List.mem_append_left _ hd, hh⟩
    alone j j' w w' d hj hj' := by
      rcases draw_pending_cases hj with ⟨rfl, -, hd⟩ | ⟨-, hp⟩ <;>
        rcases draw_pending_cases hj' with ⟨rfl, -, hd'⟩ | ⟨-, hp'⟩
      · rfl
      · exact absurd (hd ▸ (h.written j' w' d hp').1) hnot
      · exact absurd (hd' ▸ (h.written j w d hp).1) hnot
      · exact h.alone j j' w w' d hp hp'
    lapped d hd hr := by
      rcases List.mem_append.mp hd with hd | hd
      · by_cases hr' : r.Recent d
        · -- the new ticket laps this very call
          obtain ⟨n, hg⟩ := List.mem_iff_getElem?.mp hd
          have ht := h.toNat_ticket (by omega) hg
          simp only [Recent, hlen] at hr hr'
          have he : n = r.calls.length - 128 := by omega
          exact hl d (by omega) (he ▸ hg)
        · exact h.lapped d hd hr'
      · obtain rfl : d = r.drawn args now := by simpa using hd
        simp only [Recent, hlen, hnew] at hr
        omega }

theorem Kept.store (h : r.Kept) (hn : r.calls.length < 2 ^ 63) (hi : r.pending i = some (w, d)) :
    (r.store i w d).Kept := by
  obtain ⟨hd, hnc, hwr⟩ := h.written i w d hi
  have hw : d.Written (r.slots d.index) w := by
    by_cases ho : w = .opening
    · simp [ho, RingWrite.Written, SlotStore.position]
    · exact hwr ho
  exact {
    toNumbered := h.toNumbered.store
    untouched k hk := by
      have hkd : k ≠ d.index := fun he => hk d hd he.symm
      exact (store_slots_ne hkd).trans (h.untouched k hk)
    finished c hc := by
      rcases h.finished c hc with hcl | ⟨j, w', hj⟩
      · exact .inl (mem_store_closed.mpr (.inl hcl))
      · by_cases hji : j = i
        · subst hji
          rw [hi] at hj
          cases hj
          by_cases ho : w = .closing
          · exact .inl (mem_store_closed.mpr (.inr ⟨ho, rfl⟩))
          · obtain ⟨w', hw'⟩ := SlotStore.exists_next ho
            exact .inr ⟨j, w', by simp [Ring.store, hw']⟩
        · exact .inr ⟨j, w', (store_pending_ne hji).trans hj⟩
    drawn c hc := by
      rcases mem_store_closed.mp hc with hc | ⟨-, rfl⟩
      · exact h.drawn c hc
      · exact hd
    slot c hc hr := by
      rcases mem_store_closed.mp hc with hc | ⟨ho, rfl⟩
      · -- a finished call shares no slot with an unfinished one
        have hne : c.index ≠ d.index := fun he =>
          hnc (h.eq_of_recent hn (h.drawn c hc) hd he hr (h.recent_of_pending hi) ▸ hc)
        rw [store_slots_ne hne]
        exact h.slot c hc hr
      · subst ho
        simpa [Ring.store] using RingWrite.apply_closing hw
    opening j c hj := by
      rcases store_pending_cases hj with ⟨-, hw', -⟩ | ⟨hji, hj⟩
      · exact absurd rfl (SlotStore.next_ne_opening hw')
      · rw [store_slots_ne (h.index_ne hn hi hj hji)]
        rcases h.opening j c hj with he | ⟨d', hd', hh⟩
        · exact .inl he
        · exact .inr ⟨d', mem_store_closed.mpr (.inl hd'), hh⟩
    written j w' c hj := by
      rcases store_pending_cases hj with ⟨-, hw', rfl⟩ | ⟨hji, hj⟩
      · refine ⟨hd, fun hc => ?_, fun _ => ?_⟩
        · rcases mem_store_closed.mp hc with hc | ⟨rfl, -⟩
          · exact hnc hc
          · cases hw'
        · simpa [Ring.store] using RingWrite.written_next hw hw'
      · obtain ⟨hc, hncl, hh⟩ := h.written j w' c hj
        have hne := h.index_ne hn hi hj hji
        refine ⟨hc, fun hm => ?_, fun ho => by rw [store_slots_ne hne]; exact hh ho⟩
        rcases mem_store_closed.mp hm with hm | ⟨-, rfl⟩
        · exact hncl hm
        · exact hne rfl
    alone j j' w' w'' c hj hj' := by
      rcases store_pending_cases hj with ⟨hji, -, hcd⟩ | ⟨hji, hp⟩ <;>
        rcases store_pending_cases hj' with ⟨hji', -, hcd'⟩ | ⟨hji', hp'⟩
      · exact hji.trans hji'.symm
      · exact absurd (h.alone j' i _ _ d (hcd ▸ hp') hi) hji'
      · exact absurd (h.alone j i _ _ d (hcd' ▸ hp) hi) hji
      · exact h.alone j j' w' w'' c hp hp'
    lapped c hc hr := mem_store_closed.mpr (.inl (h.lapped c hc hr)) }

theorem Kept.commit_ne (h : r.Kept) (hn : r.calls.length < 2 ^ 63) (hd : d ∈ r.calls)
    (hc : d ∉ r.closed) : (r.slots d.index).commit ≠ closedWord d.ticket := by
  have hlt := h.ticket_lt hn hd
  obtain ⟨i, w, hi⟩ := (h.finished d hd).resolve_left hc
  by_cases hw : w = .opening
  · subst hw
    rcases h.opening i d hi with he | ⟨d', hd', hne, he⟩ <;> rw [he] <;> intro hcm
    · have hz := congrArg UInt64.toNat hcm
      simp only [toNat_closedWord, UInt64.toNat_zero] at hz
      omega
    · have hd'' := h.drawn d' hd'
      have hlt' := h.ticket_lt hn hd''
      have ht := closedWord_inj (by omega) (by omega) hcm
      exact hne (h.unique (by omega) hd hd'' ht)
  · rw [RingWrite.written_commit ((h.written i w d hi).2.2 hw) hw]
    exact openWord_ne_closedWord _ _

end Ring

/-- No ticket is drawn before the call 128 tickets earlier has finished. -/
def LapsFinished (s : System) : Event → Prop
  | .thread i _ => s.phase = .running → ∀ args now, s.thread i = .drawTicket args now → ∀ d,
      128 ≤ s.log.calls.length → s.log.calls[s.log.calls.length - 128]? = some d → d ∈ s.log.closed
  | _ => True

theorem System.always_fewer {s : System} {es : List Event} {n : Nat}
    (hn : (run System.step s es).log.calls.length < n) :
    Always System.step (fun s => s.log.calls.length < n) s es :=
  always_of_run (fun s e => lt_of_le_of_lt (s.calls_step e).length_le) hn

theorem System.lapsFinished_of_few {s : System} {es : List Event}
    (hn : (run System.step s es).log.calls.length < 128) :
    Permits System.step LapsFinished s es := by
  refine (permits_of_always (System.always_fewer hn)).imp fun u e hu => ?_
  cases e with
  | thread i spurious => exact fun _ _ _ _ _ hge => absurd hge (Nat.not_le.mpr hu.1)
  | _ => trivial

theorem System.kept_step {s : System} {e : Event} (h : s.log.calls.length < 2 ^ 63 → s.ring.Kept)
    (hG : LapsFinished s e) (hn : (s.step e).log.calls.length < 2 ^ 63) :
    (s.step e).ring.Kept := by
  have hn' : (s.step e).ring.calls.length < 2 ^ 63 := hn
  rcases s.step_ring e with hr | ⟨i, spurious, args, now, he, hp, hpc, hr⟩ |
    ⟨i, spurious, w, d, he, hp, hpc, hr⟩
  · rw [hr] at hn' ⊢
    exact h hn'
  · subst he
    rw [hr] at hn' ⊢
    have hl : s.ring.calls.length + 1 < 2 ^ 63 := by simpa [Ring.draw] using hn'
    have hi : s.ring.pending i = none := by simp [System.ring, hpc, Pc.pending]
    exact (h (Nat.lt_of_succ_lt hl)).draw hi args now hl (hG hp args now hpc)
  · rw [hr] at hn' ⊢
    exact (h hn').store hn' (by simp [System.ring, hpc])

theorem System.Initial.kept {s : System} (h : s.Initial) : s.ring.Kept := by
  have hc : s.ring.calls = [] := by simp [System.ring, h.log]
  have hcl : s.ring.closed = [] := by simp [System.ring, h.log]
  have hp : ∀ i, s.ring.pending i = none := by simp [System.ring, h.thread]
  exact {
    ticket := by simp [System.ring, h.log, h.fresh.breadcrumbTicket]
    calls := by simp [hc]
    untouched k _ := h.fresh.breadcrumbs k
    finished := by simp [hc]
    drawn := by simp [hcl]
    slot := by simp [hcl]
    opening := by simp [hp]
    written := by simp [hp]
    alone := by simp [hp]
    lapped := by simp [hc] }

theorem System.kept_run {s : System} {es : List Event} (h : s.Initial)
    (hG : Permits System.step LapsFinished s es)
    (hn : (run System.step s es).log.calls.length < 2 ^ 63) :
    (run System.step s es).ring.Kept :=
  invariant_of_permits (I := fun s => s.log.calls.length < 2 ^ 63 → s.ring.Kept)
    (fun _ _ hs hg hl => System.kept_step hs hg hl) (fun _ => h.kept) hG hn

/-- A recent ticket reads as the breadcrumb of its call, once that has finished. -/
theorem System.read_kept {s : System} (h : s.ring.Kept) (hn : s.log.calls.length < 2 ^ 63)
    {d : RingWrite} (hd : d ∈ s.log.calls) (hr : s.ring.Recent d) :
    (readBreadcrumb d.ticket).run s.world =
      if d ∈ s.log.closed then some d.breadcrumb else none := by
  rw [run_readBreadcrumb, System.world_mem]
  by_cases hc : d ∈ s.log.closed
  · have hs : s.mem.breadcrumbs (slotIndex d.ticket) = d.slot := h.slot d hc hr
    simp [hs, hc, RingWrite.slot, ← RingWrite.contents_slot]
  · have hne : (s.mem.breadcrumbs (slotIndex d.ticket)).commit ≠ closedWord d.ticket :=
      h.commit_ne hn hd hc
    simp [hne, hc]

/-- What a snapshot finds after a run that is cut off anywhere: the breadcrumb
calls that have returned, of the newest 128 tickets. Among them are all that a
lease has covered. -/
theorem post_mortem {s : System} {es : List Event} (h : s.Initial)
    (hG : Permits System.step LapsFinished s es)
    (hn : (run System.step s es).log.calls.length < 2 ^ 63) :
    let t := run System.step s es
    (snapshot.run t.world).breadcrumbs.Pairwise (fun a b => a.1 < b.1) ∧
    (∀ k b, (k, b) ∈ (snapshot.run t.world).breadcrumbs ↔
      ∃ d, s.Published es d ∧ d.ticket = k ∧ d.breadcrumb = b ∧
        t.mem.breadcrumbTicket.toNat < k.toNat + 128) ∧
    ∀ before i args inside after,
      es = before ++ .call i (.breadcrumb args) :: (inside ++ after) →
      (run System.step s before).Returns i (.breadcrumb args) inside →
      Always System.step System.Watched
        ((run System.step s before).step (.call i (.breadcrumb args))) inside →
      ∃ d, d.args = args ∧ (run System.step s before).Publishes i inside d := by
  intro t
  have hn : t.log.calls.length < 2 ^ 63 := hn
  have hk : t.ring.Kept := System.kept_run h hG hn
  have ht : t.mem.breadcrumbTicket = UInt64.ofNat t.log.calls.length := hk.ticket
  have htn : t.mem.breadcrumbTicket.toNat = t.log.calls.length := by
    rw [ht, UInt64.toNat_ofNat']
    omega
  rw [run_snapshot_breadcrumbs]
  refine ⟨pairwise_readRing _, fun k b => ?_, fun before i args inside after _ hret hw => ?_⟩
  · rw [mem_readRing, System.world_mem, htn, ht, mem_ringTickets (by omega)]
    constructor
    · rintro ⟨⟨hpos, hle, hlt⟩, hb⟩
      obtain ⟨d, hg⟩ : ∃ d, t.log.calls[k.toNat - 1]? = some d :=
        ⟨_, List.getElem?_eq_getElem (by omega)⟩
      have hd := List.mem_of_getElem? hg
      have htk : d.ticket = k := by
        apply UInt64.toNat_inj.mp
        rw [hk.toNat_ticket hn hg]
        omega
      subst htk
      rw [System.read_kept hk hn hd hlt] at hb
      split at hb
      · next hc => exact ⟨d, h.mem_closed.mp hc, rfl, Option.some.inj hb, hlt⟩
      · cases hb
    · rintro ⟨d, hpub, rfl, rfl, hlt⟩
      have hc : d ∈ t.log.closed := h.mem_closed.mpr hpub
      have hd := hk.drawn d hc
      obtain ⟨hpos, hle⟩ := hk.ticket_lt hn hd
      exact ⟨⟨hpos, hle, hlt⟩, by rw [System.read_kept hk hn hd hlt, if_pos hc]⟩
  · have hclock : (run System.step s before).Clocked :=
      invariant_of_step (fun s e => s.clocked_step e) h.clocked before
    exact hret.publishes hclock hw

/-- Thread 0 publishes under a lease that lasts until 10, while thread 1 is cut off after two
of its stores. -/
def cutOff : List Event :=
  .renew 0 10 :: .watcher :: .watcher :: .tick 3 ::
    .call 0 (.breadcrumb { eventId := 1, arg0 := 7 }) ::
    (List.replicate 5 (.thread 0 false) ++ .call 1 (.breadcrumb { eventId := 2 }) ::
      .tick 4 :: (List.replicate 9 (.thread 1 false) ++ List.replicate 10 (.thread 0 false)))

theorem post_mortem_cutOff :
    let t := run System.step System.sample cutOff
    let b : Breadcrumb := { timestampNs := 3, eventId := 1, arg0 := 7 }
    let u := run System.step System.sample (cutOff.take 4)
    (snapshot.run t.world).breadcrumbs = [(2, b)] ∧
    (∃ d, System.sample.Published cutOff d ∧ d.ticket = 2 ∧ d.breadcrumb = b) ∧
    ∃ d, d.args = { eventId := 1, arg0 := 7 } ∧ u.Publishes 0 (cutOff.drop 5) d := by
  intro t b u
  have hlaps : Permits System.step LapsFinished System.sample cutOff :=
    System.lapsFinished_of_few (by decide +kernel)
  obtain ⟨-, hfound, hmade⟩ := post_mortem System.initial_sample hlaps (by decide +kernel)
  have hb : (snapshot.run t.world).breadcrumbs = [(2, b)] := by decide +kernel
  refine ⟨hb, ?_, ?_⟩
  · obtain ⟨d, hd, ht, hdb, -⟩ := (hfound 2 b).mp (by rw [hb]; exact List.mem_singleton_self _)
    exact ⟨d, hd, ht, hdb⟩
  · exact hmade (cutOff.take 4) 0 { eventId := 1, arg0 := 7 } (cutOff.drop 5) [] rfl
      ⟨by decide +kernel, by decide +kernel, by decide +kernel, by decide +kernel⟩
      (by decide +kernel)

end Peepbooth
