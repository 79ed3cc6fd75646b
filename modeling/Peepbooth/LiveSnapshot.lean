import Peepbooth.SnapshotBounds

/-! A snapshot that is taken while breadcrumbs are published. As long as no ticket is drawn
before the call 128 tickets earlier has finished, it returns finished calls only, and all of
those that had finished when it began and are among the newest when it ends. -/

namespace Peepbooth

open Schedule ReadProgram

namespace Ring

variable {r : Ring} {i : Nat} {w : SlotStore} {c d d' : RingWrite}

theorem Numbered.toNat_drawn (h : r.Numbered) (hn : r.calls.length < 2 ^ 63) :
    r.ticket.toNat = r.calls.length := by
  rw [h.ticket, UInt64.toNat_ofNat']
  omega

theorem Numbered.exists_recent (h : r.Numbered) (hn : r.calls.length < 2 ^ 63)
    (hd : d ∈ r.calls) : ∃ d' ∈ r.calls, d'.index = d.index ∧ r.Recent d' := by
  obtain ⟨n, hg⟩ := List.mem_iff_getElem?.mp hd
  have hlt := (List.getElem?_eq_some_iff.mp hg).1
  have ht := h.toNat_ticket hn hg
  let m := r.calls.length - 1 - (r.calls.length - 1 - n) % 128
  have hm : m < r.calls.length := by omega
  have hg' := List.getElem?_eq_getElem hm
  have ht' := h.toNat_ticket hn hg'
  refine ⟨_, List.mem_of_getElem? hg', Fin.ext ?_, ?_⟩
  · rw [RingWrite.index, RingWrite.index, val_slotIndex (by omega), val_slotIndex (by omega), ht,
      ht']
    omega
  · simp only [Recent]
    omega

theorem Kept.eq_of_commit (h : r.Kept) (hn : r.calls.length < 2 ^ 63) (hd : d ∈ r.calls)
    (hd' : d' ∈ r.calls) (hc : closedWord d.ticket = closedWord d'.ticket) : d = d' := by
  have hlt := (h.ticket_lt hn hd).2
  have hlt' := (h.ticket_lt hn hd').2
  exact h.unique (by omega) hd' hd (closedWord_inj (by omega) (by omega) hc)

/-- A slot is untouched, as a call has left it, or open. -/
theorem Kept.slot_cases (h : r.Kept) (hn : r.calls.length < 2 ^ 63)
    (k : Fin breadcrumbCapacity) :
    r.slots k = {} ∨ (∃ d ∈ r.closed, r.slots k = d.slot) ∨
      ∃ t, (r.slots k).commit = openWord t := by
  by_cases hk : ∀ d ∈ r.calls, d.index ≠ k
  · exact .inl (h.untouched k hk)
  push Not at hk
  obtain ⟨d, hd, rfl⟩ := hk
  obtain ⟨d', hd', hi, hr⟩ := h.exists_recent hn hd
  rw [← hi]
  rcases h.finished d' hd' with hc | ⟨j, w, hj⟩
  · exact .inr (.inl ⟨d', hc, h.slot d' hc hr⟩)
  by_cases hw : w = .opening
  · subst hw
    rcases h.opening j d' hj with he | ⟨d'', hc, -, he⟩
    · exact .inl he
    · exact .inr (.inl ⟨d'', hc, he⟩)
  · exact .inr (.inr ⟨_, RingWrite.written_commit ((h.written j w d' hj).2.2 hw) hw⟩)

theorem Kept.of_commit (h : r.Kept) (hn : r.calls.length < 2 ^ 63) {t : UInt64}
    (ht : t ≠ 0) (ht' : t.toNat < 2 ^ 63) {k : Fin breadcrumbCapacity}
    (hc : (r.slots k).commit = closedWord t) :
    ∃ d ∈ r.closed, d.ticket = t ∧ r.slots k = d.slot := by
  rcases h.slot_cases hn k with he | ⟨d, hd, he⟩ | ⟨u, he⟩
  · rw [he] at hc
    exact absurd (closedWord_inj ht' (by simp) (show closedWord t = closedWord 0 from hc.symm)) ht
  · rw [he] at hc
    have hlt := (h.ticket_lt hn (h.drawn d hd)).2
    exact ⟨d, hd, closedWord_inj (by omega) ht' hc, he⟩
  · rw [hc] at he
    exact absurd he.symm (openWord_ne_closedWord _ _)

theorem Kept.slot_of_commit (h : r.Kept) (hn : r.calls.length < 2 ^ 63) (hd : d ∈ r.closed)
    (hc : (r.slots d.index).commit = closedWord d.ticket) : r.slots d.index = d.slot := by
  obtain ⟨hpos, hle⟩ := h.ticket_lt hn (h.drawn d hd)
  have hne : d.ticket ≠ 0 := fun hz => by simp [hz] at hpos
  obtain ⟨d', hd', ht, hs⟩ := h.of_commit hn hne (by omega) hc
  rw [hs, h.unique (by omega) (h.drawn d hd) (h.drawn d' hd') ht]

/-- Once its slot shows something else, the commit word of a finished call does not come back. -/
theorem Kept.commit_store (h : r.Kept) (hn : r.calls.length < 2 ^ 63)
    (hi : r.pending i = some (w, d)) (hc : c ∈ r.closed)
    (hs : ((r.store i w d).slots c.index).commit = closedWord c.ticket) :
    (r.slots c.index).commit = closedWord c.ticket := by
  obtain ⟨hd, hnc, -⟩ := h.written i w d hi
  by_cases hk : c.index = d.index
  · rw [hk] at hs ⊢
    simp only [Ring.store, Function.update_self] at hs
    cases w with
    | opening => exact absurd hs (openWord_ne_closedWord _ _)
    | closing => exact absurd (h.eq_of_commit hn hd (h.drawn c hc) hs ▸ hc) hnc
    | _ => exact hs
  · rwa [store_slots_ne hk] at hs

end Ring

structure Later (s t : System) : Prop where
  calls : s.log.calls <+: t.log.calls
  closed : ∀ d ∈ s.log.closed, d ∈ t.log.closed
  commit : ∀ d ∈ s.log.closed, (t.mem.breadcrumbs d.index).commit = closedWord d.ticket →
    (s.mem.breadcrumbs d.index).commit = closedWord d.ticket

theorem Later.trans {s t u : System} (h : Later s t) (h' : Later t u) : Later s u where
  calls := h.calls.trans h'.calls
  closed d hd := h'.closed d (h.closed d hd)
  commit d hd hc := h.commit d hd (h'.commit d (h.closed d hd) hc)

theorem Later.recent {s t : System} (h : Later s t) {d : RingWrite} (hr : t.ring.Recent d) :
    s.ring.Recent d :=
  lt_of_le_of_lt h.calls.length_le hr

/-- The calls `done` have finished, and `drawn` tickets have been drawn. -/
structure Live (done : List RingWrite) (drawn : Nat) (s : System) : Prop where
  bound : s.log.calls.length < 2 ^ 63
  kept : s.ring.Kept
  done : ∀ d ∈ done, d ∈ s.log.closed
  drawn : drawn ≤ s.log.calls.length

def LapsBounded (s : System) (e : Event) : Prop :=
  LapsFinished s e ∧ (s.step e).log.calls.length < 2 ^ 63

theorem System.later_step {s : System} {e : Event} (h : s.ring.Kept)
    (hn : s.log.calls.length < 2 ^ 63) : Later s (s.step e) := by
  have hslots (r : Ring) (h : (s.step e).ring = r) : (s.step e).mem.breadcrumbs = r.slots :=
    congrArg Ring.slots h
  refine ⟨s.calls_step e, fun d hd => (s.closed_step e).mpr (.inl hd), fun d hd hc => ?_⟩
  rcases s.step_ring e with hr | ⟨i, spurious, args, now, -, -, -, hr⟩ |
    ⟨i, spurious, w, d', -, -, hpc, hr⟩ <;> rw [hslots _ hr] at hc
  · exact hc
  · exact hc
  · exact h.commit_store hn (by simp [System.ring, hpc]) hd hc

def liveRing (done : List RingWrite) (drawn : Nat) : Interference LapsBounded where
  inv := Live done drawn
  may _ _ := True
  rel _ := Later
  trans := Later.trans
  may_load _ _ _ _ := trivial
  inv_step s e h hG :=
    have hl := System.later_step (e := e) h.kept h.bound
    ⟨hG.2, System.kept_step (fun _ => h.kept) hG.1 hG.2, fun d hd => hl.closed d (h.done d hd),
      h.drawn.trans hl.calls.length_le⟩
  inv_load p s h := by cases p <;> exact ⟨h.bound, h.kept, h.done, h.drawn⟩
  rel_watcher _ s _ _ := ⟨List.prefix_refl _, fun _ => id, fun _ _ => id⟩
  rel_step _ _ h _ _ := System.later_step h.kept h.bound

section Reader

variable {done : List RingWrite} {drawn : Nat} {d : RingWrite} {s u : System} {P : Prop}

/-- The reader of the slot of `d` has found it as `P` says, unless another call has it now. -/
structure Follows (d : RingWrite) (P : Prop) (s : System) : Prop where
  closed : d ∈ s.log.closed
  seen : (s.mem.breadcrumbs d.index).commit = closedWord d.ticket → P

theorem Follows.load {β : Type} {p : Place} {next : World → Reads β} {Q : β → System → Prop}
    (h : Follows d P s)
    (hk : ∀ u, Live done drawn u → Follows d (P ∧ u.mem.breadcrumbs d.index = d.slot) u →
      Safe (liveRing done drawn).rely Q (next u.world) ((liveRing done drawn).rely.mark p u)) :
    Safe (liveRing done drawn).rely Q (.load p next) s := by
  intro u hi hr _
  have hd := hr.closed d h.closed
  refine hk u hi ⟨hd, fun hc => ⟨h.seen (hr.commit d h.closed hc), ?_⟩⟩
  exact hi.kept.slot_of_commit hi.bound hd hc

theorem Follows.mark {p : Place} (h : Follows d P s) :
    Follows d P ((liveRing done drawn).rely.mark p s) := by
  cases p <;> exact ⟨h.closed, h.seen⟩

/-- What the slot of the ticket `t` is read as: the breadcrumb of a call that has finished, or
nothing, and that not where the call is in `done` and is recent. -/
def ReadAs (done : List RingWrite) (t : UInt64) (item : Option Breadcrumb) (s : System) : Prop :=
  item = none ∧ (∀ d ∈ done, d.ticket = t → ¬s.ring.Recent d) ∨
    ∃ d ∈ s.log.closed, d.ticket = t ∧ item = some d.breadcrumb

theorem ReadAs.later {t : UInt64} {item : Option Breadcrumb} (h : ReadAs done t item s)
    (hl : Later s u) : ReadAs done t item u := by
  rcases h with ⟨hi, hn⟩ | ⟨d, hd, ht, hi⟩
  · exact .inl ⟨hi, fun d hd ht hr => hn d hd ht (hl.recent hr)⟩
  · exact .inr ⟨d, hl.closed d hd, ht, hi⟩

theorem Live.readAs_none (h : Live done drawn s) {t : UInt64}
    (hs : ∀ d : RingWrite, d.ticket = t → s.mem.breadcrumbs d.index ≠ d.slot) :
    ReadAs done t none s :=
  .inl ⟨rfl, fun d hd ht hr => hs d ht (h.kept.slot d (h.done d hd) hr)⟩

theorem readBreadcrumb_live {t : UInt64} (ht : t ≠ 0) (ht' : t.toNat < 2 ^ 63) :
    Safe (liveRing done drawn).rely (ReadAs done t) (readBreadcrumb t) s := by
  have hend {t : UInt64} {item : Option Breadcrumb} {p : Place} {u : System}
      (h : ReadAs done t item u) :
      Safe (liveRing done drawn).rely (ReadAs done t) (.done item)
        ((liveRing done drawn).rely.mark p u) := by
    refine safe_done (fun v hr ha => ha.later hr) ?_
    cases p <;> exact h
  rw [readBreadcrumb_eq]
  intro u₀ h₀ _ _
  simp only [Interference.rely_view, System.world_mem]
  by_cases hc : (u₀.mem.breadcrumbs (slotIndex t)).commit = closedWord t
  case neg =>
    simp only [ne_eq, hc, not_false_eq_true, if_true]
    refine hend (h₀.readAs_none fun d hd hs => hc ?_)
    rw [← hd, show slotIndex d.ticket = d.index from rfl, hs]
    rfl
  obtain ⟨d, hd, rfl, -⟩ := h₀.kept.of_commit h₀.bound ht ht' hc
  change (u₀.mem.breadcrumbs d.index).commit = closedWord d.ticket at hc
  have hf₀ : Follows d True u₀ := ⟨hd, fun _ => trivial⟩
  have hother {u : System} (h : (u.mem.breadcrumbs d.index).commit ≠ closedWord d.ticket) :
      ∀ d' : RingWrite, d'.ticket = d.ticket → u.mem.breadcrumbs d'.index ≠ d'.slot := by
    intro d' hd' hs
    have hi : d'.index = d.index := congrArg slotIndex hd'
    rw [← hi, hs, ← hd'] at h
    exact h rfl
  simp only [show slotIndex d.ticket = d.index from rfl, ne_eq, hc, not_true, if_false]
  refine hf₀.mark.load fun u₁ h₁ hf₁ => ?_
  simp only [System.world_mem]
  by_cases hk : (u₁.mem.breadcrumbs d.index).ticket = d.ticket
  case neg =>
    simp only [hk, not_false_eq_true, if_true]
    refine hend (h₁.readAs_none (hother fun hc => hk ?_))
    rw [(hf₁.seen hc).2]
    rfl
  simp only [hk, not_true, if_false]
  refine hf₁.mark.load fun u₂ _ hf₂ => ?_
  refine hf₂.mark.load fun u₃ _ hf₃ => ?_
  refine hf₃.mark.load fun u₄ _ hf₄ => ?_
  refine hf₄.mark.load fun u₅ _ hf₅ => ?_
  refine hf₅.mark.load fun u₆ _ hf₆ => ?_
  refine hf₆.mark.load fun u₇ h₇ hf₇ => hend ?_
  simp only [System.world_mem]
  by_cases hc₇ : (u₇.mem.breadcrumbs d.index).commit = closedWord d.ticket
  · obtain ⟨⟨⟨⟨⟨⟨-, e₂⟩, e₃⟩, e₄⟩, e₅⟩, e₆⟩, -⟩ := hf₇.seen hc₇
    refine .inr ⟨d, hf₇.closed, rfl, ?_⟩
    simp only [hc₇, e₂, e₃, e₄, e₅, e₆, if_true, ← RingWrite.contents_slot]
    rfl
  · simp only [hc₇, if_false]
    exact h₇.readAs_none (hother hc₇)

def TicketReadAs (done : List RingWrite) (t : UInt64) (item : Option (UInt64 × Breadcrumb))
    (s : System) : Prop :=
  ∃ b, item = b.map (t, ·) ∧ ReadAs done t b s

theorem TicketReadAs.later {t : UInt64} {item : Option (UInt64 × Breadcrumb)}
    (h : TicketReadAs done t item s) (hl : Later s u) : TicketReadAs done t item u := by
  obtain ⟨b, hi, hb⟩ := h
  exact ⟨b, hi, hb.later hl⟩

theorem TicketReadAs.mark {t : UInt64} {item : Option (UInt64 × Breadcrumb)} (p : Place)
    (h : TicketReadAs done t item s) :
    TicketReadAs done t item ((liveRing done drawn).rely.mark p s) := by
  cases p <;> exact h

theorem readTicket_live {t : UInt64} (hs : Live done drawn s) (ht : t ≠ 0)
    (ht' : t.toNat < 2 ^ 63) :
    Safe (liveRing done drawn).rely (TicketReadAs done t) (readTicket t) s := by
  rw [readTicket_eq]
  refine Safe.bind hs (readBreadcrumb_live ht ht') fun b u _ hb => ?_
  exact safe_done (fun v hr ha => ha.later hr) ⟨b, rfl, hb⟩

/-- What a snapshot finds in the ring: calls that have finished, in the order of their tickets,
and among them all of `done` that are recent. -/
structure RingReadAs (done : List RingWrite) (drawn : Nat) (items : List (UInt64 × Breadcrumb))
    (s : System) : Prop where
  ascending : items.Pairwise fun a b => a.1 < b.1
  complete : ∀ d ∈ done, s.ring.Recent d → (d.ticket, d.breadcrumb) ∈ items
  finished : ∀ t b, (t, b) ∈ items →
    drawn < t.toNat + 128 ∧ ∃ d ∈ s.log.closed, d.ticket = t ∧ d.breadcrumb = b

theorem RingReadAs.later {items : List (UInt64 × Breadcrumb)} (h : RingReadAs done drawn items s)
    (hl : Later s u) : RingReadAs done drawn items u where
  ascending := h.ascending
  complete d hd hr := h.complete d hd (hl.recent hr)
  finished k b hb := by
    obtain ⟨hk, d, hd, he⟩ := h.finished k b hb
    exact ⟨hk, d, hl.closed d hd, he⟩

theorem RingReadAs.mark {items : List (UInt64 × Breadcrumb)} (p : Place)
    (h : RingReadAs done drawn items s) :
    RingReadAs done drawn items ((liveRing done drawn).rely.mark p s) := by
  cases p <;> exact ⟨h.ascending, h.complete, h.finished⟩

theorem ringReadAs_of_forall₂ {n : Nat} {items : List (Option (UInt64 × Breadcrumb))}
    (hs : Live done drawn s) (hn : n < 2 ^ 63) (hdrawn : drawn ≤ n)
    (hle : n ≤ s.log.calls.length) (hold : ∀ d ∈ done, d.ticket.toNat ≤ drawn)
    (h : List.Forall₂ (fun t item => TicketReadAs done t item s) (ringTickets (UInt64.ofNat n))
      items) :
    RingReadAs done drawn items.reduceOption s where
  ascending := by
    have hsub := fst_sublist_of_forall₂ (h.imp fun t item hi x hx => by
      obtain ⟨b, rfl, -⟩ := hi
      obtain ⟨c, -, rfl⟩ := Option.map_eq_some_iff.mp hx
      rfl)
    exact List.pairwise_map.mp ((ringTickets_pairwise _).sublist hsub)
  complete d hd hr := by
    have hb := hs.bound
    have hpos := (hs.kept.ticket_lt hb (hs.kept.drawn d (hs.done d hd))).1
    have hlt : s.log.calls.length < d.ticket.toNat + 128 := hr
    have hmem : d.ticket ∈ ringTickets (UInt64.ofNat n) :=
      (mem_ringTickets (by omega)).mpr ⟨hpos, (hold d hd).trans hdrawn, by omega⟩
    obtain ⟨item, hi, b, rfl, hread⟩ := exists_result_of_forall₂ h hmem
    rcases hread with ⟨-, hno⟩ | ⟨d', hd', ht, rfl⟩
    · exact absurd hr (hno d hd rfl)
    · obtain rfl : d' = d := hs.kept.unique (show s.log.calls.length < 2 ^ 64 by omega)
        (hs.kept.drawn d (hs.done d hd)) (hs.kept.drawn d' hd') ht
      exact List.reduceOption_mem_iff.mpr hi
  finished t b hb := by
    obtain ⟨k, hk, c, hi, hread⟩ := exists_of_forall₂ h (List.reduceOption_mem_iff.mp hb)
    obtain ⟨c', rfl, he⟩ := Option.map_eq_some_iff.mp hi.symm
    cases he
    have hlt := ((mem_ringTickets (by omega)).mp hk).2.2
    rcases hread with ⟨hno, -⟩ | ⟨d, hd, ht, he⟩
    · cases hno
    · cases he
      exact ⟨by omega, d, hd, ht, rfl⟩

theorem readRing_live (hold : ∀ d ∈ done, d.ticket.toNat ≤ drawn) :
    Safe (liveRing done drawn).rely (RingReadAs done drawn) readRing s := by
  rw [readRing_eq]
  intro u hu _ _
  have hn : u.log.calls.length < 2 ^ 63 := hu.bound
  have ht : u.mem.breadcrumbTicket = UInt64.ofNat u.log.calls.length := hu.kept.ticket
  have hmark := (liveRing done drawn).inv_load .breadcrumbTicket u hu
  simp only [Interference.rely_view, System.world_mem, ht]
  have hread : Safe (liveRing done drawn).rely _
      (ReadProgram.traverse readTicket (ringTickets (UInt64.ofNat u.log.calls.length)))
      ((liveRing done drawn).rely.mark .breadcrumbTicket u) :=
    Safe.traverse (Q := TicketReadAs done) hmark (fun _ _ _ _ _ _ hr h => h.later hr)
      (fun p _ _ _ h => h.mark p) fun t hm v hv => by
        have hlt := ((mem_ringTickets (by omega)).mp hm).2.1
        exact readTicket_live hv (ne_zero_of_mem_ringTickets hm) (by omega)
  have hkept := Safe.and_kept (E := (liveRing done drawn).rely) (N := fun _ => True)
    (K := fun v => u.log.calls.length ≤ v.log.calls.length)
    (fun _ _ _ _ hr hk => hk.trans hr.calls.length_le) (fun p v _ hk => by cases p <;> exact hk)
    (within_true _) (by exact le_rfl) hread
  refine Safe.bind hmark hkept fun items v hv hq => ?_
  exact safe_done (fun w hr ha => ha.later hr)
    (ringReadAs_of_forall₂ hv hn hu.drawn hq.2 hold hq.1)

theorem snapshot_live (hold : ∀ d ∈ done, d.ticket.toNat ≤ drawn) :
    Safe (liveRing done drawn).rely (fun w => RingReadAs done drawn w.breadcrumbs) snapshot s := by
  rw [snapshot_eq]
  intro u₀ _ _ _ u₁ h₁ _ _
  refine Safe.bind (R := fun _ _ => True) ((liveRing done drawn).inv_load _ _ h₁)
    (safe_of_forall fun _ _ _ => trivial) fun heartbeats u₂ h₂ _ => ?_
  exact Safe.bind h₂ (readRing_live hold) fun breadcrumbs u₃ _ hq v _ hr => hq.later hr

end Reader

/-- A snapshot or poll that begins after some moment of a run returns, in the order of their
tickets, breadcrumbs of calls that have returned, and of those that had returned at that moment
all that are among the newest 128 when it ends. -/
theorem System.taken_between {s : System} {before during : List Event} (h : s.Initial)
    (hG : Permits System.step LapsFinished s (before ++ during))
    (hn : (run System.step s (before ++ during)).log.calls.length < 2 ^ 63)
    (hi : (run System.step s before).watcher = .idle) {w : WatchdogSnapshot}
    (hw : (run System.step s (before ++ during)).watcher.taken = some w) :
    let s₀ := run System.step s before
    let t := run System.step s (before ++ during)
    w.breadcrumbs.Pairwise (fun a b => a.1 < b.1) ∧
    (∀ d, s.Published before d → t.mem.breadcrumbTicket.toNat < d.ticket.toNat + 128 →
      (d.ticket, d.breadcrumb) ∈ w.breadcrumbs) ∧
    ∀ k b, (k, b) ∈ w.breadcrumbs → s₀.mem.breadcrumbTicket.toNat < k.toNat + 128 ∧
      ∃ d, s.Published (before ++ during) d ∧ d.ticket = k ∧ d.breadcrumb = b := by
  intro s₀ t
  obtain ⟨hlaps₀, hlaps⟩ := permits_append.mp hG
  obtain ⟨hbound₀, hbound⟩ := always_append.mp (System.always_fewer hn)
  have hn₀ : s₀.log.calls.length < 2 ^ 63 := hbound₀.last
  have hk₀ : s₀.ring.Kept := System.kept_run h hlaps₀ hn₀
  have hold : ∀ d ∈ s₀.log.closed, d.ticket.toNat ≤ s₀.log.calls.length :=
    fun d hd => (hk₀.ticket_lt hn₀ (hk₀.drawn d hd)).2
  have hlive : Live s₀.log.closed s₀.log.calls.length s₀ := ⟨hn₀, hk₀, fun _ => id, le_rfl⟩
  have hG' : Permits System.step LapsBounded s₀ during :=
    (hlaps.and (permits_of_always hbound)).imp fun _ _ hh => ⟨hh.1, hh.2.2⟩
  have halways := (liveRing s₀.log.closed s₀.log.calls.length).always_taken
    (Q := fun w => RingReadAs s₀.log.closed s₀.log.calls.length w.breadcrumbs)
    (fun _ _ _ _ _ hr hk => hk.later hr) (fun p _ _ hk => hk.mark p)
    (fun _ _ => snapshot_live hold) hlive hi hG'
  have htaken := halways.last
  rw [← run_append] at htaken
  have hring := htaken.2 w hw
  have htoNat₀ : s₀.mem.breadcrumbTicket.toNat = s₀.log.calls.length := hk₀.toNat_drawn hn₀
  have htoNat : t.mem.breadcrumbTicket.toNat = t.log.calls.length := htaken.1.kept.toNat_drawn hn
  refine ⟨hring.ascending, fun d hd hr => hring.complete d (h.mem_closed.mpr hd) ?_,
    fun k b hb => ?_⟩
  · rwa [htoNat] at hr
  · obtain ⟨hk, d, hd, hh⟩ := hring.finished k b hb
    rw [htoNat₀]
    exact ⟨hk, d, h.mem_closed.mp hd, hh⟩

def recordedBefore : List Event :=
  .renew 0 10 :: .watcher :: .watcher :: .call 0 (.breadcrumb { eventId := 5 }) ::
    List.replicate 15 (.thread 0 false)

/-- A second call draws its ticket while the snapshot reads the slot of the first. -/
def overtaken : List Event :=
  .snapshot :: List.replicate 20 .watcher ++ .call 1 (.breadcrumb { eventId := 6 }) ::
    (List.replicate 10 (.thread 1 false) ++ List.replicate 7 .watcher)

theorem System.taken_between_overtaken :
    let s₀ := run System.step System.sample recordedBefore
    let t := run System.step System.sample (recordedBefore ++ overtaken)
    ∃ w, t.watcher.taken = some w ∧ w.breadcrumbs = [(1, { eventId := 5 })] ∧
      w.breadcrumbs.Pairwise (fun a b => a.1 < b.1) ∧
      (∀ d, System.sample.Published recordedBefore d →
        t.mem.breadcrumbTicket.toNat < d.ticket.toNat + 128 →
        (d.ticket, d.breadcrumb) ∈ w.breadcrumbs) ∧
      ∀ k b, (k, b) ∈ w.breadcrumbs → s₀.mem.breadcrumbTicket.toNat < k.toNat + 128 ∧
        ∃ d, System.sample.Published (recordedBefore ++ overtaken) d ∧
          d.ticket = k ∧ d.breadcrumb = b := by
  intro s₀ t
  have hread : t.watcher.taken.map (·.breadcrumbs) = some [(1, { eventId := 5 })] := by
    decide +kernel
  obtain ⟨w, hw, hb⟩ := Option.map_eq_some_iff.mp hread
  exact ⟨w, hw, hb, System.taken_between System.initial_sample
    (System.lapsFinished_of_few (by decide +kernel)) (by decide +kernel) (by rfl) hw⟩

end Peepbooth
