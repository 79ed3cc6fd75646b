import Peepbooth.RingOwnership
import Peepbooth.RingReader
import Peepbooth.Alone

/-! Torn reads of the breadcrumb ring. The odd commit word closes a slot to
readers, but nothing stops a second call from opening it while the first still
has stores to make, nor the first from storing into it afterwards. -/

namespace Peepbooth

open Schedule ReadProgram

/-- The breadcrumb is what the one call that drew the ticket recorded. -/
def Recorded (t : UInt64) (b : Breadcrumb) (s : System) : Prop :=
  ∃ d ∈ s.log.calls, d.ticket = t ∧ d.breadcrumb = b ∧
    (s.log.calls.length < 2 ^ 64 → ∀ d' ∈ s.log.calls, d'.ticket = t → d' = d)

def AllRecorded (items : List (UInt64 × Breadcrumb)) (s : System) : Prop :=
  ∀ t b, (t, b) ∈ items → Recorded t b s

/-- Every breadcrumb of a finished snapshot is what one call recorded. -/
def Untorn (s : System) : Prop :=
  ∀ w, s.watcher.taken = some w → AllRecorded w.breadcrumbs s

/-- A call stores into its slot only while it is the last to have opened it. And
no call opens a slot while a snapshot that has seen it finished reads it for a
ticket with the same commit word, which is for a ticket `2 ^ 63` draws away. -/
def SlotsRespected (s : System) : Event → Prop
  | .thread i _ => ∀ w d, s.thread i = .store w d →
      (w ≠ .opening → s.log.owner d.index = some i) ∧
      (w = .opening → ∀ t l, s.watcher.place = some (.breadcrumb t l) → l ≠ .before →
        slotIndex t = d.index → closedWord d.ticket ≠ closedWord t)
  | _ => True

/-- The ticket whose slot a load reads after it has seen it finished. -/
def Place.within : Place → Option UInt64
  | .breadcrumb t l => if l = .before then none else some t
  | _ => none

theorem Place.within_eq_some {p : Place} {t : UInt64} :
    p.within = some t ↔ ∃ l, p = .breadcrumb t l ∧ l ≠ .before := by
  cases p with
  | breadcrumb u l => by_cases hl : l = .before <;> simp [within, hl]
  | _ => simp [within]

theorem slotsRespected_thread {s : System} {i : Nat} {spurious : Bool} :
    SlotsRespected s (.thread i spurious) ↔
      ∀ p ∈ (s.thread i).pending, (p.1 ≠ .opening → s.log.owner p.2.index = some i) ∧
        (p.1 = .opening → (s.watcher.place.bind Place.within).all (fun t =>
          slotIndex t = p.2.index → closedWord p.2.ticket ≠ closedWord t) = true) := by
  cases hpc : s.thread i with
  | store w d =>
    simp only [SlotsRespected, hpc, Pc.pending, Option.mem_def, Option.some.injEq,
      Option.all_eq_true, Option.bind_eq_some_iff, Place.within_eq_some, decide_eq_true_eq]
    constructor
    · rintro h p rfl
      refine ⟨(h w d rfl).1, ?_⟩
      rintro hw t ⟨q, hq, l, rfl, hl⟩
      exact (h w d rfl).2 hw t l hq hl
    · rintro h w d ⟨⟩
      obtain ⟨howner, hopen⟩ := h (w, d) rfl
      exact ⟨howner, fun hw t l hq hl => hopen hw t ⟨_, hq, l, rfl, hl⟩⟩
  | _ => simp [SlotsRespected, hpc, Pc.pending]

instance (s : System) : (e : Event) → Decidable (SlotsRespected s e)
  | .thread _ _ => decidable_of_iff _ slotsRespected_thread.symm
  | .call .. | .stop | .control | .exit _ | .usage .. | .tick _ | .renew .. | .release |
    .snapshot | .poll | .watcher => isTrue trivial

theorem System.ring_load (s : System) (p : Place) :
    ({ s with log := s.log.load p } : System).ring = s.ring := by
  cases p <;> rfl

def tornReads : Interference SlotsRespected where
  inv s := s.ring.Owned ∧ s.ring.Numbered
  may _ _ := True
  rel p s s' := (∀ d ∈ s.log.calls, d ∈ s'.log.calls) ∧
    ∀ t l, p = some (.breadcrumb t l) → l ≠ .before → Ring.Held t s.ring s'.ring
  trans h h' :=
    ⟨fun d hd => h'.1 d (h.1 d hd), fun t l hp hl => (h.2 t l hp hl).trans (h'.2 t l hp hl)⟩
  may_load _ _ _ _ := trivial
  inv_step s e h hG := by
    rcases s.step_ring e with hr | ⟨i, spurious, args, now, he, -, hpc, hr⟩ |
      ⟨i, spurious, w, d, he, -, hpc, hr⟩
    · rwa [hr]
    · have hi : s.ring.pending i = none := by simp [System.ring, hpc, Pc.pending]
      rw [hr]
      exact ⟨h.1.draw hi _, h.2.draw args now⟩
    · subst he
      rw [hr]
      exact ⟨h.1.store (by simp [System.ring, hpc]) (hG w d hpc).1, h.2.store⟩
  inv_load p s h := by rwa [System.ring_load]
  rel_watcher n s w _ := ⟨fun d hd => hd, fun t l _ _ => Ring.Held.refl _⟩
  rel_step s e h hG _ := by
    rcases s.step_ring e with hr | ⟨i, spurious, args, now, he, -, hpc, hr⟩ |
      ⟨i, spurious, w, d, he, -, hpc, hr⟩
    · have hc : (s.step e).log.calls = s.log.calls := congrArg Ring.calls hr
      exact ⟨fun d hd => hc ▸ hd, fun t l _ _ => hr ▸ Ring.Held.refl _⟩
    · have hi : s.ring.pending i = none := by simp [System.ring, hpc, Pc.pending]
      have hc : (s.step e).log.calls = _ := congrArg Ring.calls hr
      refine ⟨fun d hd => hc ▸ List.mem_append_left _ hd, fun t l _ _ => ?_⟩
      rw [hr]
      exact h.1.held_draw hi _
    · subst he
      have hi : s.ring.pending i = some (w, d) := by simp [System.ring, hpc]
      have hc : (s.step (.thread i spurious)).log.calls = _ := congrArg Ring.calls hr
      refine ⟨fun d hd => hc ▸ hd, fun t l hp hl => ?_⟩
      rw [hr]
      exact h.1.held_store hi (hG w d hpc).1 fun hw hk => (hG w d hpc).2 hw t l hp hl hk

/-- A reader inside the slot of `t` which held `σ` when it saw it finished:
unless the slot has been opened again, it still holds `σ`, and what was read
so far satisfies `P`. -/
structure Tracks (t : UInt64) (σ : BreadcrumbSlot) (C : List RingWrite) (P : Prop) (s : System) :
    Prop where
  calls : ∀ d ∈ C, d ∈ s.log.calls
  slot : s.ring.Superseded t ∨ (s.mem.breadcrumbs (slotIndex t) = σ ∧ P)

section Reader

variable {t : UInt64} {σ : BreadcrumbSlot} {C : List RingWrite} {P : Prop} {s : System}

theorem Tracks.mono {l : BreadcrumbLoad} {u : System} (hσ : σ.commit = closedWord t)
    (hl : l ≠ .before) (h : Tracks t σ C P s)
    (hr : tornReads.rel (some (.breadcrumb t l)) s u) : Tracks t σ C P u := by
  refine ⟨fun d hd => hr.1 d (h.calls d hd), ?_⟩
  have hh := hr.2 t l rfl hl
  rcases h.slot with hs | ⟨he, hP⟩
  · exact .inl (hh.1 hs)
  · have hc : (s.ring.slots (slotIndex t)).commit = closedWord t := by
      rw [← hσ, ← he]
      rfl
    rcases hh.2 hc with hu | hu
    · exact .inr ⟨hu.trans he, hP⟩
    · exact .inl hu

theorem Tracks.load {β : Type} {l : BreadcrumbLoad} {next : World → Reads β}
    {Q : β → System → Prop} (hσ : σ.commit = closedWord t) (hl : l ≠ .before)
    (h : Tracks t σ C P s)
    (hk : ∀ u, tornReads.inv u →
      Tracks t σ C (P ∧ u.mem.breadcrumbs (slotIndex t) = σ)
        (tornReads.rely.mark (.breadcrumb t l) u) →
      Safe tornReads.rely Q (next u.world) (tornReads.rely.mark (.breadcrumb t l) u)) :
    Safe tornReads.rely Q (.load (.breadcrumb t l) next) s := by
  intro u hi hr _
  have hu := h.mono hσ hl hr
  refine hk u hi ⟨hu.calls, ?_⟩
  rcases hu.slot with hs | ⟨he, hP⟩
  · exact .inl hs
  · exact .inr ⟨he, hP, he⟩

end Reader

theorem recorded_of_mem {s : System} (h : s.ring.Numbered) {d : RingWrite}
    (hd : d ∈ s.log.calls) : Recorded d.ticket d.breadcrumb s :=
  ⟨d, hd, rfl, rfl, fun hn _ hd' ht => h.unique hn hd hd' ht⟩

theorem Recorded.mono {t : UInt64} {b : Breadcrumb} {p : Option Place} {s u : System}
    (h : Recorded t b s) (hi : tornReads.inv u) (hr : tornReads.rel p s u) : Recorded t b u := by
  obtain ⟨d, hd, rfl, rfl, -⟩ := h
  exact recorded_of_mem hi.2 (hr.1 d hd)

theorem Recorded.load {t : UInt64} {b : Breadcrumb} {s : System} (p : Place)
    (h : Recorded t b s) : Recorded t b { s with log := s.log.load p } := by
  cases p <;> exact h

theorem AllRecorded.mono {items : List (UInt64 × Breadcrumb)} {p : Option Place} {s u : System}
    (h : AllRecorded items s) (hi : tornReads.inv u) (hr : tornReads.rel p s u) :
    AllRecorded items u :=
  fun t b hb => (h t b hb).mono hi hr

theorem AllRecorded.load {items : List (UInt64 × Breadcrumb)} {s : System} (p : Place)
    (h : AllRecorded items s) : AllRecorded items { s with log := s.log.load p } :=
  fun t b hb => (h t b hb).load p

theorem Ring.Owned.finished {r : Ring} (h : r.Owned) {k : Fin breadcrumbCapacity} {t : UInt64}
    (hc : (r.slots k).commit = closedWord t) :
    r.slots k = {} ∨ ∃ d ∈ r.calls, d.index = k ∧ r.slots k = d.slot := by
  apply h.free
  rcases ho : r.owner k with _ | i
  · rfl
  · obtain ⟨w, d, -, hw, -, hs⟩ := h.owned k i ho
    rw [RingWrite.written_commit hs hw] at hc
    exact absurd hc (openWord_ne_closedWord _ _)

theorem readBreadcrumb_safe {t : UInt64} (ht : t ≠ 0) (s : System) :
    Safe tornReads.rely (fun item u => ∀ b, item = some b → Recorded t b u)
      (readBreadcrumb t) s := by
  have hnone : ∀ u, Safe tornReads.rely (fun item u => ∀ b, item = some b → Recorded t b u)
      (.done none) u := fun _ _ _ _ b hb => absurd hb (by simp)
  rw [readBreadcrumb_eq]
  intro s hi _ _
  by_cases hc : (s.mem.breadcrumbs (slotIndex t)).commit = closedWord t
  case neg => simpa only [tornReads.rely_view, System.world_mem, ne_eq, hc, not_false_eq_true,
    if_true] using hnone _
  have h₀ : Tracks t (s.mem.breadcrumbs (slotIndex t)) s.log.calls True
      (tornReads.rely.mark (.breadcrumb t .before) s) := ⟨fun d hd => hd, .inr ⟨rfl, trivial⟩⟩
  simp only [tornReads.rely_view, System.world_mem, hc, ne_eq, not_true, if_false]
  refine h₀.load hc (by simp) fun u₁ _ h₁ => ?_
  by_cases hst : (u₁.mem.breadcrumbs (slotIndex t)).ticket = t
  case neg => simpa only [System.world_mem, ne_eq, hst, not_false_eq_true, if_true] using hnone _
  simp only [System.world_mem, hst, not_true, if_false]
  refine h₁.load hc (by simp) fun u₂ _ h₂ => ?_
  refine h₂.load hc (by simp) fun u₃ _ h₃ => ?_
  refine h₃.load hc (by simp) fun u₄ _ h₄ => ?_
  refine h₄.load hc (by simp) fun u₅ _ h₅ => ?_
  refine h₅.load hc (by simp) fun u₆ _ h₆ => ?_
  refine h₆.load hc (by simp) fun u₇ hi₇ h₇ => ?_
  intro v hv hr b hb
  refine Recorded.mono ?_ hv hr
  rcases h₇.slot with hs | ⟨-, ⟨⟨⟨⟨⟨⟨⟨-, e₁⟩, e₂⟩, e₃⟩, e₄⟩, e₅⟩, e₆⟩, e₇⟩⟩
  · have hne : (u₇.mem.breadcrumbs (slotIndex t)).commit ≠ closedWord t := hs.1
    simp [hne] at hb
  · simp only [System.world_mem, e₂, e₃, e₄, e₅, e₆, e₇, hc, if_true, Option.some.injEq] at hb
    obtain rfl : RingWrite.contents (s.mem.breadcrumbs (slotIndex t)) = b := hb
    rw [e₁] at hst
    rcases hi.1.finished hc with he | ⟨d, hd, -, he⟩
    · have he' : s.mem.breadcrumbs (slotIndex t) = {} := he
      rw [he'] at hst
      exact absurd hst.symm ht
    · have he' : s.mem.breadcrumbs (slotIndex t) = d.slot := he
      rw [he'] at hst ⊢
      rw [RingWrite.contents_slot, ← hst]
      exact recorded_of_mem hi₇.2 (h₇.calls d hd)

theorem readTicket_safe {t : UInt64} (ht : t ≠ 0) {s : System} (h : tornReads.inv s) :
    Safe tornReads.rely (fun item u => ∀ t b, item = some (t, b) → Recorded t b u)
      (readTicket t) s := by
  rw [readTicket_eq]
  refine Safe.bind h (readBreadcrumb_safe ht s) fun item v hv hq w hw hr t b hb => ?_
  obtain ⟨c, rfl, he⟩ := Option.map_eq_some_iff.mp hb
  cases he
  exact (hq b rfl).mono hw hr

theorem readRing_safe {s : System} : Safe tornReads.rely AllRecorded readRing s := by
  rw [readRing_eq]
  intro u hu _ _
  have hi := tornReads.inv_load .breadcrumbTicket u hu
  have ht : Safe tornReads.rely _
      (ReadProgram.traverse readTicket (ringTickets u.mem.breadcrumbTicket))
      (tornReads.rely.mark .breadcrumbTicket u) :=
    Safe.traverse (Q := fun _ item u => ∀ t b, item = some (t, b) → Recorded t b u) hi
      (fun _ _ _ _ _ hv hr hq t b hb => (hq t b hb).mono hv hr)
      (fun p _ _ _ hq t b hb => (hq t b hb).load p)
      fun t hm v hv => readTicket_safe (ne_zero_of_mem_ringTickets hm) hv
  refine Safe.bind hi ht fun items v _ hq w hw hr t b hb => ?_
  obtain ⟨_, -, hh⟩ := exists_of_forall₂ hq (List.reduceOption_mem_iff.mp hb)
  exact (hh t b rfl).mono hw hr

theorem snapshot_safe {s : System} :
    Safe tornReads.rely (fun w => AllRecorded w.breadcrumbs) snapshot s := by
  rw [snapshot_eq]
  intro u₀ h₀ _ _ u₁ h₁ _ _
  refine Safe.bind (R := fun _ _ => True) (tornReads.inv_load _ _ h₁)
    (safe_of_forall fun _ _ _ => trivial) fun heartbeats u₂ h₂ _ => ?_
  exact Safe.bind h₂ readRing_safe fun breadcrumbs u₃ _ hq v hv hr => hq.mono hv hr

theorem System.Initial.tornReads_inv {s : System} (h : s.Initial) : tornReads.inv s := by
  refine ⟨⟨fun k i hk => ?_, fun k _ => .inl (h.fresh.breadcrumbs k), fun i w d hp => ?_⟩,
    ⟨?_, fun n d hn => ?_⟩⟩
  · simp [System.ring, h.log] at hk
  · simp [System.ring, h.thread] at hp
  · simp [System.ring, h.log, h.fresh.breadcrumbTicket]
  · simp [System.ring, h.log] at hn

namespace Torn

def early : BreadcrumbArgs := { eventId := 1, sourceId := 1, arg0 := 1, arg1 := 1 }
def late : BreadcrumbArgs := { eventId := 2, sourceId := 2, arg0 := 2, arg1 := 2 }

end Torn

/-- Where every call stores into its slot only as its last opener, no snapshot
mixes the fields of two calls. -/
theorem untorn_of_respected {s : System} {es : List Event} (h : s.Initial)
    (hG : Permits System.step SlotsRespected s es) : Always System.step Untorn s es := by
  have hh := tornReads.always_taken (Q := fun w => AllRecorded w.breadcrumbs)
    (fun _ _ _ _ hi hr hq => hq.mono hi hr) (fun p _ _ hq => hq.load p)
    (fun _ _ => snapshot_safe) h.tornReads_inv h.watcher hG
  exact hh.imp fun s hs => hs.2

namespace Torn

/-- Thread 0 has finished under ticket 1. While a snapshot reads its slot, thread 1 draws
ticket 2 and opens the next one. -/
def kept : List Event :=
  .renew 0 10 :: .watcher :: .watcher :: .call 0 (.breadcrumb early) ::
    (List.replicate 15 (.thread 0 false) ++ .snapshot :: List.replicate 20 .watcher ++
      .call 1 (.breadcrumb late) :: (List.replicate 10 (.thread 1 false) ++
        List.replicate 7 .watcher))

end Torn

theorem untorn_of_respected_breadcrumb :
    Always System.step Untorn System.sample Torn.kept ∧
    (run System.step System.sample Torn.kept).watcher.taken.map (·.breadcrumbs) =
      some [(1, (⟨1, 0, Torn.early⟩ : RingWrite).breadcrumb)] :=
  ⟨untorn_of_respected System.initial_sample (by decide +kernel), by decide +kernel⟩

namespace Torn

/-- Under a lease that does not expire, thread 0 draws ticket 1 and stops
after two stores. -/
def begun : List Event :=
  .renew 0 0xffffffffffffffff :: .watcher :: .watcher :: System.drawEvents 0 early ++
    List.replicate 2 (.thread 0 false)

/-- The next `n` threads draw a ticket each and stop. -/
def drawn (n : Nat) : List Event :=
  (List.range n).flatMap fun i => System.drawEvents (i + 1) late

/-- Thread 128 finishes, with ticket 129 in the slot of ticket 1. Thread 0 makes two more
stores there. -/
def resumed : List Event :=
  List.replicate 8 (.thread 128 false) ++ List.replicate 2 (.thread 0 false) ++ [.snapshot]

structure Drawn (n : Nat) (s : System) : Prop where
  phase : s.phase = .running
  state : s.state = true
  present : s.mem.watcherPresent = 1
  lease : s.mem.watcherLeaseUntilNs = 0xffffffffffffffff
  clock : s.clock = 0
  watcher : s.watcher = .idle
  ticket : s.mem.breadcrumbTicket = UInt64.ofNat (n + 1)
  first : s.thread 0 = .store .timestampNs ⟨1, 0, early⟩
  last : 0 < n → s.thread n = .store .opening ⟨UInt64.ofNat (n + 1), 0, late⟩
  idle : ∀ j, n < j → s.thread j = .idle
  calls : ∀ d ∈ s.log.calls, d.args = early ∨ d.args = late

theorem drawn_run (n : Nat) : Drawn n (run System.step System.sample (begun ++ drawn n)) := by
  induction n with
  | zero =>
    have hz : drawn 0 = [] := rfl
    rw [hz, List.append_nil, begun, List.cons_append, List.cons_append, List.cons_append,
      run_cons, run_cons, run_cons, run_append,
      System.run_drawEvents early rfl rfl rfl (by decide) (by decide)]
    refine ⟨rfl, rfl, rfl, rfl, rfl, rfl, rfl, rfl, by simp, fun j hj => ?_, ?_⟩
    · have hj' : j ≠ 0 := by omega
      simp [List.replicate, System.step, System.stepThread, System.sample, System.published,
        System.stepWatcher, hj']
    · decide
  | succ n ih =>
    have hd : drawn (n + 1) = drawn n ++ System.drawEvents (n + 1) late := by
      simp [drawn, List.range_succ]
    rw [hd, ← List.append_assoc, run_append]
    generalize run System.step System.sample (begun ++ drawn n) = s at ih
    rw [System.run_drawEvents late ih.phase (ih.idle _ (by omega)) ih.state (by simp [ih.present])
      (by simp [ih.clock])]
    have ht : s.mem.breadcrumbTicket + 1 = UInt64.ofNat (n + 1 + 1) := by
      rw [ih.ticket, UInt64.ofNat_add (n + 1)]
      rfl
    refine ⟨ih.phase, ih.state, ih.present, ih.lease, ih.clock, ih.watcher, ht, ?_, fun _ => ?_,
      fun j hj => ?_, fun d hd => ?_⟩
    · simpa using ih.first
    · simp [ht, ih.clock]
    · simpa [show j ≠ n + 1 by omega] using ih.idle j (by omega)
    · rcases List.mem_append.mp hd with hd | hd
      · exact ih.calls d hd
      · exact .inr (by simp_all)

theorem resumed_run {s : System} (h : Drawn 128 s) :
    (run System.step s resumed).watcher = .snapshotting snapshot ∧
    (run System.step s resumed).mem.breadcrumbTicket = 129 ∧
    (run System.step s resumed).mem.breadcrumbs (slotIndex 129) =
      { (⟨129, 0, late⟩ : RingWrite).slot with arg0 := 1 } ∧
    (run System.step s resumed).log.calls = s.log.calls := by
  have hlast : s.thread 128 = .store .opening ⟨129, 0, late⟩ := h.last (by decide)
  have hi : (⟨129, 0, late⟩ : RingWrite).index = slotIndex 129 := rfl
  have hj : (⟨1, 0, early⟩ : RingWrite).index = slotIndex 129 := by decide
  have ha : early.arg0 = 1 := rfl
  refine ⟨?_, ?_, ?_, ?_⟩ <;>
    simp [resumed, List.replicate, System.step, System.stepThread, h.phase, h.watcher, hlast,
      h.first, Pc.step, SlotStore.next, Shared.setMem, SharedState.setBreadcrumb, SlotStore.apply,
      Log.access, hi, hj, ha, h.ticket, RingWrite.slot]

def about : System := run System.step System.sample (begun ++ drawn 128 ++ resumed)

theorem read_about : (readBreadcrumb 129).run about.world =
    some { (⟨129, 0, late⟩ : RingWrite).breadcrumb with arg0 := 1 } := by
  obtain ⟨-, -, hs, -⟩ := resumed_run (drawn_run 128)
  rw [run_readBreadcrumb, System.world_mem, about, run_append, hs]
  decide

/-- Undisturbed, the snapshot returns for ticket 129 an argument of ticket 1. -/
theorem torn_read : System.sample.Initial ∧
    ¬Untorn (run System.step about (List.replicate (snapshot.loads about.world) .watcher)) := by
  obtain ⟨hw, ht, -, hc⟩ := resumed_run (drawn_run 128)
  rw [← run_append] at hw ht hc
  obtain ⟨hn, hc'⟩ := System.run_snapshotting (s := about) hw
  refine ⟨System.initial_sample, fun hu => ?_⟩
  have hm : (129, { (⟨129, 0, late⟩ : RingWrite).breadcrumb with arg0 := 1 }) ∈
      (snapshot.run about.world).breadcrumbs := by
    rw [run_snapshot_breadcrumbs, mem_readRing, System.world_mem, about, ht]
    exact ⟨(mem_ringTickets (n := 129) (by decide)).mpr (by decide), read_about⟩
  obtain ⟨d, hd, -, hb, -⟩ := hu _ (by rw [hn]; rfl) _ _ hm
  rw [hc', about, hc] at hd
  rcases (drawn_run 128).calls d hd with he | he <;>
    simp [RingWrite.breadcrumb, he, early, late] at hb

end Torn

end Peepbooth
