import Peepbooth.Ring
import Peepbooth.Lease

/-! The breadcrumb calls of a run, each followed from the event that makes it to its return. -/

namespace Peepbooth

open Schedule

variable {s u : System} {i : Nat} {args : BreadcrumbArgs} {inside : List Event} {e : Event}

/-- Thread `i` makes a call in `s` and has not returned from it after the events `inside`. -/
structure System.InCall (s : System) (i : Nat) (call : Call) (inside : List Event) : Prop where
  running : s.phase = .running
  idle : s.thread i = .idle
  busy : ∀ n ≤ inside.length,
    (run System.step (s.step (.call i call)) (inside.take n)).thread i ≠ .idle

/-- Thread `i` makes a call in `s` and returns from it with the last of the events `inside`. -/
structure System.Returns (s : System) (i : Nat) (call : Call) (inside : List Event) : Prop where
  running : s.phase = .running
  idle : s.thread i = .idle
  busy : ∀ n < inside.length,
    (run System.step (s.step (.call i call)) (inside.take n)).thread i ≠ .idle
  returns : (run System.step (s.step (.call i call)) inside).thread i = .idle

/-- Among the events `inside` thread `i` makes the access `pc` in a state with `P`. -/
def System.Accesses (u : System) (i : Nat) (inside : List Event) (pc : Pc) (P : System → Prop) :
    Prop :=
  ∃ x spurious y, inside = x ++ .thread i spurious :: y ∧
    (run System.step u x).phase = .running ∧ (run System.step u x).thread i = pc ∧
    P (run System.step u x)

def System.Reads (u : System) (i : Nat) (args : BreadcrumbArgs) (inside : List Event)
    (now : UInt64) : Prop :=
  u.Accesses i inside (.readClock (.breadcrumb args)) (·.clock = now)

def System.Draws (u : System) (i : Nat) (inside : List Event) (d : RingWrite) : Prop :=
  u.Accesses i inside (.drawTicket d.args d.now) (d.ticket = ·.mem.breadcrumbTicket + 1)

/-- Thread `i` makes the breadcrumb call `d` in `s`: it returns from it with the last of the
events `inside`, among which it has read the clock and drawn the ticket. -/
structure System.Publishes (s : System) (i : Nat) (inside : List Event) (d : RingWrite) :
    Prop where
  returns : s.Returns i (.breadcrumb d.args) inside
  reads : (s.step (.call i (.breadcrumb d.args))).Reads i d.args inside d.now
  draws : (s.step (.call i (.breadcrumb d.args))).Draws i inside d

/-- The breadcrumb call `d` of the run has been made and has returned. -/
def System.Published (s : System) (es : List Event) (d : RingWrite) : Prop :=
  ∃ before i inside after, es = before ++ .call i (.breadcrumb d.args) :: (inside ++ after) ∧
    (run System.step s before).Publishes i inside d

/-- A watcher has a lease that the clock has not passed. -/
def System.Watched (s : System) : Prop :=
  s.state = true ∧ s.mem.watcherPresent ≠ 0 ∧ s.clock ≤ s.mem.watcherLeaseUntilNs

instance (s : System) : Decidable s.Watched := inferInstanceAs (Decidable (_ ∧ _ ∧ _))

def Work.crumb : Work → Option BreadcrumbArgs
  | .heartbeat _ => none
  | .breadcrumb args => some args

/-- The arguments of the breadcrumb call that a thread is in, as long as it is not refused. -/
def Pc.crumb : Pc → Option BreadcrumbArgs
  | .loadState work | .loadPresent work | .readClock work | .reloadState work _
  | .reloadPresent work _ | .loadLease work _ => work.crumb
  | .drawTicket args _ => some args
  | .store _ d => some d.args
  | _ => none

/-- What the call that thread `i` is in has done so far. -/
def System.Progress (u : System) (i : Nat) (inside : List Event) : Pc → Prop
  | .reloadState (.breadcrumb args) now | .reloadPresent (.breadcrumb args) now
  | .loadLease (.breadcrumb args) now | .drawTicket args now => u.Reads i args inside now
  | .store _ d => u.Reads i d.args inside d.now ∧ u.Draws i inside d
  | _ => True

theorem System.Accesses.append {pc : Pc} {P : System → Prop} (h : u.Accesses i inside pc P)
    (y : List Event) : u.Accesses i (inside ++ y) pc P := by
  obtain ⟨x, spurious, z, rfl, hx⟩ := h
  exact ⟨x, spurious, z ++ y, by simp, hx⟩

theorem System.Reads.append {now : UInt64} (h : u.Reads i args inside now) (y : List Event) :
    u.Reads i args (inside ++ y) now := Accesses.append h y

theorem System.Draws.append {d : RingWrite} (h : u.Draws i inside d) (y : List Event) :
    u.Draws i (inside ++ y) d := Accesses.append h y

theorem System.Published.append {es : List Event} {d : RingWrite} (h : s.Published es d)
    (y : List Event) : s.Published (es ++ y) d := by
  obtain ⟨before, i, inside, after, rfl, hh⟩ := h
  exact ⟨before, i, inside, after ++ y, by simp, hh⟩

theorem System.InCall.append {call : Call} (h : s.InCall i call inside)
    (hi : (run System.step (s.step (.call i call)) (inside ++ [e])).thread i ≠ .idle) :
    s.InCall i call (inside ++ [e]) where
  running := h.running
  idle := h.idle
  busy n hn := by
    rcases Nat.lt_or_ge inside.length n with hlt | hle
    · rwa [List.take_of_length_le (by simpa [Nat.succ_le_iff] using hlt)]
    · rw [List.take_append_of_le_length hle]
      exact h.busy n hle

theorem System.InCall.returns {call : Call} (h : s.InCall i call inside)
    (hi : (run System.step (s.step (.call i call)) (inside ++ [e])).thread i = .idle) :
    s.Returns i call (inside ++ [e]) where
  running := h.running
  idle := h.idle
  busy n hn := by
    have hle : n ≤ inside.length := by simpa [Nat.lt_succ_iff] using hn
    rw [List.take_append_of_le_length hle]
    exact h.busy n hle
  returns := hi

theorem System.Progress.append {pc : Pc} (h : u.Progress i inside pc) (y : List Event) :
    u.Progress i (inside ++ y) pc := by
  cases pc with
  | reloadState work now | reloadPresent work now | loadLease work now =>
    cases work with
    | heartbeat value => trivial
    | breadcrumb args => exact Reads.append h y
  | drawTicket args now => exact Reads.append h y
  | store w d => exact ⟨h.1.append y, h.2.append y⟩
  | _ => trivial

inductive ThreadStep (s : System) (i : Nat) (e : Event) : Pc → Prop
  | quiet : ThreadStep s i e (s.thread i)
  | access (spurious : Bool) (he : e = .thread i spurious) (hp : s.phase = .running) :
    ThreadStep s i e ((s.thread i).step spurious s.toShared).1
  | call (call : Call) (he : e = .call i call) (hp : s.phase = .running)
    (hi : s.thread i = .idle) : ThreadStep s i e (Pc.start call)

theorem System.thread_access (hp : s.phase = .running) (spurious : Bool) :
    (s.step (.thread i spurious)).thread i = ((s.thread i).step spurious s.toShared).1 := by
  simp [System.step, hp, System.stepThread]

theorem System.step_thread (s : System) (i : Nat) (e : Event) :
    ThreadStep s i e ((s.step e).thread i) := by
  cases e with
  | thread j spurious =>
    simp only [System.step]
    split
    · next hp =>
      by_cases hij : i = j
      · subst hij
        simp only [System.stepThread, Function.update_self]
        exact .access spurious rfl hp
      · simp only [System.stepThread, Function.update_of_ne hij]
        exact .quiet
    · exact .quiet
  | call j call =>
    simp only [System.step]
    split
    · next hp =>
      by_cases hij : i = j
      · subst hij
        simp only [Function.update_self]
        exact .call call rfl hp.1 hp.2
      · simp only [Function.update_of_ne hij]
        exact .quiet
    · exact .quiet
  | watcher =>
    rw [s.step_watcher_keeps.1]
    exact .quiet
  | control =>
    simp only [System.step, System.stepControl]
    split <;> exact .quiet
  | _ =>
    simp only [System.step]
    (repeat' split) <;> exact .quiet

/-- The next access of a breadcrumb call: it goes on with the same arguments, or it has made
its last store, or it is refused. -/
theorem Pc.step_crumb {pc : Pc} (h : pc.crumb = some args) (spurious : Bool) (s : Shared) :
    (pc.step spurious s).1.crumb = some args ∨
      (∃ d, pc = .store .closing d) ∨
      s.state = false ∨ s.mem.watcherPresent = 0 ∨
        ∃ now, pc.now = some now ∧ s.mem.watcherLeaseUntilNs < now := by
  cases pc with
  | loadState work =>
    cases hs : s.state <;> cases work <;> simp_all [Pc.step, Pc.crumb]
  | loadPresent work =>
    by_cases hp : s.mem.watcherPresent = 0 <;> cases work <;> simp_all [Pc.step, Pc.crumb]
  | readClock work => cases work <;> simp_all [Pc.step, Pc.crumb]
  | reloadState work now =>
    cases hs : s.state <;> cases work <;> simp_all [Pc.step, Pc.crumb]
  | reloadPresent work now =>
    by_cases hp : s.mem.watcherPresent = 0 <;> cases work <;> simp_all [Pc.step, Pc.crumb]
  | loadLease work now =>
    cases work with
    | heartbeat value => cases h
    | breadcrumb a =>
      by_cases hl : s.mem.watcherLeaseUntilNs < now
      · exact .inr (.inr (.inr (.inr ⟨now, rfl, hl⟩)))
      · simp only [Pc.step, if_neg hl]
        exact .inl h
  | drawTicket a now => simp_all [Pc.step, Pc.crumb]
  | store w d => cases w <;> simp_all [Pc.step, Pc.crumb, SlotStore.next]
  | _ => cases h

theorem System.Progress.access {pc : Pc} (h : u.Progress i inside pc)
    (hp : (run System.step u inside).phase = .running)
    (hpc : (run System.step u inside).thread i = pc) (hc : pc.crumb = some args)
    (spurious : Bool) :
    u.Progress i (inside ++ [.thread i spurious])
      (pc.step spurious (run System.step u inside).toShared).1 := by
  have hkeep := h.append [.thread i spurious]
  cases pc with
  | loadState work => simp only [Pc.step]; split <;> trivial
  | loadPresent work => simp only [Pc.step]; split <;> trivial
  | readClock work =>
    cases work with
    | heartbeat value => cases hc
    | breadcrumb a => exact ⟨inside, spurious, [], rfl, hp, hpc, rfl⟩
  | reloadState work now =>
    cases work with
    | heartbeat value => cases hc
    | breadcrumb a =>
      simp only [Pc.step]
      split
      · exact hkeep
      · trivial
  | reloadPresent work now =>
    cases work with
    | heartbeat value => cases hc
    | breadcrumb a =>
      simp only [Pc.step]
      split
      · trivial
      · exact hkeep
  | loadLease work now =>
    cases work with
    | heartbeat value => cases hc
    | breadcrumb a =>
      simp only [Pc.step]
      split
      · trivial
      · exact hkeep
  | drawTicket a now => exact ⟨hkeep, inside, spurious, [], rfl, hp, hpc, rfl⟩
  | store w d =>
    simp only [Pc.step]
    cases w.next with
    | none => trivial
    | some w' => exact hkeep
  | _ => cases hc

theorem Pc.crumb_of_step {pc : Pc} (spurious : Bool) (s : Shared)
    (h : (pc.step spurious s).1.crumb = some args) : pc.crumb = some args := by
  cases pc with
  | loadState work | loadPresent work | reloadState work now | reloadPresent work now =>
    simp only [step] at h
    split at h <;> first | exact h | cases h
  | readClock work | drawTicket a now => exact h
  | loadLease work now =>
    simp only [step] at h
    split at h
    · cases h
    · cases work with
      | heartbeat value =>
        simp only [admitted] at h
        split at h <;> cases h
      | breadcrumb a => exact h
  | store w d =>
    cases hw : w.next with
    | none =>
      simp only [step, hw] at h
      cases h
    | some w' =>
      simp only [step, hw] at h
      exact h
  | setLoadState | setStoreActive | loadNext =>
    simp only [step, tryNext] at h
    split at h <;> cases h
  | exchangeNext index now next =>
    simp only [step, tryNext] at h
    split at h
    · cases h
    · split at h <;> cases h
  | idle | clearPresent | storeActive | storeTimestamp | addSequence => cases h

theorem Pc.crumb_start {call : Call} (h : (Pc.start call).crumb = some args) :
    call = .breadcrumb args := by
  cases call <;> simp_all [start, crumb, Work.crumb]

theorem System.calls_step (s : System) (e : Event) : s.log.calls <+: (s.step e).log.calls := by
  have hc (r : Ring) (h : (s.step e).ring = r) : (s.step e).log.calls = r.calls :=
    congrArg Ring.calls h
  rcases s.step_ring e with h | ⟨i, spurious, args, now, -, -, -, h⟩ |
    ⟨i, spurious, w, d, -, -, -, h⟩ <;> rw [hc _ h]
  · exact List.prefix_refl _
  · exact List.prefix_append _ _
  · exact List.prefix_refl _

theorem System.closed_step (s : System) (e : Event) {d : RingWrite} :
    d ∈ (s.step e).log.closed ↔ d ∈ s.log.closed ∨
      ∃ i spurious, e = .thread i spurious ∧ s.phase = .running ∧
        s.thread i = .store .closing d := by
  have hc (r : Ring) (h : (s.step e).ring = r) : (s.step e).log.closed = r.closed :=
    congrArg Ring.closed h
  constructor
  · intro hd
    rcases s.step_ring e with h | ⟨i, spurious, args, now, he, hp, hpc, h⟩ |
      ⟨i, spurious, w, c, he, hp, hpc, h⟩ <;> rw [hc _ h] at hd
    · exact .inl hd
    · exact .inl hd
    · rcases Ring.mem_store_closed.mp hd with hd | ⟨rfl, rfl⟩
      · exact .inl hd
      · exact .inr ⟨i, spurious, he, hp, hpc⟩
  · rintro (hd | ⟨i, spurious, rfl, hp, hpc⟩)
    · rcases s.step_ring e with h | ⟨i, spurious, args, now, he, hp, hpc, h⟩ |
        ⟨i, spurious, w, c, he, hp, hpc, h⟩ <;> rw [hc _ h]
      · exact hd
      · exact hd
      · exact Ring.mem_store_closed.mpr (.inl hd)
    · simp [System.step, hp, System.stepThread, hpc, Log.access]

/-- A breadcrumb call that is under way was made at some point of the run. -/
theorem System.Initial.underway {es : List Event} (h : s.Initial)
    (hc : ((run System.step s es).thread i).crumb = some args) :
    ∃ before inside, es = before ++ .call i (.breadcrumb args) :: inside ∧
      (run System.step s before).InCall i (.breadcrumb args) inside ∧
      ((run System.step s before).step (.call i (.breadcrumb args))).Progress i inside
        ((run System.step s es).thread i) := by
  induction es using List.reverseRecOn with
  | nil => simp [h.thread, Pc.crumb] at hc
  | append_singleton es e ih =>
    rw [run_concat] at hc ⊢
    have hs := (run System.step s es).step_thread i e
    have hne : ((run System.step s es).step e).thread i ≠ .idle := by
      intro hi
      rw [hi] at hc
      cases hc
    generalize hpc : ((run System.step s es).step e).thread i = pc at hs hc hne ⊢
    cases hs with
    | quiet =>
      obtain ⟨before, inside, rfl, hin, hprog⟩ := ih hc
      simp only [run_append, run_cons] at hpc hprog ⊢
      refine ⟨before, inside ++ [e], by simp, hin.append ?_, hprog.append [e]⟩
      rw [run_concat, hpc]
      simpa only [run_append, run_cons] using hne
    | access spurious he hp =>
      subst he
      have hc' := Pc.crumb_of_step spurious _ hc
      obtain ⟨before, inside, rfl, hin, hprog⟩ := ih hc'
      simp only [run_append, run_cons] at hp hpc hc' hprog ⊢
      refine ⟨before, inside ++ [.thread i spurious], by simp, hin.append ?_,
        hprog.access hp rfl hc' spurious⟩
      rw [run_concat, hpc]
      simpa only [run_append, run_cons] using hne
    | call call he hp hi =>
      subst he
      obtain rfl := Pc.crumb_start hc
      refine ⟨es, [], rfl, ⟨hp, hi, fun n _ => ?_⟩, trivial⟩
      rw [List.take_nil, run_nil, hpc]
      exact hne

theorem System.Initial.published_of_closed {es : List Event} (h : s.Initial) {d : RingWrite}
    (hd : d ∈ (run System.step s es).log.closed) : s.Published es d := by
  induction es using List.reverseRecOn with
  | nil => simp [h.log] at hd
  | append_singleton es e ih =>
    rw [run_concat, System.closed_step] at hd
    rcases hd with hd | ⟨i, spurious, rfl, hp, hpc⟩
    · exact (ih hd).append [e]
    have hc : ((run System.step s es).thread i).crumb = some d.args := by rw [hpc]; rfl
    obtain ⟨before, inside, rfl, hin, hprog⟩ := h.underway hc
    rw [hpc] at hprog
    refine ⟨before, i, inside ++ [.thread i spurious], [], by simp, hin.returns ?_,
      hprog.1.append _, hprog.2.append _⟩
    simp only [run_append, run_cons] at hp hpc
    rw [run_concat, System.thread_access hp, hpc]
    rfl

theorem System.closed_run (es : List Event) {d : RingWrite} (hd : d ∈ s.log.closed) :
    d ∈ (run System.step s es).log.closed :=
  invariant_of_step (I := fun s : System => d ∈ s.log.closed)
    (fun s e h => (s.closed_step e).mpr (.inl h)) hd es

/-- A call that makes its stores and is out of them has closed its slot. -/
theorem System.closed_of_store {es : List Event} {w : SlotStore} {d : RingWrite}
    (hpc : s.thread i = .store w d) (hi : (run System.step s es).thread i = .idle) :
    d ∈ (run System.step s es).log.closed := by
  induction es generalizing s w with
  | nil =>
    rw [run_nil, hpc] at hi
    cases hi
  | cons e es ih =>
    rw [run_cons] at hi ⊢
    have hs := s.step_thread i e
    generalize hpc' : (s.step e).thread i = pc at hs
    cases hs with
    | quiet => exact ih (hpc'.trans hpc) hi
    | access spurious he hp =>
      rw [hpc] at hpc'
      cases hw : w.next with
      | some w' =>
        simp only [Pc.step, hw] at hpc'
        exact ih hpc' hi
      | none =>
        obtain rfl : w = .closing := by cases w <;> simp_all [SlotStore.next]
        exact System.closed_run es ((s.closed_step e).mpr (.inr ⟨i, spurious, he, hp, hpc⟩))
    | call call he hp hidle =>
      rw [hpc] at hidle
      cases hidle

theorem System.closed_of_published {es : List Event} {d : RingWrite} (h : s.Published es d) :
    d ∈ (run System.step s es).log.closed := by
  obtain ⟨before, i, inside, after, rfl, hret, -, x, spurious, y, rfl, hp, hpc, ht⟩ := h
  have hi := hret.returns
  simp only [run_append, run_cons] at hi ⊢
  refine System.closed_run after (System.closed_of_store (i := i) (w := .opening) ?_ hi)
  rw [System.thread_access hp, hpc, Pc.step, ← ht]

theorem System.Initial.mem_closed {es : List Event} (h : s.Initial) {d : RingWrite} :
    d ∈ (run System.step s es).log.closed ↔ s.Published es d :=
  ⟨h.published_of_closed, System.closed_of_published⟩

/-- Under a live lease a breadcrumb call goes on until it has made its stores. -/
theorem System.Progress.step {x : List Event} {pc : Pc} (h : u.Progress i x pc)
    (hpc : (run System.step u x).thread i = pc) (hc : pc.crumb = some args)
    (hclock : (run System.step u x).Clocked) (hw : (run System.step u x).Watched) (e : Event) :
    (((run System.step u (x ++ [e])).thread i).crumb = some args ∧
      u.Progress i (x ++ [e]) ((run System.step u (x ++ [e])).thread i)) ∨
    ∃ d, d.args = args ∧ u.Reads i args x d.now ∧ u.Draws i x d := by
  have hs := (run System.step u x).step_thread i e
  rw [run_concat]
  generalize ((run System.step u x).step e).thread i = pc' at hs
  cases hs with
  | quiet =>
    rw [hpc]
    exact .inl ⟨hc, h.append [e]⟩
  | access spurious he hp =>
    subst he
    rw [hpc]
    rcases Pc.step_crumb hc spurious (run System.step u x).toShared with
      hgo | ⟨d, rfl⟩ | hst | hpr | ⟨now, hnow, hl⟩
    · exact .inl ⟨hgo, h.access hp hpc hc spurious⟩
    · obtain rfl : d.args = args := Option.some.inj hc
      exact .inr ⟨d, rfl, h⟩
    · exact absurd (hw.1.symm.trans hst) (by decide)
    · exact absurd hpr hw.2.1
    · have hle := UInt64.le_trans (hclock i now (hpc ▸ hnow)) hw.2.2
      exact absurd hl (UInt64.not_lt.mpr hle)
  | call call he hp hidle =>
    rw [hpc] at hidle
    subst hidle
    cases hc

/-- A call that a watcher's lease covers from its beginning to its return is published. -/
theorem System.Returns.publishes (hclock : s.Clocked) (h : s.Returns i (.breadcrumb args) inside)
    (hw : Always System.step System.Watched (s.step (.call i (.breadcrumb args))) inside) :
    ∃ d, d.args = args ∧ s.Publishes i inside d := by
  let u := s.step (.call i (.breadcrumb args))
  have hu : u.thread i = .loadState (.breadcrumb args) := by
    simp [u, System.step, h.running, h.idle, Pc.start]
  have hprog : ∀ x, x <+: inside →
      (((run System.step u x).thread i).crumb = some args ∧
        u.Progress i x ((run System.step u x).thread i)) ∨
      ∃ d, d.args = args ∧ u.Reads i args x d.now ∧ u.Draws i x d := by
    intro x
    induction x using List.reverseRecOn with
    | nil =>
      intro _
      rw [run_nil, hu]
      exact .inl ⟨rfl, trivial⟩
    | append_singleton x e ih =>
      rintro ⟨y, rfl⟩
      rcases ih ⟨e :: y, by simp⟩ with ⟨hc, hprog⟩ | ⟨d, rfl, hr, hd⟩
      · have hcl : (run System.step u x).Clocked :=
          invariant_of_step (fun s e => s.clocked_step e) (s.clocked_step _ hclock) x
        have hwx : (run System.step u x).Watched :=
          (always_append.mp (always_append.mp hw).1).1.last
        refine (hprog.step rfl hc hcl hwx e).imp_right ?_
        rintro ⟨d, rfl, hr, hd⟩
        exact ⟨d, rfl, hr.append [e], hd.append [e]⟩
      · exact .inr ⟨d, rfl, hr.append [e], hd.append [e]⟩
  rcases hprog inside (List.prefix_refl _) with ⟨hc, -⟩ | ⟨d, rfl, hr, hd⟩
  · rw [h.returns] at hc
    cases hc
  · exact ⟨d, rfl, h, hr, hd⟩

end Peepbooth
