import Peepbooth.Interference

/-! The breadcrumb ring by itself: a ticket counter, the slots, and the calls
that have drawn a ticket and still have stores to make. Every step of the
system is a draw, a store, or leaves the ring alone. -/

namespace Peepbooth

structure Ring where
  ticket : UInt64
  slots : Fin breadcrumbCapacity → BreadcrumbSlot
  pending : Nat → Option (SlotStore × RingWrite)
  calls : List RingWrite
  closed : List RingWrite
  owner : Fin breadcrumbCapacity → Option Nat

namespace Ring

/-- The call that thread `i` would become by drawing a ticket. -/
def drawn (r : Ring) (args : BreadcrumbArgs) (now : UInt64) : RingWrite := ⟨r.ticket + 1, now, args⟩

def draw (r : Ring) (i : Nat) (d : RingWrite) : Ring :=
  { r with
    ticket := d.ticket
    pending := Function.update r.pending i (some (.opening, d))
    calls := r.calls ++ [d] }

def store (r : Ring) (i : Nat) (w : SlotStore) (d : RingWrite) : Ring :=
  { r with
    slots := Function.update r.slots d.index (w.apply d (r.slots d.index))
    pending := Function.update r.pending i (w.next.map (·, d))
    closed := if w = .closing then d :: r.closed else r.closed
    owner := Function.update r.owner d.index
      (if w = .opening then some i else if w = .closing then none else r.owner d.index) }

variable {r : Ring} {i j : Nat} {w w' : SlotStore} {d d' : RingWrite}

theorem draw_pending_self (r : Ring) (i : Nat) (d : RingWrite) :
    (r.draw i d).pending i = some (.opening, d) := Function.update_self ..

theorem store_pending_self (r : Ring) (i : Nat) (w : SlotStore) (d : RingWrite) :
    (r.store i w d).pending i = w.next.map (·, d) := Function.update_self ..

theorem draw_pending_ne (h : j ≠ i) : (r.draw i d).pending j = r.pending j :=
  Function.update_of_ne h _ _

theorem store_pending_ne (h : j ≠ i) : (r.store i w d).pending j = r.pending j :=
  Function.update_of_ne h _ _

theorem store_slots_ne {k : Fin breadcrumbCapacity} (h : k ≠ d.index) :
    (r.store i w d).slots k = r.slots k := Function.update_of_ne h _ _

theorem draw_pending_cases (h : (r.draw i d).pending j = some (w, d')) :
    j = i ∧ w = .opening ∧ d' = d ∨ j ≠ i ∧ r.pending j = some (w, d') := by
  by_cases hj : j = i
  · subst hj
    rw [draw_pending_self] at h
    cases h
    exact .inl ⟨rfl, rfl, rfl⟩
  · exact .inr ⟨hj, draw_pending_ne hj ▸ h⟩

theorem store_pending_cases (h : (r.store i w d).pending j = some (w', d')) :
    j = i ∧ w.next = some w' ∧ d' = d ∨ j ≠ i ∧ r.pending j = some (w', d') := by
  by_cases hj : j = i
  · subst hj
    rw [store_pending_self, Option.map_eq_some_iff] at h
    obtain ⟨w'', hw, he⟩ := h
    cases he
    exact .inl ⟨rfl, hw, rfl⟩
  · exact .inr ⟨hj, store_pending_ne hj ▸ h⟩

theorem mem_store_closed : d' ∈ (r.store i w d).closed ↔ d' ∈ r.closed ∨ w = .closing ∧ d' = d := by
  by_cases hw : w = .closing <;> simp [store, hw, or_comm]

end Ring

/-- The store to the ring that a thread makes next. -/
def Pc.pending : Pc → Option (SlotStore × RingWrite)
  | .store w d => some (w, d)
  | _ => none

def System.ring (s : System) : Ring where
  ticket := s.mem.breadcrumbTicket
  slots := s.mem.breadcrumbs
  pending i := (s.thread i).pending
  calls := s.log.calls
  closed := s.log.closed
  owner := s.log.owner

inductive RingStep (s : System) (e : Event) (r : Ring) : Prop
  | quiet (h : r = s.ring)
  | draw (i : Nat) (spurious : Bool) (args : BreadcrumbArgs) (now : UInt64)
      (he : e = .thread i spurious) (hp : s.phase = .running)
      (hpc : s.thread i = .drawTicket args now) (h : r = s.ring.draw i (s.ring.drawn args now))
  | store (i : Nat) (spurious : Bool) (w : SlotStore) (d : RingWrite)
      (he : e = .thread i spurious) (hp : s.phase = .running)
      (hpc : s.thread i = .store w d) (h : r = s.ring.store i w d)

@[simp] theorem Pc.pending_store (w : SlotStore) (d : RingWrite) :
    (Pc.store w d).pending = some (w, d) := rfl

@[simp] theorem Pc.pending_idle : Pc.idle.pending = none := rfl

theorem pending_update (thread : Nat → Pc) (i : Nat) (pc : Pc) :
    (fun j => (Function.update thread i pc j).pending) =
      Function.update (fun j => (thread j).pending) i pc.pending :=
  Function.comp_update Pc.pending thread i pc

theorem pending_update_none {thread : Nat → Pc} {i : Nat} {pc : Pc}
    (hi : (thread i).pending = none) (hpc : pc.pending = none) :
    (fun j => (Function.update thread i pc j).pending) = fun j => (thread j).pending := by
  rw [pending_update, hpc, Function.update_eq_self_iff, hi]

theorem Pc.step_quiet {pc : Pc} (s : Shared) (log : Log) (i : Nat) (spurious : Bool)
    (hd : ∀ args now, pc ≠ .drawTicket args now) (hw : ∀ w d, pc ≠ .store w d) :
    (pc.step spurious s).1.pending = none ∧
    (pc.step spurious s).2.mem.breadcrumbs = s.mem.breadcrumbs ∧
    (pc.step spurious s).2.mem.breadcrumbTicket = s.mem.breadcrumbTicket ∧
    (log.access i s pc).calls = log.calls ∧ (log.access i s pc).closed = log.closed ∧
    (log.access i s pc).owner = log.owner := by
  cases pc with
  | drawTicket args now => exact absurd rfl (hd args now)
  | store w d => exact absurd rfl (hw w d)
  | readClock work =>
    cases work with
    | heartbeat value => simp only [step, Log.access]; split <;> simp [pending]
    | breadcrumb args => simp [step, Log.access, pending]
  | loadLease work now =>
    cases work <;> simp only [step, Log.access, admitted] <;> repeat' split
    all_goals simp [pending]
  | _ =>
    simp only [step, Log.access, tryNext]
    repeat' split
    all_goals simp [pending, Shared.setMem, SharedState.setHeartbeat]

theorem System.stepThread_quiet {s : System} {i : Nat} (spurious : Bool)
    (hd : ∀ args now, s.thread i ≠ .drawTicket args now) (hw : ∀ w d, s.thread i ≠ .store w d) :
    (s.stepThread i spurious).ring = s.ring := by
  have hh := Pc.step_quiet s.toShared s.log i spurious hd hw
  have hi : (s.thread i).pending = none := by
    cases hpc : s.thread i with
    | store w d => exact absurd hpc (hw w d)
    | _ => rfl
  simp only [System.ring, System.stepThread, pending_update_none hi hh.1, hh.2]

theorem System.step_ring (s : System) (e : Event) : RingStep s e (s.step e).ring := by
  cases e with
  | thread i spurious =>
    by_cases hp : s.phase = .running
    · have hs : s.step (.thread i spurious) = s.stepThread i spurious := by simp [System.step, hp]
      rw [hs]
      cases hpc : s.thread i with
      | drawTicket args now =>
        refine .draw i spurious args now rfl hp hpc ?_
        simp [System.stepThread, hpc, Pc.step, System.ring, Ring.draw, Ring.drawn, Shared.setMem,
          Log.access, pending_update]
      | store w d =>
        refine .store i spurious w d rfl hp hpc ?_
        cases w <;> simp [System.stepThread, hpc, Pc.step, System.ring, Ring.store, Shared.setMem,
          Log.access, pending_update, SlotStore.next, SharedState.setBreadcrumb]
      | _ => exact .quiet (System.stepThread_quiet spurious (by simp [hpc]) (by simp [hpc]))
    · exact .quiet (by simp [System.step, hp])
  | call i call =>
    refine .quiet ?_
    simp only [System.step]
    split
    · next h =>
      have hi : (s.thread i).pending = none := by rw [h.2]; rfl
      simp only [System.ring, pending_update_none hi (show (Pc.start call).pending = none by
        cases call <;> rfl)]
    · rfl
  | watcher =>
    refine .quiet ?_
    have hload : ∀ p, (s.log.load p).calls = s.log.calls ∧ (s.log.load p).closed = s.log.closed ∧
        (s.log.load p).owner = s.log.owner := by
      intro p
      cases p <;> simp [Log.load]
    rcases hw : s.watcher with _ | (r | ⟨place, next⟩) | (r | ⟨place, next⟩) | _ | _ | _ | _ <;>
      simp only [System.step, System.stepWatcher, hw]
    case polling.done => split <;> rfl
    case snapshotting.load => simp only [System.ring, hload]
    case polling.load => simp only [System.ring, hload]
    all_goals rfl
  | control =>
    refine .quiet ?_
    simp only [System.step, System.stepControl]
    split
    · cases s.control <;> simp only [ControlPc.step] <;> (repeat' split) <;> rfl
    · rfl
  | _ =>
    refine .quiet ?_
    simp only [System.step]
    (repeat' split) <;> rfl

end Peepbooth
