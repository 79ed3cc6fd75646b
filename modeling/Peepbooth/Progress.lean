import Peepbooth.Potential
import Peepbooth.System

/-! How many accesses the client's calls make among the steps of everybody else. Only the
exchange of a heartbeat is ever repeated: when it fails spuriously, or when another thread
has won it meanwhile. -/

namespace Peepbooth

open Schedule

/-- The accesses that are left once a call is let through. -/
def Work.cost : Work → Nat
  | .heartbeat _ => 5
  | .breadcrumb _ => 9

def Work.beats : Work → Bool
  | .heartbeat _ => true
  | .breadcrumb _ => false

def Call.beats : Call → Bool
  | .heartbeat _ => true
  | .setChannelActive _ active => active
  | .breadcrumb _ => false

namespace Pc

/-- The most accesses a thread has left in its call if no exchange fails. -/
def cost : Pc → Nat
  | idle => 0
  | setLoadState _ active => if active then 13 else 2
  | setStoreActive _ _ active => if active then 12 else 1
  | loadState work => work.cost + 6
  | loadPresent work => work.cost + 5
  | readClock work => work.cost + 4
  | reloadState work _ => work.cost + 3
  | reloadPresent work _ => work.cost + 2
  | loadLease work _ => work.cost + 1
  | clearPresent => 1
  | loadNext .. => 5
  | exchangeNext .. => 4
  | storeActive .. => 3
  | storeTimestamp .. => 2
  | addSequence .. => 1
  | drawTicket .. => 9
  | store w _ => 8 - w.position

/-- The exchange that the thread makes next has been lost to another one. -/
def lost (s : Shared) : Pc → Bool
  | exchangeNext index _ next => s.nextHeartbeatNs index ≠ next
  | _ => false

/-- The channel whose exchange the thread wins with its next access. -/
def wins (spurious : Bool) (s : Shared) : Pc → Option (Fin heartbeatChannelCount)
  | exchangeNext index _ next =>
    if s.nextHeartbeatNs index = next ∧ spurious = false then some index else none
  | _ => none

/-- The next access is an exchange that fails although nobody else has won it. -/
def failsSpuriously (spurious : Bool) (s : Shared) : Pc → Bool
  | exchangeNext index _ next => spurious && s.nextHeartbeatNs index = next
  | _ => false

/-- The channel whose exchange the thread is about to try. -/
def tries : Pc → Option (Fin heartbeatChannelCount)
  | exchangeNext index _ _ => some index
  | _ => none

def potential (s : Shared) (pc : Pc) : Nat := pc.cost + (pc.lost s).toNat

theorem potential_tryNext (index : Fin heartbeatChannelCount) (now : UInt64) (s : Shared) :
    (tryNext index now (s.nextHeartbeatNs index)).potential s ≤ 4 := by
  unfold tryNext
  split
  · simp [potential, cost, lost]
  · simp [potential, cost, lost]

theorem potential_admitted (work : Work) (now : UInt64) (s : Shared) :
    (admitted now work).potential s ≤ work.cost := by
  cases work with
  | breadcrumb args => exact le_rfl
  | heartbeat value =>
    simp only [admitted]
    split
    · exact le_rfl
    · exact Nat.zero_le _

/-- What a thread does itself: an access is paid for unless it is an exchange that fails. -/
theorem potential_step {pc : Pc} (hpc : pc ≠ idle) (spurious : Bool) (s : Shared) :
    (pc.step spurious s).1.potential (pc.step spurious s).2 + 1 ≤
      pc.potential s + (pc.failsSpuriously spurious s).toNat := by
  cases pc with
  | idle => exact absurd rfl hpc
  | loadNext index now =>
    have h := potential_tryNext index now s
    exact Nat.succ_le_succ h
  | exchangeNext index now next =>
    have h := potential_tryNext index now s
    by_cases hn : s.nextHeartbeatNs index = next
    · cases spurious with
      | false => simp [step, potential, cost, lost, hn]
      | true =>
        have hstep : (exchangeNext index now next).step true s =
            (tryNext index now (s.nextHeartbeatNs index), s) := by simp [step]
        have hfree : (exchangeNext index now next).potential s = 4 := by
          simp only [potential, cost, lost, hn, ne_eq, not_true, decide_false, Bool.toNat_false]
        have hfails : (exchangeNext index now next).failsSpuriously true s = true := by
          simp only [failsSpuriously, hn, decide_true, Bool.and_true]
        rw [hstep, hfree, hfails]
        exact Nat.succ_le_succ h
    · have hstep : (exchangeNext index now next).step spurious s =
          (tryNext index now (s.nextHeartbeatNs index), s) := by simp [step, hn]
      have hlost : (exchangeNext index now next).potential s = 5 := by
        simp only [potential, cost, lost, hn, ne_eq, not_false_iff, decide_true, Bool.toNat_true]
      rw [hstep, hlost]
      exact Nat.le_add_right_of_le (Nat.succ_le_succ h)
  | store w d =>
    cases w <;> simp [step, potential, cost, lost, SlotStore.next, SlotStore.position]
  | loadLease work now =>
    simp only [step]
    split
    · cases work <;> exact Nat.succ_le_succ (Nat.succ_le_succ (Nat.zero_le _))
    · exact Nat.succ_le_succ (potential_admitted work now s)
  | setLoadState value active =>
    simp only [step]
    split
    · cases active <;> exact le_rfl
    · cases active <;> exact Nat.succ_le_succ (Nat.zero_le _)
  | setStoreActive index value active => cases active <;> exact le_rfl
  | loadState work | reloadState work now =>
    simp only [step]
    split
    · exact le_rfl
    · exact Nat.succ_le_succ (Nat.zero_le _)
  | loadPresent work | reloadPresent work now =>
    simp only [step]
    split
    · exact Nat.succ_le_succ (Nat.zero_le _)
    · exact le_rfl
  | _ => exact le_rfl

/-- What another thread does to it: only an exchange that it wins is felt. -/
theorem potential_of_next (pc : Pc) {s t : Shared} {won : Option (Fin heartbeatChannelCount)}
    (h : ∀ index, won ≠ some index → t.nextHeartbeatNs index = s.nextHeartbeatNs index) :
    pc.potential t ≤ pc.potential s + (pc.tries.isSome && pc.tries = won).toNat := by
  cases pc with
  | exchangeNext index now next =>
    by_cases hw : won = some index
    · have hlost := Bool.toNat_le (c := (exchangeNext index now next).lost t)
      simp only [potential, tries, hw]
      simp
      omega
    · simp [potential, lost, h index hw]
  | _ => simp [potential, lost]

theorem step_next {pc : Pc} (spurious : Bool) (s : Shared) (index : Fin heartbeatChannelCount)
    (h : pc.wins spurious s ≠ some index) :
    (pc.step spurious s).2.nextHeartbeatNs index = s.nextHeartbeatNs index := by
  cases pc with
  | exchangeNext j now next =>
    simp only [step]
    split
    · next hx =>
      rw [wins, if_pos hx] at h
      exact Function.update_of_ne (fun he => h (congrArg some he.symm)) _ _
    · rfl
  | _ => rfl

/-- The thread is in a heartbeat, or will be once it has stored the active flag. -/
def beats : Pc → Bool
  | setLoadState _ active | setStoreActive _ _ active => active
  | loadState work | loadPresent work | readClock work | reloadState work _
  | reloadPresent work _ | loadLease work _ => work.beats
  | loadNext .. | exchangeNext .. | storeActive .. | storeTimestamp .. | addSequence .. => true
  | _ => false

theorem beats_start (call : Call) : (start call).beats = call.beats := by
  cases call <;> rfl

theorem beats_step_of_not {pc : Pc} (spurious : Bool) (s : Shared) (h : pc.beats = false) :
    (pc.step spurious s).1.beats = false := by
  cases pc with
  | setLoadState value active =>
    simp only [step]
    split
    · exact h
    · rfl
  | setStoreActive index value active =>
    obtain rfl : active = false := h
    rfl
  | loadState work | loadPresent work | reloadState work now | reloadPresent work now =>
    simp only [step]
    split
    · first | exact h | rfl
    · first | exact h | rfl
  | readClock work => exact h
  | loadLease work now =>
    cases work with
    | heartbeat value => cases h
    | breadcrumb args =>
      simp only [step]
      split <;> rfl
  | store w d => cases w <;> rfl
  | loadNext | exchangeNext | storeActive | storeTimestamp | addSequence => cases h
  | _ => rfl

theorem tries_of_not_beats {pc : Pc} (h : pc.beats = false) : pc.tries = none := by
  cases pc with
  | exchangeNext => cases h
  | _ => rfl

theorem failsSpuriously_of_tries {pc : Pc} {spurious : Bool} {s : Shared} (h : pc.tries = none) :
    pc.failsSpuriously spurious s = false := by
  cases pc with
  | exchangeNext => cases h
  | _ => rfl

theorem start_lost (call : Call) (s : Shared) : (start call).lost s = false := by
  cases call <;> rfl

end Pc

namespace System

variable {s : System} {i : Nat}

/-- An access that the thread makes in a call. -/
def accessOf (i : Nat) (s : System) : Event → Nat
  | .thread j _ => if j = i ∧ s.phase = .running ∧ s.thread i ≠ .idle then 1 else 0
  | _ => 0

/-- What a call costs that the thread begins. -/
def begunBy (i : Nat) (s : System) : Event → Nat
  | .call j call =>
    if j = i ∧ s.phase = .running ∧ s.thread i = .idle then (Pc.start call).cost else 0
  | _ => 0

/-- An exchange of the thread that fails although nobody else has won it. -/
def spuriousOf (i : Nat) (s : System) : Event → Nat
  | .thread j spurious =>
    if j = i ∧ s.phase = .running then ((s.thread i).failsSpuriously spurious s.toShared).toNat
    else 0
  | _ => 0

/-- Another thread wins the exchange that the thread is about to try. -/
def beatenBy (i : Nat) (s : System) : Event → Nat
  | .thread j spurious =>
    if j ≠ i ∧ s.phase = .running then
      ((s.thread i).tries.isSome &&
        (s.thread i).tries = (s.thread j).wins spurious s.toShared).toNat
    else 0
  | _ => 0

def potential (i : Nat) (s : System) : Nat := (s.thread i).potential s.toShared

theorem potential_thread (j : Nat) (spurious : Bool) :
    (s.step (.thread j spurious)).potential i + accessOf i s (.thread j spurious) ≤
      s.potential i + spuriousOf i s (.thread j spurious) + beatenBy i s (.thread j spurious) := by
  by_cases hr : s.phase = .running
  case neg => simp [System.step, accessOf, spuriousOf, beatenBy, hr]
  by_cases hj : j = i
  · subst hj
    by_cases hidle : s.thread j = .idle
    · simp [System.step, hr, stepThread, accessOf, hidle, Pc.step, potential, Pc.potential,
        Pc.cost, Pc.lost]
    · have h := Pc.potential_step hidle spurious s.toShared
      simpa [System.step, hr, stepThread, accessOf, spuriousOf, beatenBy, hidle, potential] using h
  · have hnext (index : Fin heartbeatChannelCount)
        (hw : (s.thread j).wins spurious s.toShared ≠ some index) :
        ((s.thread j).step spurious s.toShared).2.nextHeartbeatNs index =
          s.nextHeartbeatNs index := Pc.step_next spurious s.toShared index hw
    have h := (s.thread i).potential_of_next hnext
    have hthread : (s.step (.thread j spurious)).thread i = s.thread i := by
      simp [System.step, hr, stepThread, Ne.symm hj]
    have hshared : (s.step (.thread j spurious)).toShared =
        ((s.thread j).step spurious s.toShared).2 := by simp [System.step, hr, stepThread]
    rw [potential, hthread, hshared]
    simpa [accessOf, spuriousOf, beatenBy, hr, hj, potential] using h

theorem step_outside (s : System) {e : Event} (hc : ∀ j call, e ≠ .call j call)
    (ht : ∀ j spurious, e ≠ .thread j spurious) :
    (s.step e).thread = s.thread ∧ (s.step e).nextHeartbeatNs = s.nextHeartbeatNs := by
  cases e with
  | call j call => exact absurd rfl (hc j call)
  | thread j spurious => exact absurd rfl (ht j spurious)
  | control =>
    simp only [System.step, stepControl]
    split
    · cases s.control <;> simp only [ControlPc.step] <;> (repeat' split) <;> simp [Shared.setMem]
    · exact ⟨rfl, rfl⟩
  | watcher =>
    simp only [System.step, stepWatcher]
    (repeat' split) <;> simp
  | usage memory cpuTicks => exact ⟨rfl, rfl⟩
  | _ =>
    simp only [System.step]
    split <;> simp

theorem potential_step (s : System) (i : Nat) (e : Event) :
    (s.step e).potential i + accessOf i s e ≤
      s.potential i + (begunBy i s e + spuriousOf i s e + beatenBy i s e) := by
  have hsame (hc : ∀ j call, e ≠ .call j call) (ht : ∀ j spurious, e ≠ .thread j spurious) :
      (s.step e).potential i = s.potential i := by
    obtain ⟨hthread, hnext⟩ := s.step_outside hc ht
    rw [potential, potential, hthread, Pc.potential, Pc.potential]
    congr 2
    cases s.thread i with
    | exchangeNext index now next => simp only [Pc.lost, hnext]
    | _ => rfl
  cases e with
  | thread j spurious =>
    have h := potential_thread (s := s) (i := i) j spurious
    simp only [begunBy]
    omega
  | call j call =>
    simp only [System.step, begunBy, accessOf]
    by_cases hj : s.phase = .running ∧ s.thread j = .idle
    · rw [if_pos hj]
      by_cases hji : j = i
      · subst hji
        simp [potential, Pc.potential, hj, Pc.start_lost, spuriousOf, beatenBy]
      · simp [potential, Ne.symm hji]
    · rw [if_neg hj]
      exact Nat.le_add_right _ _
  | _ =>
    rw [hsame (by simp) (by simp)]
    exact Nat.le_add_right _ _

/-- The thread is in no heartbeat. -/
def CrumbsOnly (i : Nat) (s : System) : Prop := (s.thread i).beats = false

theorem CrumbsOnly.step (h : CrumbsOnly i s) {e : Event}
    (he : ∀ call, e = .call i call → call.beats = false) : CrumbsOnly i (s.step e) := by
  have hout := s.step_outside (e := e)
  cases e with
  | thread j spurious =>
    simp only [System.step]
    split
    · by_cases hj : j = i
      · subst hj
        simpa [CrumbsOnly, stepThread] using Pc.beats_step_of_not spurious s.toShared h
      · simpa [CrumbsOnly, stepThread, Ne.symm hj] using h
    · exact h
  | call j call =>
    simp only [System.step]
    split
    · by_cases hj : j = i
      · subst hj
        simpa [CrumbsOnly, Pc.beats_start] using he call rfl
      · simpa [CrumbsOnly, Ne.symm hj] using h
    · exact h
  | _ =>
    rw [CrumbsOnly, (hout (by simp) (by simp)).1]
    exact h

theorem CrumbsOnly.undisturbed (h : CrumbsOnly i s) (e : Event) :
    spuriousOf i s e = 0 ∧ beatenBy i s e = 0 := by
  have htries : (s.thread i).tries = none := Pc.tries_of_not_beats h
  cases e with
  | thread j spurious =>
    simp [spuriousOf, beatenBy, htries, Pc.failsSpuriously_of_tries htries]
  | _ => exact ⟨rfl, rfl⟩

/-- The accesses of a thread, whatever happens between them: those of its calls, one more
for every exchange that fails spuriously, and one more for every exchange that another
thread wins while it tries. Breadcrumbs are never disturbed at all. -/
theorem accesses_le (s : System) (i : Nat) (hi : s.thread i = .idle) (es : List Event) :
    total step (accessOf i) s es ≤
        total step (begunBy i) s es + total step (spuriousOf i) s es +
          total step (beatenBy i) s es ∧
      ((∀ call, .call i call ∈ es → call.beats = false) →
        total step (accessOf i) s es ≤ total step (begunBy i) s es) := by
  have hsteps : Permits step (fun s e => (s.step e).potential i + accessOf i s e ≤
      s.potential i + (begunBy i s e + spuriousOf i s e + beatenBy i s e)) s es :=
    permits_of_forall fun e _ s => s.potential_step i e
  have h := total_add_potential_le hsteps
  have hzero : s.potential i = 0 := by simp [potential, hi, Pc.potential, Pc.cost, Pc.lost]
  rw [hzero, total_add, total_add] at h
  refine ⟨by omega, fun hcalls => ?_⟩
  have hcrumbs : Always step (CrumbsOnly i) s es :=
    always_of_permits (G := fun _ e => ∀ call, e = .call i call → call.beats = false)
      (fun _ _ hs he => hs.step he) (by simp [CrumbsOnly, hi, Pc.beats])
      (permits_of_forall fun e he _ call hc => hcalls call (hc ▸ he))
  have hfree := (permits_of_always hcrumbs).imp fun s e hs => hs.1.undisturbed e
  rw [total_eq_zero (hfree.imp fun _ _ hs => hs.1), total_eq_zero (hfree.imp fun _ _ hs => hs.2)]
    at h
  omega

/-- Threads `a` and `b` both load the deadline of the channel, and `b` loses the exchange. -/
def rivals (a b : Nat) : List Event :=
  List.flatten [[.renew 0 10, .watcher, .watcher, .call a (.heartbeat .main),
      .call b (.heartbeat .main)],
    List.replicate 7 (.thread a false), List.replicate 7 (.thread b false),
    [.thread a false, .thread b false]]

theorem accesses_le_rivals :
    total step (beatenBy 1) sample (rivals 0 1) = 1 ∧
    (total step (accessOf 1) sample (rivals 0 1) ≤
        total step (begunBy 1) sample (rivals 0 1) + total step (spuriousOf 1) sample (rivals 0 1) +
          total step (beatenBy 1) sample (rivals 0 1) ∧
      ((∀ call, .call 1 call ∈ rivals 0 1 → call.beats = false) →
        total step (accessOf 1) sample (rivals 0 1) ≤
          total step (begunBy 1) sample (rivals 0 1))) :=
  ⟨by decide, accesses_le sample 1 rfl (rivals 0 1)⟩

end System

end Peepbooth
