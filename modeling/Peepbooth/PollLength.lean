import Peepbooth.ConsoleWatch

/-! How many loads the watcher's reads of a process can take, whatever they see. -/

namespace Peepbooth

open ReadProgram

theorem readHeartbeatAttempts_atMost (index : Fin heartbeatChannelCount) (id : Channel)
    (attempts : Nat) (result : HeartbeatSnapshot) :
    (readHeartbeatAttempts index id attempts result).AtMost (attempts * 4) := by
  induction attempts generalizing result with
  | zero => trivial
  | succ attempts ih =>
    rw [Nat.succ_mul]
    intro w₀ w₁ w₂ w₃
    simp only [done_bind]
    split
    · trivial
    · exact ih _

theorem readBreadcrumb_atMost (ticket : UInt64) : (readBreadcrumb ticket).AtMost 8 := by
  rw [readBreadcrumb_eq]
  intro w₀
  dsimp only
  split
  · trivial
  intro w₁
  dsimp only
  split
  · trivial
  exact fun _ _ _ _ _ _ => trivial

theorem readTicket_atMost (ticket : UInt64) : (readTicket ticket).AtMost 8 :=
  (readBreadcrumb_atMost ticket).bind (m := 0) fun _ => trivial

theorem length_ringTicketsFrom_le (newest : UInt64) (fuel : Nat) (ticket : UInt64) :
    (ringTicketsFrom newest fuel ticket).length ≤ fuel := by
  induction fuel generalizing ticket with
  | zero => exact Nat.le_refl 0
  | succ fuel ih =>
    rw [ringTicketsFrom]
    split
    · exact Nat.succ_le_succ (ih _)
    · exact Nat.zero_le _

theorem readRing_atMost : readRing.AtMost (breadcrumbCapacity * 8 + 1) := by
  rw [readRing_eq]
  intro w
  have h := AtMost.traverse readTicket_atMost (ringTickets w.mem.breadcrumbTicket)
  exact (h.mono (Nat.mul_le_mul_right 8 (length_ringTicketsFrom_le _ _ _))).bind (m := 0)
    fun _ => trivial

theorem snapshot_atMost :
    snapshot.AtMost (heartbeatChannelCount * 12 + (breadcrumbCapacity * 8 + 1) + 2) := by
  rw [snapshot_eq]
  intro w₀ w₁
  have h := AtMost.traverse (fun index => readHeartbeatAttempts_atMost index
    ⟨index.val.toUInt8 + 1⟩ 3 { id := ⟨index.val.toUInt8 + 1⟩ })
    (List.finRange heartbeatChannelCount)
  rw [List.length_finRange] at h
  change AtMost _ (heartbeatChannelCount * 12 + (breadcrumbCapacity * 8 + 1))
  exact h.bind fun heartbeats => AtMost.bind (m := 0) readRing_atMost fun _ => trivial

theorem ProcessHandle.alive_atMost (h : ProcessHandle) : h.alive.AtMost 2 := by
  rw [ProcessHandle.alive_eq]
  intro w
  dsimp only
  split
  · trivial
  · exact fun _ => trivial

theorem ProcessHandle.waitForExit_atMost (h : ProcessHandle) : h.waitForExit.AtMost 2 := by
  unfold ProcessHandle.waitForExit
  split
  · exact fun _ => trivial
  · exact h.alive_atMost.bind (m := 0) fun _ => trivial

theorem sampleProcess_atMost (pid : UInt32) : (sampleProcess pid).AtMost 3 := by
  intro w₀ w₁
  simp only [done_bind]
  split
  · exact fun _ => trivial
  · trivial

/-- The loads of one poll. -/
def pollLoads : Nat := 3 + (heartbeatChannelCount * 12 + (breadcrumbCapacity * 8 + 1) + 2 + (2 + 1))

theorem pollReads_atMost (process : ProcessHandle) : (pollReads process).AtMost pollLoads := by
  rw [pollReads_eq]
  exact (sampleProcess_atMost _).bind fun _ => snapshot_atMost.bind fun _ =>
    process.alive_atMost.bind fun _ _ => trivial

end Peepbooth
