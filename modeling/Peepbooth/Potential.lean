import Peepbooth.Schedule

/-! What the steps of a run cost together, and bounds on it by a potential: a step that is
paid for lowers the potential, unless somebody is charged for it. -/

namespace Schedule

variable {σ ε : Type*} {step : σ → ε → σ} {s : σ} {es : List ε} {c d : σ → ε → Nat}

/-- The sum of the costs `c` of the steps of a run. -/
def total (step : σ → ε → σ) (c : σ → ε → Nat) : σ → List ε → Nat
  | _, [] => 0
  | s, e :: es => c s e + total step c (step s e) es

theorem total_add :
    total step (fun s e => c s e + d s e) s es = total step c s es + total step d s es := by
  induction es generalizing s with
  | nil => rfl
  | cons e es ih =>
    simp only [total, ih]
    omega

theorem total_eq_zero (h : Permits step (fun s e => c s e = 0) s es) : total step c s es = 0 := by
  induction es generalizing s with
  | nil => rfl
  | cons e es ih => rw [total, h.1, ih h.2]

/-- The gains of a measure that is never lowered add up to all that it gains. -/
theorem total_gain {f : σ → Nat} (h : Permits step (fun s e => f s ≤ f (step s e)) s es) :
    total step (fun s e => f (step s e) - f s) s es + f s = f (run step s es) := by
  induction es generalizing s with
  | nil => exact Nat.zero_add _
  | cons e es ih =>
    have hle := h.1
    have hrest := ih h.2
    rw [total, run_cons]
    omega

/-- Where every step that costs `pay` takes it from the potential `φ` or from `charge`, the
whole run costs no more than the potential at the start and all that was charged. -/
theorem total_add_potential_le {φ : σ → Nat} {pay charge : σ → ε → Nat}
    (h : Permits step (fun s e => φ (step s e) + pay s e ≤ φ s + charge s e) s es) :
    total step pay s es + φ (run step s es) ≤ φ s + total step charge s es := by
  induction es generalizing s with
  | nil => simp [total]
  | cons e es ih =>
    have hstep := h.1
    have hrest := ih h.2
    rw [run_cons, total, total]
    omega

/-- Where nobody is charged, the potential at the start bounds the cost. -/
theorem total_le_potential (f : σ → Nat)
    (h : Permits step (fun s e => f (step s e) + c s e ≤ f s) s es) :
    total step c s es ≤ f s := by
  induction es generalizing s with
  | nil => exact Nat.zero_le _
  | cons e es ih =>
    have hstep := h.1
    have hrest := ih h.2
    rw [total]
    omega

end Schedule
