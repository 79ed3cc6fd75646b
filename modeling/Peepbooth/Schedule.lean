import Mathlib.Data.List.Infix

/-! Runs of a system under a schedule: a list of events, each of which a step
function turns into the next state. Nothing here depends on the system. -/

namespace Schedule

variable {σ ε : Type*} {step : σ → ε → σ} {s : σ} {es fs : List ε}

def run (step : σ → ε → σ) (s : σ) (es : List ε) : σ := es.foldl step s

/-- `P` holds in every state of the run, the first and the last included. -/
def Always (step : σ → ε → σ) (P : σ → Prop) : σ → List ε → Prop
  | s, [] => P s
  | s, e :: es => P s ∧ Always step P (step s e) es

/-- Every event of the schedule meets the condition `G` in the state it acts on. -/
def Permits (step : σ → ε → σ) (G : σ → ε → Prop) : σ → List ε → Prop
  | _, [] => True
  | s, e :: es => G s e ∧ Permits step G (step s e) es

instance decidableAlways (step : σ → ε → σ) (P : σ → Prop) [∀ s, Decidable (P s)] :
    ∀ s es, Decidable (Always step P s es)
  | s, [] => inferInstanceAs (Decidable (P s))
  | s, e :: es =>
    have : Decidable (Always step P (step s e) es) := decidableAlways step P (step s e) es
    inferInstanceAs (Decidable (P s ∧ Always step P (step s e) es))

instance decidablePermits (step : σ → ε → σ) (G : σ → ε → Prop) [∀ s e, Decidable (G s e)] :
    ∀ s es, Decidable (Permits step G s es)
  | _, [] => isTrue trivial
  | s, e :: es =>
    have : Decidable (Permits step G (step s e) es) := decidablePermits step G (step s e) es
    inferInstanceAs (Decidable (G s e ∧ Permits step G (step s e) es))

@[simp] theorem run_nil : run step s [] = s := rfl

@[simp] theorem run_cons (e : ε) : run step s (e :: es) = run step (step s e) es := rfl

@[simp] theorem run_append : run step s (es ++ fs) = run step (run step s es) fs :=
  List.foldl_append

theorem run_concat (e : ε) : run step s (es ++ [e]) = step (run step s es) e := by simp

theorem Always.first {P : σ → Prop} (h : Always step P s es) : P s := by
  cases es with
  | nil => exact h
  | cons e es => exact h.1

theorem always_append {P : σ → Prop} :
    Always step P s (es ++ fs) ↔ Always step P s es ∧ Always step P (run step s es) fs := by
  induction es generalizing s with
  | nil => exact ⟨fun h => ⟨h.first, h⟩, fun h => h.2⟩
  | cons e es ih => simp only [List.cons_append, Always, ih, run_cons, and_assoc]

theorem Always.last {P : σ → Prop} (h : Always step P s es) : P (run step s es) := by
  have hh : Always step P s (es ++ []) := by simpa using h
  exact (always_append.mp hh).2

theorem Always.imp {P Q : σ → Prop} (hPQ : ∀ s, P s → Q s) (h : Always step P s es) :
    Always step Q s es := by
  induction es generalizing s with
  | nil => exact hPQ _ h
  | cons e es ih => exact ⟨hPQ _ h.1, ih h.2⟩

theorem Always.and {P Q : σ → Prop} (h : Always step P s es) (h' : Always step Q s es) :
    Always step (fun t => P t ∧ Q t) s es := by
  induction es generalizing s with
  | nil => exact ⟨h, h'⟩
  | cons e es ih => exact ⟨⟨h.1, h'.1⟩, ih h.2 h'.2⟩

theorem Permits.imp {G H : σ → ε → Prop} (hGH : ∀ s e, G s e → H s e) (h : Permits step G s es) :
    Permits step H s es := by
  induction es generalizing s with
  | nil => trivial
  | cons e es ih => exact ⟨hGH s e h.1, ih h.2⟩

theorem Permits.and {G H : σ → ε → Prop} (h : Permits step G s es) (h' : Permits step H s es) :
    Permits step (fun s e => G s e ∧ H s e) s es := by
  induction es generalizing s with
  | nil => trivial
  | cons e es ih => exact ⟨⟨h.1, h'.1⟩, ih h.2 h'.2⟩

theorem permits_append {G : σ → ε → Prop} :
    Permits step G s (es ++ fs) ↔ Permits step G s es ∧ Permits step G (run step s es) fs := by
  induction es generalizing s with
  | nil => simp [Permits]
  | cons e es ih => simp only [List.cons_append, Permits, ih, run_cons, and_assoc]

theorem permits_of_forall {G : σ → ε → Prop} (h : ∀ e ∈ es, ∀ s, G s e) : Permits step G s es := by
  induction es generalizing s with
  | nil => trivial
  | cons e es ih =>
    rw [List.forall_mem_cons] at h
    exact ⟨h.1 s, ih h.2⟩

theorem permits_true : Permits step (fun _ _ => True) s es := by
  induction es generalizing s with
  | nil => trivial
  | cons e es ih => exact ⟨trivial, ih⟩

theorem permits_of_always {P : σ → Prop} (h : Always step P s es) :
    Permits step (fun s e => P s ∧ P (step s e)) s es := by
  induction es generalizing s with
  | nil => trivial
  | cons e es ih => exact ⟨⟨h.1, h.2.first⟩, ih h.2⟩

theorem always_of_permits {I : σ → Prop} {G : σ → ε → Prop}
    (hstep : ∀ s e, I s → G s e → I (step s e)) (h : I s) (hG : Permits step G s es) :
    Always step I s es := by
  induction es generalizing s with
  | nil => exact h
  | cons e es ih => exact ⟨h, ih (hstep s e h hG.1) hG.2⟩

theorem invariant_of_permits {I : σ → Prop} {G : σ → ε → Prop}
    (hstep : ∀ s e, I s → G s e → I (step s e)) (h : I s) (hG : Permits step G s es) :
    I (run step s es) :=
  (always_of_permits hstep h hG).last

theorem always_of_step {I : σ → Prop} (hstep : ∀ s e, I s → I (step s e)) (h : I s)
    (es : List ε) : Always step I s es :=
  always_of_permits (fun s e hs _ => hstep s e hs) h permits_true

theorem invariant_of_step {I : σ → Prop} (hstep : ∀ s e, I s → I (step s e)) (h : I s)
    (es : List ε) : I (run step s es) :=
  (always_of_step hstep h es).last

/-- What no step brings about has held from the start if it holds at the end. -/
theorem always_of_run {P : σ → Prop} (hstep : ∀ s e, P (step s e) → P s)
    (h : P (run step s es)) : Always step P s es := by
  induction es generalizing s with
  | nil => exact h
  | cons e es ih =>
    have hh := ih h
    exact ⟨hstep s e hh.first, hh⟩

/-- A property `P` of states holds throughout exactly the runs that meet `G`,
when `G` at a state of `I` and `P` decides whether the next state has `P`. -/
theorem always_iff_permits {I P : σ → Prop} {G : σ → ε → Prop}
    (hI : ∀ s e, I s → I (step s e)) (hP : ∀ s e, I s → P s → (P (step s e) ↔ G s e))
    (h : I s) (h' : P s) : Always step P s es ↔ Permits step G s es := by
  induction es generalizing s with
  | nil => exact iff_of_true h' trivial
  | cons e es ih =>
    constructor
    · rintro ⟨-, hh⟩
      exact ⟨(hP s e h h').mp hh.first, (ih (hI s e h) hh.first).mp hh⟩
    · rintro ⟨hg, hh⟩
      have hn := (hP s e h h').mpr hg
      exact ⟨h', (ih (hI s e h) hn).mpr hh⟩

/-- A mark that exactly the steps outside `G` leave, and none takes away. -/
theorem run_iff_permits {P : σ → Prop} {G : σ → ε → Prop}
    (hstep : ∀ s e, P (step s e) ↔ P s ∧ G s e) :
    P (run step s es) ↔ P s ∧ Permits step G s es := by
  induction es generalizing s with
  | nil => exact (and_iff_left trivial).symm
  | cons e es ih => rw [run_cons, ih, hstep, and_assoc, Permits]

/-- As `always_iff_permits`, for a property of steps. -/
theorem permits_iff_permits {I : σ → Prop} {P G : σ → ε → Prop}
    (hI : ∀ s e, I s → G s e → I (step s e)) (hP : ∀ s e, I s → (P s e ↔ G s e)) (h : I s) :
    Permits step P s es ↔ Permits step G s es := by
  induction es generalizing s with
  | nil => exact Iff.rfl
  | cons e es ih =>
    exact ⟨fun ⟨hp, hh⟩ => ⟨(hP s e h).mp hp, (ih (hI s e h ((hP s e h).mp hp))).mp hh⟩,
      fun ⟨hg, hh⟩ => ⟨(hP s e h).mpr hg, (ih (hI s e h hg)).mpr hh⟩⟩

/-- A bound that every event that `counts` lowers, and none raises, is used up after
as many of them. -/
theorem run_countdown {J : Nat → σ → Prop} {counts : ε → Bool}
    (hdown : ∀ n s e, counts e = true → J n s → J (n - 1) (step s e))
    (hkeep : ∀ n s e, counts e = false → J n s → J n (step s e)) {n : Nat} (h : J n s)
    (es : List ε) : J (n - es.countP counts) (run step s es) := by
  induction es generalizing s n with
  | nil => exact h
  | cons e es ih =>
    cases he : counts e with
    | false =>
      rw [List.countP_cons_of_neg (by simp [he])]
      exact ih (hkeep n s e he h)
    | true =>
      rw [List.countP_cons_of_pos he, Nat.add_comm, ← Nat.sub_sub]
      exact ih (hdown n s e he h)

end Schedule
