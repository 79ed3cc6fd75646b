import Mathlib.Data.List.Basic

/-! Texts put together from parts that a separator tells apart. -/

namespace Delimited

variable {α β β' γ : Type*} {a : α} {x y r s sep : List α}

/-- What does not contain the separator ends where the separator first stands. -/
theorem stem_inj (hr : ∀ b ∈ r.head?, b = a) (hs : ∀ b ∈ s.head?, b = a) (hx : a ∉ x)
    (hy : a ∉ y) (h : x ++ r = y ++ s) : x = y ∧ r = s := by
  induction x generalizing y with
  | nil =>
    cases y with
    | nil => exact ⟨rfl, h⟩
    | cons b y =>
      have hb : b = a := hr b (by rw [← List.nil_append r, h]; rfl)
      exact absurd (hb ▸ List.mem_cons_self) hy
  | cons c x ih =>
    cases y with
    | nil =>
      have hc : c = a := hs c (by rw [← List.nil_append s, ← h]; rfl)
      exact absurd (hc ▸ List.mem_cons_self) hx
    | cons b y =>
      rw [List.cons_append, List.cons_append, List.cons.injEq] at h
      have hrest := ih (List.not_mem_of_not_mem_cons hx) (List.not_mem_of_not_mem_cons hy) h.2
      exact ⟨by rw [h.1, hrest.1], hrest.2⟩

theorem field_inj (ha : sep.head? = some a) (hx : a ∉ x) (hy : a ∉ y)
    (h : x ++ (sep ++ r) = y ++ (sep ++ s)) : x = y ∧ r = s := by
  have hhead (l : List α) (b : α) (hb : b ∈ (sep ++ l).head?) : b = a := by
    rw [List.head?_append, ha] at hb
    exact (Option.some.inj hb).symm
  obtain ⟨hxy, hrest⟩ := stem_inj (hhead r) (hhead s) hx hy h
  exact ⟨hxy, List.append_cancel_left hrest⟩

end Delimited
