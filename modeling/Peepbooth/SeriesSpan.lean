import Mathlib.Data.List.Infix
import Mathlib.Data.List.Chain
import Mathlib.Tactic.Linarith

/-! How far a list of measured elements reaches from its first to its last, and
what bounds on neighbouring elements say about that. -/

namespace SeriesSpan

variable {α : Type*} {f : α → Nat} {a b : α} {l s : List α} {c d : Nat}

/-- The measure of the last element less that of the first. -/
def span (f : α → Nat) : List α → Nat
  | [] => 0
  | a :: l => f ((a :: l).getLast (List.cons_ne_nil a l)) - f a

def Increasing (f : α → Nat) (l : List α) : Prop := l.Pairwise fun p q => f p < f q

instance (f : α → Nat) (l : List α) : Decidable (Increasing f l) :=
  inferInstanceAs (Decidable (l.Pairwise _))

theorem span_nil : span f [] = 0 := rfl

@[simp] theorem span_singleton : span f [a] = 0 := Nat.sub_self _

theorem Increasing.le_getLast (h : Increasing f (a :: l)) :
    f a ≤ f ((a :: l).getLast (List.cons_ne_nil a l)) := by
  rcases List.mem_cons.mp (List.getLast_mem (List.cons_ne_nil a l)) with he | hm
  · exact (congrArg f he).ge
  · exact ((List.pairwise_cons.mp h).1 _ hm).le

theorem Increasing.le_of_getLast? (h : Increasing f l) (hb : l.getLast? = some b) (ha : a ∈ l) :
    f a ≤ f b := by
  obtain ⟨pre, rfl⟩ := List.getLast?_eq_some_iff.mp hb
  rcases List.mem_append.mp ha with ha | ha
  · exact ((List.pairwise_append.mp h).2.2 a ha b (List.mem_singleton_self b)).le
  · exact (congrArg f (List.mem_singleton.mp ha)).le

theorem Increasing.of_suffix (h : Increasing f l) (hs : s <:+ l) : Increasing f s :=
  List.Pairwise.sublist hs.sublist h

theorem Increasing.isChain_and {r : α → α → Prop} (h : Increasing f l) (hc : l.IsChain r) :
    l.IsChain fun p q => f p < f q ∧ r p q := by
  induction l with
  | nil => exact .nil
  | cons a l ih =>
    cases l with
    | nil => exact .singleton a
    | cons b l =>
      rw [List.isChain_cons_cons] at hc ⊢
      have hab : f a < f b := (List.pairwise_cons.mp h).1 b List.mem_cons_self
      exact ⟨⟨hab, hc.1⟩, ih (List.pairwise_cons.mp h).2 hc.2⟩

theorem span_cons_cons (h : Increasing f (a :: b :: l)) :
    span f (a :: b :: l) = (f b - f a) + span f (b :: l) := by
  have hab : f a < f b := (List.pairwise_cons.mp h).1 b List.mem_cons_self
  have hb := Increasing.le_getLast (List.pairwise_cons.mp h).2
  simp only [span, List.getLast_cons (List.cons_ne_nil b l)]
  omega

theorem span_pos (h : Increasing f l) (hl : 2 ≤ l.length) : 0 < span f l := by
  match l, hl with
  | a :: b :: l, _ =>
    have hab : f a < f b := (List.pairwise_cons.mp h).1 b List.mem_cons_self
    rw [span_cons_cons h]
    omega

theorem span_le_cons (h : Increasing f (a :: l)) : span f l ≤ span f (a :: l) := by
  cases l with
  | nil => exact Nat.zero_le _
  | cons b l =>
    rw [span_cons_cons h]
    exact Nat.le_add_left _ _

theorem span_mono (h : Increasing f l) (hs : s <:+ l) : span f s ≤ span f l := by
  obtain ⟨pre, rfl⟩ := hs
  induction pre with
  | nil => exact Nat.le_refl _
  | cons a pre ih => exact (ih (List.pairwise_cons.mp h).2).trans (span_le_cons h)

theorem span_concat (f : α → Nat) (b : α) (l : List α) (a : α) :
    span f (b :: l ++ [a]) = f a - f b := by
  have hlast : (b :: l ++ [a]).getLast (by simp) = a := List.getLast_concat
  exact congrArg (f · - f b) hlast

theorem span_le_concat (h : Increasing f (l ++ [a])) : span f l ≤ span f (l ++ [a]) := by
  cases l with
  | nil => exact Nat.zero_le _
  | cons b l =>
    have hlast := (List.pairwise_append.mp h).2.2 _ (List.getLast_mem (List.cons_ne_nil b l)) a
      (List.mem_singleton_self a)
    rw [span_concat, span]
    omega

theorem le_span (h : Increasing f l) (hc : l.IsChain fun p q => d ≤ c * (f q - f p)) :
    (l.length - 1) * d ≤ c * span f l := by
  induction l with
  | nil => simp [span_nil]
  | cons a l ih =>
    cases l with
    | nil => simp
    | cons b l =>
      rw [List.isChain_cons_cons] at hc
      have hh := ih (List.pairwise_cons.mp h).2 hc.2
      rw [span_cons_cons h]
      simp only [List.length_cons, Nat.add_sub_cancel] at hh ⊢
      linarith [hc.1]

theorem span_le (h : Increasing f l) (hc : l.IsChain fun p q => c * (f q - f p) ≤ d) :
    c * span f l ≤ (l.length - 1) * d := by
  induction l with
  | nil => simp [span_nil]
  | cons a l ih =>
    cases l with
    | nil => simp
    | cons b l =>
      rw [List.isChain_cons_cons] at hc
      have hh := ih (List.pairwise_cons.mp h).2 hc.2
      rw [span_cons_cons h]
      simp only [List.length_cons, Nat.add_sub_cancel] at hh ⊢
      linarith [hc.1]

end SeriesSpan
