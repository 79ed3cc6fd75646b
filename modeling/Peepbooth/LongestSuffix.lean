import Mathlib.Data.List.Infix

/-! The longest suffix of a list that has a property, and how it is kept up to
date when the list grows at its end. -/

namespace LongestSuffix

variable {α : Type*} {ok : List α → Prop} {l s t : List α} {a : α}

structure IsLongest (ok : List α → Prop) (s l : List α) : Prop where
  suffix : s <:+ l
  holds : ok s
  longest : ∀ t, t <:+ l → ok t → t.length ≤ s.length

/-- Drop elements from the front until the property holds. -/
def find (ok : List α → Prop) [DecidablePred ok] : List α → List α
  | [] => []
  | a :: l => if ok (a :: l) then a :: l else find ok l

theorem IsLongest.suffix_of (h : IsLongest ok s l) (ht : t <:+ l) (hok : ok t) : t <:+ s :=
  List.suffix_of_suffix_length_le ht h.suffix (h.longest t ht hok)

theorem IsLongest.nil (h : ok []) : IsLongest ok [] ([] : List α) :=
  ⟨List.suffix_refl _, h, fun _ ht _ => ht.length_le⟩

/-- What is left out of the longest suffix begins with an element that can not
be added to it. -/
theorem IsLongest.not_cons (h : IsLongest ok s l) {pre : List α} (hl : l = pre ++ a :: s) :
    ¬ok (a :: s) := fun hok => by
  have hlen := h.longest (a :: s) ⟨pre, hl.symm⟩ hok
  rw [List.length_cons] at hlen
  omega

theorem find_isLongest [DecidablePred ok] (hnil : ok []) (l : List α) :
    IsLongest ok (find ok l) l := by
  induction l with
  | nil => exact .nil hnil
  | cons a l ih =>
    rw [find]
    split
    · next hok => exact ⟨List.suffix_refl _, hok, fun _ ht _ => ht.length_le⟩
    · next hok =>
      refine ⟨ih.suffix.trans (List.suffix_cons a l), ih.holds, fun t ht hh => ?_⟩
      rcases List.suffix_cons_iff.mp ht with rfl | ht
      · exact absurd hh hok
      · exact ih.longest t ht hh

theorem concat_suffix (h : s <:+ l) (a : α) : s ++ [a] <:+ l ++ [a] :=
  List.suffix_concat_iff.mpr (.inr ⟨s, rfl, h⟩)

theorem IsLongest.concat (h : IsLongest ok s l)
    (hok : ∀ t, t <:+ l → ok (t ++ [a]) → ok t) (ht : IsLongest ok t (s ++ [a])) :
    IsLongest ok t (l ++ [a]) := by
  refine ⟨ht.suffix.trans (concat_suffix h.suffix a), ht.holds, fun u hu hh => ?_⟩
  rcases List.suffix_concat_iff.mp hu with rfl | ⟨v, rfl, hv⟩
  · exact Nat.zero_le _
  · exact ht.longest _ (concat_suffix (h.suffix_of hv (hok v hv hh)) a) hh

end LongestSuffix
