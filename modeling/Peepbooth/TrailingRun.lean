import Mathlib.Data.List.Infix

/-! The end of a list over which a property holds. Where it is half of the list
it stays so while elements with the property are added and others are dropped
from the front. -/

namespace TrailingRun

variable {α : Type*} {p : α → Bool} {l s : List α} {a : α}

def run (p : α → Bool) (l : List α) : Nat := (l.reverse.takeWhile p).length

/-- The property holds from the middle of the list on. -/
def Half (p : α → Bool) (l : List α) : Prop := l.length ≤ 2 * run p l

instance (p : α → Bool) (l : List α) : Decidable (Half p l) :=
  inferInstanceAs (Decidable (_ ≤ _))

theorem run_le_length (p : α → Bool) (l : List α) : run p l ≤ l.length := by
  have h := (List.takeWhile_prefix (p := p) (l := l.reverse)).length_le
  rwa [List.length_reverse] at h

theorem run_concat (ha : p a = true) (l : List α) : run p (l ++ [a]) = run p l + 1 := by
  rw [run, List.reverse_append, List.reverse_singleton, List.singleton_append,
    List.takeWhile_cons_of_pos ha, List.length_cons, run]

theorem run_suffix (h : s <:+ l) : run p s = min s.length (run p l) := by
  have hs : s.reverse = l.reverse.take s.length := by
    have hp := List.reverse_prefix.mpr h
    rw [List.prefix_iff_eq_take.mp hp, List.length_reverse]
  rw [run, hs, ← List.take_takeWhile, List.length_take, run]

theorem of_getElem? {i : Nat} (hi : l.length - run p l ≤ i) (h : l[i]? = some a) : p a = true := by
  obtain ⟨hlt, rfl⟩ := List.getElem?_eq_some_iff.mp h
  have hle := run_le_length p l
  rw [run] at hi hle
  have hj : l.length - 1 - i < (l.reverse.takeWhile p).length := by omega
  have hall := List.all_eq_true.mp (List.all_takeWhile (p := p) (l := l.reverse))
  have hm : (l.reverse.takeWhile p)[l.length - 1 - i] ∈ l.reverse.takeWhile p :=
    List.getElem_mem hj
  have he : (l.reverse.takeWhile p)[l.length - 1 - i] = l[i] := by
    rw [(List.takeWhile_prefix p).getElem, List.getElem_reverse]
    congr 1
    omega
  rw [he] at hm
  exact hall _ hm

namespace Half

theorem concat (h : Half p l) (ha : p a = true) : Half p (l ++ [a]) := by
  rw [Half, run_concat ha, List.length_append, List.length_singleton]
  rw [Half] at h
  omega

theorem of_suffix (h : Half p l) (hs : s <:+ l) : Half p s := by
  have hle := hs.length_le
  rw [Half] at h ⊢
  rw [run_suffix hs]
  omega

theorem middle (h : Half p l) (hm : l[l.length / 2]? = some a) : p a = true := by
  rw [Half] at h
  exact of_getElem? (by omega) hm

end Half

end TrailingRun
