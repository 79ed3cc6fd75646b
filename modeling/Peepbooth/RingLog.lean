import Mathlib.Algebra.Ring.Nat
import Mathlib.Data.Fin.Basic
import Mathlib.Data.List.DropRight
import Mathlib.Logic.Function.Basic
import Mathlib.Tactic.Common

/-! A ring of slots that keeps the newest entries of a growing log, each under its number. -/

namespace RingLog

variable {α β σ : Type*} {n : Nat} [NeZero n] {encode : Nat → α → σ} {slots : Fin n → σ}
  {log : List α}

/-- Every entry that no later one has replaced stands in its slot. -/
def Holds (encode : Nat → α → σ) (slots : Fin n → σ) (log : List α) : Prop :=
  ∀ k a, log[k]? = some a → log.length ≤ k + n → slots (Fin.ofNat n k) = encode k a

theorem holds_nil : Holds encode slots [] := by
  intro k a h
  cases h

theorem ofNat_ne {j k : Nat} (hlt : j < k) (hk : k < j + n) : Fin.ofNat n j ≠ Fin.ofNat n k := by
  intro h
  have hmod : k % n = j % n := (congrArg Fin.val h).symm
  have hdvd : n ∣ k - j := Nat.dvd_of_mod_eq_zero (Nat.sub_mod_eq_zero_of_mod_eq hmod)
  have hle := Nat.le_of_dvd (by omega) hdvd
  omega

theorem Holds.push (h : Holds encode slots log) (a : α) :
    Holds encode (Function.update slots (Fin.ofNat n log.length) (encode log.length a))
      (log ++ [a]) := by
  intro k b hb hk
  rw [List.length_append, List.length_singleton] at hk
  rcases Nat.lt_or_ge k log.length with hlt | hge
  · rw [List.getElem?_append_left hlt] at hb
    rw [Function.update_of_ne (ofNat_ne hlt (by omega))]
    exact h k b hb (by omega)
  · obtain ⟨hlen, -⟩ := List.getElem?_eq_some_iff.mp hb
    obtain rfl : k = log.length := by
      rw [List.length_append, List.length_singleton] at hlen
      omega
    rw [List.getElem?_concat_length] at hb
    rw [Function.update_self, Option.some.inj hb]

theorem drop_eq_filterMap (d : Nat) (l : List α) :
    l.drop d = (List.range' d (l.length - d)).filterMap (l[·]?) := by
  induction hc : l.length - d generalizing d with
  | zero => simp [List.drop_eq_nil_of_le (Nat.le_of_sub_eq_zero hc)]
  | succ c ih =>
    have hlt : d < l.length := by omega
    rw [List.range'_succ, List.filterMap_cons, List.getElem?_eq_getElem hlt,
      List.drop_eq_getElem_cons hlt, ih (d + 1) (by omega)]

/-- A reader who goes through the slots in order of the numbers gets the newest entries. -/
theorem Holds.filterMap_range' (h : Holds encode slots log) (decode : Nat → σ → Option β)
    (f : α → β) (hdec : ∀ k a, k < log.length → decode k (encode k a) = some (f a)) :
    (List.range' (log.length - n) (log.length - (log.length - n))).filterMap
      (fun k => decode k (slots (Fin.ofNat n k))) = (log.rtake n).map f := by
  rw [List.rtake, drop_eq_filterMap, List.map_filterMap]
  refine List.filterMap_congr fun k hk => ?_
  obtain ⟨hlow, hhigh⟩ := List.mem_range'_1.mp hk
  have hlt : k < log.length := by omega
  rw [List.getElem?_eq_getElem hlt, Option.map_some,
    h k log[k] (List.getElem?_eq_getElem hlt) (by omega), hdec k _ hlt]

end RingLog
