import Mathlib.Data.List.FinRange
import Mathlib.Logic.Function.Basic

/-! What the members of a finite group have in hand, one thing each or nothing. A
member who puts a thing down or takes one up changes the collection by that thing. -/

namespace InHand

variable {β : Type*} {n : Nat}

def inHand (f : Fin n → Option β) : List β := (List.finRange n).filterMap f

theorem inHand_perm (f : Fin n → Option β) (i : Fin n) :
    (inHand f).Perm ((f i).toList ++ inHand (Function.update f i none)) := by
  obtain ⟨pre, post, hl⟩ := List.append_of_mem (List.mem_finRange i)
  have hnd := List.nodup_finRange n
  rw [hl] at hnd
  have hpre : i ∉ pre := fun h => (List.nodup_append.mp hnd).2.2 i h i List.mem_cons_self rfl
  have hpost : i ∉ post := (List.nodup_cons.mp (List.nodup_append.mp hnd).2.1).1
  have hout (l : List (Fin n)) (h : i ∉ l) :
      l.filterMap (Function.update f i none) = l.filterMap f := by
    refine List.filterMap_congr fun j hj => Function.update_of_ne ?_ _ _
    rintro rfl
    exact h hj
  rw [inHand, inHand, hl, List.filterMap_append, List.filterMap_append, List.filterMap_cons,
    List.filterMap_cons, hout pre hpre, hout post hpost, Function.update_self]
  cases f i with
  | none => exact List.Perm.refl _
  | some b => exact List.perm_middle

theorem inHand_update (f : Fin n → Option β) (i : Fin n) (o : Option β) :
    (inHand (Function.update f i o)).Perm (o.toList ++ inHand (Function.update f i none)) := by
  have h := inHand_perm (Function.update f i o) i
  rwa [Function.update_self, Function.update_idem] at h

theorem mem_inHand {f : Fin n → Option β} {i : Fin n} {b : β} (h : f i = some b) :
    b ∈ inHand f :=
  List.mem_filterMap.mpr ⟨i, List.mem_finRange i, h⟩

theorem inHand_none : inHand (fun _ : Fin n => (none : Option β)) = [] := by
  simp [inHand]

end InHand
