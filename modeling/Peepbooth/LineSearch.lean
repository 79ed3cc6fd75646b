import Mathlib.Data.List.Infix
import Mathlib.Data.List.TakeWhile

/-! The first occurrence of a key in a text against the lines of that text. A
search that asks only of the first occurrence whether a line starts there finds
the first line that begins with the key, unless another line hides it. -/

namespace LineSearch

variable {α : Type*} [DecidableEq α] {sep : α} {key line rest : List α}

def find (key : List α) : List α → Option Nat
  | [] => if key = [] then some 0 else none
  | a :: l => if key <+: a :: l then some 0 else (find key l).map (· + 1)

/-- What follows the key on the line of its first occurrence, if the line begins there. -/
def search (sep : α) (key l : List α) : Option (List α) :=
  (find key l).bind fun position =>
    if position ≠ 0 ∧ l[position - 1]? ≠ some sep then none
    else some ((l.drop (position + key.length)).takeWhile (· ≠ sep))

/-- What follows the key on the first line that begins with it. -/
def onLine (sep : α) (key l : List α) : Option (List α) :=
  ((l.splitOn sep).find? (key <+: ·)).map (·.drop key.length)

/-- The first line that contains the key does not begin with it. -/
def Hidden (sep : α) (key l : List α) : Prop :=
  ((l.splitOn sep).find? (key <:+: ·)).any (¬key <+: ·) = true

instance (sep : α) (key l : List α) : Decidable (Hidden sep key l) :=
  inferInstanceAs (Decidable (_ = true))

theorem line_induction {motive : List α → Prop} (sep : α)
    (last : ∀ line, sep ∉ line → motive line)
    (more : ∀ line rest, sep ∉ line → motive rest → motive (line ++ sep :: rest)) (l : List α) :
    motive l := by
  suffices h : ∀ pre, sep ∉ pre → motive (pre ++ l) from h [] List.not_mem_nil
  induction l with
  | nil =>
    intro pre hp
    rw [List.append_nil]
    exact last pre hp
  | cons a l ih =>
    intro pre hp
    by_cases ha : a = sep
    · subst ha
      exact more pre l hp (ih [] List.not_mem_nil)
    · rw [← List.singleton_append, ← List.append_assoc]
      refine ih (pre ++ [a]) fun hm => ?_
      rcases List.mem_append.mp hm with hm | hm
      · exact hp hm
      · exact ha (List.mem_singleton.mp hm).symm

theorem splitOn_line (h : sep ∉ line) : line.splitOn sep = [line] := by
  rw [List.splitOn_eq_splitOnP]
  refine List.splitOnP_eq_singleton fun a ha => ?_
  simpa using fun he : a = sep => h (he ▸ ha)

theorem splitOn_more (h : sep ∉ line) (rest : List α) :
    (line ++ sep :: rest).splitOn sep = line :: rest.splitOn sep := by
  rw [List.splitOn_eq_splitOnP, List.splitOn_eq_splitOnP]
  refine List.splitOnP_append_cons_of_forall_mem (fun a ha => ?_) sep (by simp) rest
  simpa using fun he : a = sep => h (he ▸ ha)

omit [DecidableEq α] in
theorem prefix_more (h : sep ∉ key) : key <+: line ++ sep :: rest ↔ key <+: line := by
  refine ⟨fun hk => ?_, fun hk => hk.trans (List.prefix_append _ _)⟩
  have hl : line ++ [sep] <+: line ++ sep :: rest := ⟨rest, by simp⟩
  rcases List.prefix_or_prefix_of_prefix hk hl with hh | hh
  · rcases List.prefix_concat_iff.mp hh with rfl | hh
    · simp at h
    · exact hh
  · exact absurd (hh.subset (by simp)) h

theorem find_eq_none : find key line = none ↔ ¬key <:+: line := by
  induction line with
  | nil => simp [find]
  | cons a line ih =>
    rw [find, List.infix_cons_iff]
    split
    · next h => simp [h]
    · next h => simp [h, ih]

theorem find_eq_zero : find key line = some 0 ↔ key <+: line := by
  cases line with
  | nil => simp [find]
  | cons a line =>
    rw [find]
    split
    · next h => simp [h]
    · next h => simp [h]

theorem find_add_le {position : Nat} (h : find key line = some position) :
    position + key.length ≤ line.length := by
  induction line generalizing position with
  | nil =>
    rw [find] at h
    split at h
    · next hk =>
      cases h
      rw [hk]
      exact Nat.le_refl 0
    · cases h
  | cons a line ih =>
    rw [find] at h
    split at h
    · next hp =>
      cases h
      rw [Nat.zero_add]
      exact hp.length_le
    · obtain ⟨position, hp, rfl⟩ := Option.map_eq_some_iff.mp h
      rw [Nat.add_right_comm]
      exact Nat.succ_le_succ (ih hp)

theorem find_more (hk : key ≠ []) (hs : sep ∉ key) (line rest : List α) :
    find key (line ++ sep :: rest) =
      (find key line).or ((find key rest).map (· + (line.length + 1))) := by
  induction line with
  | nil =>
    have hn : ¬key <+: sep :: rest := by
      rw [← List.nil_append (sep :: rest), prefix_more hs, List.prefix_nil]
      exact hk
    rw [List.nil_append, find.eq_2, if_neg hn, find, if_neg hk]
    rfl
  | cons a line ih =>
    rw [List.cons_append, find, find, ← List.cons_append, ih]
    by_cases h : key <+: a :: line
    · rw [if_pos h, if_pos ((prefix_more hs).mpr h)]
      rfl
    · rw [if_neg h, if_neg (fun hh => h ((prefix_more hs).mp hh))]
      cases find key line <;> simp [Function.comp_def, Nat.add_assoc]

theorem takeWhile_line (hl : sep ∉ line) (n : Nat) :
    (line.drop n).takeWhile (· ≠ sep) = line.drop n := by
  rw [List.takeWhile_eq_self_iff]
  intro a ha
  simpa using fun he : a = sep => hl (he ▸ List.mem_of_mem_drop ha)

theorem takeWhile_more (hl : sep ∉ line) {n : Nat} (hn : n ≤ line.length) (rest : List α) :
    ((line ++ sep :: rest).drop n).takeWhile (· ≠ sep) = line.drop n := by
  rw [List.drop_append_of_le_length hn, List.takeWhile_append_of_pos]
  · simp
  · intro a ha
    simpa using fun he : a = sep => hl (he ▸ List.mem_of_mem_drop ha)

theorem search_line (hl : sep ∉ line) :
    search sep key line = if key <+: line then some (line.drop key.length) else none := by
  rw [search]
  cases hf : find key line with
  | none =>
    rw [if_neg (fun hp => find_eq_none.mp hf hp.isInfix)]
    rfl
  | some position =>
    cases position with
    | zero =>
      rw [if_pos (find_eq_zero.mp hf), Option.bind_some, if_neg (by simp), Nat.zero_add,
        takeWhile_line hl]
    | succ position =>
      have hn : ¬key <+: line := fun h => by simp [find_eq_zero.mpr h] at hf
      have hne : (line)[position]? ≠ some sep := fun h => hl (List.mem_of_getElem? h)
      rw [if_neg hn, Option.bind_some, if_pos ⟨Nat.succ_ne_zero _, hne⟩]

theorem search_found (hk : key ≠ []) (hs : sep ∉ key) (hl : sep ∉ line) (h : key <:+: line)
    (rest : List α) : search sep key (line ++ sep :: rest) = search sep key line := by
  rw [search, search, find_more hk hs]
  cases hf : find key line with
  | none => exact absurd h (find_eq_none.mp hf)
  | some position =>
    have hle := find_add_le hf
    have hlt : position < line.length :=
      Nat.lt_of_lt_of_le (Nat.lt_add_of_pos_right (List.length_pos_iff.mpr hk)) hle
    rw [Option.some_or, Option.bind_some, Option.bind_some, takeWhile_more hl hle,
      takeWhile_line hl, List.getElem?_append_left (Nat.lt_of_le_of_lt (Nat.sub_le _ 1) hlt)]

theorem search_skip (hk : key ≠ []) (hs : sep ∉ key) (h : ¬key <:+: line) (rest : List α) :
    search sep key (line ++ sep :: rest) = search sep key rest := by
  rw [search, search, find_more hk hs, find_eq_none.mpr h, Option.none_or]
  cases find key rest with
  | none => rfl
  | some position =>
    have hdrop : (line ++ sep :: rest).drop (position + (line.length + 1) + key.length) =
        rest.drop (position + key.length) := by
      rw [List.append_cons, show position + (line.length + 1) + key.length =
        (line ++ [sep]).length + (position + key.length) by simp; omega,
        List.drop_length_add_append]
    have hprev : (position + (line.length + 1) ≠ 0 ∧
        (line ++ sep :: rest)[position + (line.length + 1) - 1]? ≠ some sep) ↔
          position ≠ 0 ∧ rest[position - 1]? ≠ some sep := by
      rw [show position + (line.length + 1) - 1 = line.length + position by omega,
        List.getElem?_append_right (Nat.le_add_right _ _), Nat.add_sub_cancel_left]
      cases position <;> simp
    rw [Option.map_some, Option.bind_some, Option.bind_some, hdrop]
    simp only [hprev]

theorem hidden_line (hl : sep ∉ line) : Hidden sep key line ↔ key <:+: line ∧ ¬key <+: line := by
  unfold Hidden
  rw [splitOn_line hl, List.find?_cons]
  by_cases h : key <:+: line <;> simp [h]

theorem onLine_line (hl : sep ∉ line) :
    onLine sep key line = if key <+: line then some (line.drop key.length) else none := by
  rw [onLine, splitOn_line hl, List.find?_cons]
  by_cases h : key <+: line <;> simp [h]

theorem hidden_more (hl : sep ∉ line) (rest : List α) :
    Hidden sep key (line ++ sep :: rest) ↔
      if key <:+: line then ¬key <+: line else Hidden sep key rest := by
  unfold Hidden
  rw [splitOn_more hl, List.find?_cons]
  by_cases h : key <:+: line <;> simp [h]

theorem onLine_more (hl : sep ∉ line) (rest : List α) :
    onLine sep key (line ++ sep :: rest) =
      if key <+: line then some (line.drop key.length) else onLine sep key rest := by
  rw [onLine, splitOn_more hl, List.find?_cons]
  by_cases h : key <+: line <;> simp [h, onLine]

theorem search_eq (hk : key ≠ []) (hs : sep ∉ key) (l : List α) :
    search sep key l = if Hidden sep key l then none else onLine sep key l := by
  induction l using line_induction sep with
  | last line hl =>
    rw [search_line hl, onLine_line hl]
    by_cases hp : key <+: line
    · rw [if_neg (fun h => ((hidden_line hl).mp h).2 hp)]
    · simp only [hp, if_false, ite_self]
  | more line rest hl ih =>
    rw [onLine_more hl]
    by_cases hi : key <:+: line
    · rw [search_found hk hs hl hi, search_line hl]
      by_cases hp : key <+: line
      · have hh : ¬Hidden sep key (line ++ sep :: rest) := by
          rw [hidden_more hl, if_pos hi, not_not]
          exact hp
        rw [if_pos hp, if_neg hh, if_pos hp]
      · have hh : Hidden sep key (line ++ sep :: rest) := by
          rw [hidden_more hl, if_pos hi]
          exact hp
        rw [if_pos hh, if_neg hp]
    · rw [search_skip hk hs hi, ih, if_neg (fun hp : key <+: line => hi hp.isInfix)]
      refine if_congr ?_ rfl rfl
      rw [hidden_more hl, if_neg hi]

end LineSearch
