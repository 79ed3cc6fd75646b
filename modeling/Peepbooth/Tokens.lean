import Peepbooth.LineSearch

/-! The words of a text between separators. Separators may be repeated, and may
begin or end the text. -/

namespace Tokens

variable {α : Type*} [DecidableEq α] {sep : α} {l word : List α} {words : List (List α)}

def tokens (sep : α) (l : List α) : List (List α) := (l.splitOn sep).filter (· ≠ [])

theorem tokens_nil : tokens sep [] = [] := by simp [tokens]

theorem tokens_sep (l : List α) : tokens sep (sep :: l) = tokens sep l := by
  have h : (sep :: l).splitOn sep = [] :: l.splitOn sep :=
    LineSearch.splitOn_more List.not_mem_nil l
  simp [tokens, h]

theorem tokens_word (hw : word ≠ []) (hs : sep ∉ word) : tokens sep word = [word] := by
  simp [tokens, LineSearch.splitOn_line hs, hw]

theorem tokens_append (hw : word ≠ []) (hs : sep ∉ word) (rest : List α) :
    tokens sep (word ++ sep :: rest) = word :: tokens sep rest := by
  simp [tokens, LineSearch.splitOn_more hs, hw]

theorem tokens_intercalate (h : ∀ word ∈ words, word ≠ [] ∧ sep ∉ word) :
    tokens sep (List.intercalate [sep] words) = words := by
  by_cases hw : words = []
  · rw [hw, List.intercalate_nil, tokens_nil]
  · rw [tokens, List.splitOn_intercalate sep (fun word hm => (h word hm).2) hw,
      List.filter_eq_self]
    intro word hm
    simpa using (h word hm).1

omit [DecidableEq α] in
theorem mem_intercalate {a : α} (h : a ∈ List.intercalate [sep] words) :
    a = sep ∨ ∃ word ∈ words, a ∈ word := by
  induction words with
  | nil => cases h
  | cons word words ih =>
    by_cases hw : words = []
    · subst hw
      rw [List.intercalate_singleton] at h
      exact .inr ⟨word, by simp, h⟩
    · rw [List.intercalate_cons_of_ne_nil hw, List.append_assoc, List.mem_append,
        List.mem_append, List.mem_singleton] at h
      rcases h with h | h | h
      · exact .inr ⟨word, by simp, h⟩
      · exact .inl h
      · rcases ih h with h | ⟨w, hm, h⟩
        · exact .inl h
        · exact .inr ⟨w, List.mem_cons_of_mem _ hm, h⟩

omit [DecidableEq α] in
theorem intercalate_concat (init : List (List α)) (last t : List α) :
    List.intercalate [sep] (init ++ [last]) ++ t =
      List.intercalate [sep] (init ++ [last ++ t]) := by
  induction init with
  | nil => simp
  | cons word init ih =>
    rw [List.cons_append, List.cons_append, List.intercalate_cons_of_ne_nil (by simp),
      List.intercalate_cons_of_ne_nil (by simp), List.append_assoc, ih]

/-- What ends the text without a separator belongs to its last word. -/
theorem tokens_concat {init : List (List α)} {last t : List α}
    (h : ∀ word ∈ init ++ [last], word ≠ [] ∧ sep ∉ word) (ht : sep ∉ t) :
    tokens sep (List.intercalate [sep] (init ++ [last]) ++ t) = init ++ [last ++ t] := by
  rw [intercalate_concat]
  apply tokens_intercalate
  intro word hm
  rcases List.mem_append.mp hm with hm | hm
  · exact h word (List.mem_append_left _ hm)
  · obtain ⟨hne, hs⟩ := h last (by simp)
    rw [List.mem_singleton.mp hm]
    exact ⟨List.append_ne_nil_of_left_ne_nil hne t, by simp [hs, ht]⟩

theorem tokens_dropWhile (l : List α) : tokens sep (l.dropWhile (· = sep)) = tokens sep l := by
  induction l with
  | nil => rfl
  | cons a l ih =>
    by_cases ha : a = sep
    · rw [ha, tokens_sep, List.dropWhile_cons_of_pos (by simp), ih]
    · rw [List.dropWhile_cons_of_neg (by simpa using ha)]

theorem tokens_last (hl : l ≠ []) (h : l.idxOf? sep = none) : tokens sep l = [l] :=
  tokens_word hl (List.idxOf?_eq_none_iff.mp h)

theorem tokens_first {i : Nat} (hl : l.head? ≠ some sep) (h : l.idxOf? sep = some i) :
    tokens sep l = l.take i :: tokens sep (l.drop (i + 1)) := by
  obtain ⟨hi, ha, hb⟩ := List.idxOf?_eq_some_iff.mp h
  have hcut : l.take i ++ sep :: l.drop (i + 1) = l := by
    conv_rhs => rw [← List.take_append_drop i l, List.drop_eq_getElem_cons hi, ha]
  have hne : l.take i ≠ [] := by
    intro he
    rw [he, List.nil_append] at hcut
    rw [← hcut] at hl
    exact hl rfl
  have hout : sep ∉ l.take i := by
    intro hm
    obtain ⟨j, hj, he⟩ := List.getElem_of_mem hm
    rw [List.length_take] at hj
    rw [List.getElem_take] at he
    exact hb j (by omega) he
  conv_lhs => rw [← hcut]
  exact tokens_append hne hout _

end Tokens
