import Peepbooth.Schedule
import Mathlib.Data.List.Forall2

/-! What the steps of a run put on record, and a reader of the record who looks at it at one
time and reports at another. -/

namespace Schedule

variable {σ ε β γ : Type*} {step : σ → ε → σ} {s : σ} {es fs : List ε} {out : σ → ε → List β}

/-- The record that the steps of a run leave. -/
def emitted (step : σ → ε → σ) (out : σ → ε → List β) : σ → List ε → List β
  | _, [] => []
  | s, e :: es => out s e ++ emitted step out (step s e) es

theorem emitted_append :
    emitted step out s (es ++ fs) =
      emitted step out s es ++ emitted step out (run step s es) fs := by
  induction es generalizing s with
  | nil => rfl
  | cons e es ih => rw [List.cons_append, emitted, emitted, run_cons, ih, List.append_assoc]

theorem emitted_concat (e : ε) :
    emitted step out s (es ++ [e]) = emitted step out s es ++ out (run step s es) e := by
  rw [emitted_append, emitted, emitted, List.append_nil]

theorem emitted_mono (h : es <+: fs) : emitted step out s es <+: emitted step out s fs := by
  obtain ⟨rest, rfl⟩ := h
  rw [emitted_append]
  exact List.prefix_append _ _

/-- What a reader has in hand, and what it has reported. -/
structure Reader (σ γ : Type*) where
  pending : σ → Option γ
  lines : σ → List γ

namespace Reader

/-- In one step a reader may look, and have `x` in hand, or report what it has, or neither. -/
inductive Moves (r : Reader σ γ) (x : γ) (s t : σ) : Prop
  | rest (hl : r.lines t = r.lines s) (hp : r.pending t = none ∨ r.pending t = r.pending s)
  | look (hl : r.lines t = r.lines s) (hp : r.pending t = some x)
  | report (y : γ) (hy : r.pending s = some y) (hl : r.lines t = r.lines s ++ [y])
    (hp : r.pending t = none)

variable {r : Reader σ γ} {view : List β → γ}

/-- Each report shows the record as it was at one of the instants `marks`, which are in order;
reports later than the first after some moment show it as it was after that moment. -/
structure InOrder (r : Reader σ γ) (view : List β → γ) (step : σ → ε → σ)
    (out : σ → ε → List β) (s : σ) (es : List ε) (marks : List Nat) : Prop where
  sorted : marks.Pairwise (· ≤ ·)
  le : ∀ n ∈ marks, n ≤ (emitted step out s es).length
  shown : List.Forall₂ (fun x n => x = view ((emitted step out s es).take n))
    (r.lines (run step s es)) marks
  fresh : ∀ pre, pre <+: es → ∀ i n, (r.lines (run step s pre)).length < i → marks[i]? = some n →
    (emitted step out s pre).length ≤ n

/-- What a reader has in hand was taken after all that it has reported. -/
structure Held (r : Reader σ γ) (view : List β → γ) (step : σ → ε → σ) (out : σ → ε → List β)
    (s : σ) (es : List ε) (marks : List Nat) (y : γ) (n : Nat) : Prop where
  above : ∀ k ∈ marks, k ≤ n
  le : n ≤ (emitted step out s es).length
  shown : y = view ((emitted step out s es).take n)
  fresh : ∀ pre, pre <+: es → (r.lines (run step s pre)).length < marks.length →
    (emitted step out s pre).length ≤ n

variable {marks : List Nat} {y : γ} {n : Nat} {e : ε}

theorem InOrder.length_eq (h : r.InOrder view step out s es marks) :
    (r.lines (run step s es)).length = marks.length :=
  h.shown.length_eq

theorem take_emitted (e : ε) (hn : n ≤ (emitted step out s es).length) :
    (emitted step out s (es ++ [e])).take n = (emitted step out s es).take n := by
  rw [emitted_concat, List.take_append_of_le_length hn]

theorem length_emitted_le (e : ε) :
    (emitted step out s es).length ≤ (emitted step out s (es ++ [e])).length :=
  (emitted_mono (List.prefix_append es [e])).length_le

theorem InOrder.shown_concat (h : r.InOrder view step out s es marks) (e : ε) :
    List.Forall₂ (fun x n => x = view ((emitted step out s (es ++ [e])).take n))
      (r.lines (run step s es)) marks := by
  refine List.forall₂_iff_get.mpr ⟨h.length_eq, fun i hi hm => ?_⟩
  rw [take_emitted e (h.le _ (List.get_mem _ _))]
  exact (List.forall₂_iff_get.mp h.shown).2 i hi hm

/-- A step that reports nothing. -/
theorem InOrder.keep (h : r.InOrder view step out s es marks)
    (hl : r.lines (run step s (es ++ [e])) = r.lines (run step s es)) :
    r.InOrder view step out s (es ++ [e]) marks where
  sorted := h.sorted
  le n hn := (h.le n hn).trans (length_emitted_le e)
  shown := by
    rw [hl]
    exact h.shown_concat e
  fresh pre hpre i n hi hn := by
    rcases List.prefix_concat_iff.mp hpre with rfl | hpre
    · rw [hl, h.length_eq] at hi
      rw [List.getElem?_eq_none hi.le] at hn
      cases hn
    · exact h.fresh pre hpre i n hi hn

theorem Held.keep (hy : r.Held view step out s es marks y n)
    (h : r.InOrder view step out s (es ++ [e]) marks) :
    r.Held view step out s (es ++ [e]) marks y n where
  above := hy.above
  le := hy.le.trans (length_emitted_le e)
  shown := by rw [take_emitted e hy.le, hy.shown]
  fresh pre hpre hlt := by
    rcases List.prefix_concat_iff.mp hpre with rfl | hpre
    · rw [h.length_eq] at hlt
      omega
    · exact hy.fresh pre hpre hlt

theorem InOrder.look (h : r.InOrder view step out s es marks)
    (h' : r.InOrder view step out s (es ++ [e]) marks) :
    r.Held view step out s (es ++ [e]) marks (view (emitted step out s es))
      (emitted step out s es).length where
  above := h.le
  le := length_emitted_le e
  shown := by rw [take_emitted e le_rfl, List.take_length]
  fresh pre hpre hlt := by
    rcases List.prefix_concat_iff.mp hpre with rfl | hpre
    · rw [h'.length_eq] at hlt
      omega
    · exact (emitted_mono hpre).length_le

theorem InOrder.report (h : r.InOrder view step out s es marks)
    (hy : r.Held view step out s es marks y n)
    (hl : r.lines (run step s (es ++ [e])) = r.lines (run step s es) ++ [y]) :
    r.InOrder view step out s (es ++ [e]) (marks ++ [n]) where
  sorted := List.pairwise_append.mpr ⟨h.sorted, List.pairwise_singleton _ _, fun k hk m hm => by
    rw [List.mem_singleton.mp hm]
    exact hy.above k hk⟩
  le k hk := by
    rcases List.mem_append.mp hk with hk | hk
    · exact (h.le k hk).trans (length_emitted_le e)
    · rw [List.mem_singleton.mp hk]
      exact hy.le.trans (length_emitted_le e)
  shown := by
    rw [hl]
    refine List.rel_append (h.shown_concat e) (.cons ?_ .nil)
    rw [take_emitted e hy.le, hy.shown]
  fresh pre hpre i k hi hk := by
    rcases List.prefix_concat_iff.mp hpre with rfl | hpre
    · rw [hl, List.length_append, List.length_singleton, h.length_eq] at hi
      rw [List.getElem?_eq_none (by rw [List.length_append, List.length_singleton]; omega)] at hk
      cases hk
    · rcases Nat.lt_or_ge i marks.length with hlt | hge
      · rw [List.getElem?_append_left hlt] at hk
        exact h.fresh pre hpre i k hi hk
      · obtain ⟨hlen, -⟩ := List.getElem?_eq_some_iff.mp hk
        obtain rfl : i = marks.length := by
          rw [List.length_append, List.length_singleton] at hlen
          omega
        rw [List.getElem?_concat_length] at hk
        rw [← Option.some.inj hk]
        exact hy.fresh pre hpre hi

/-- A reader whose every look shows the record of that moment reports in order. -/
theorem exists_inOrder (r : Reader σ γ) (view : List β → γ) (out : σ → ε → List β)
    (hp : r.pending s = none) (hl : r.lines s = [])
    (h : ∀ pre e, pre ++ [e] <+: es →
      r.Moves (view (emitted step out s pre)) (run step s pre) (run step s (pre ++ [e]))) :
    ∃ marks, r.InOrder view step out s es marks ∧
      ∀ y, r.pending (run step s es) = some y → ∃ n, r.Held view step out s es marks y n := by
  induction es using List.reverseRecOn with
  | nil =>
    refine ⟨[], ⟨.nil, by simp, by simp [hl], by simp⟩, fun y hy => ?_⟩
    rw [run_nil, hp] at hy
    cases hy
  | append_singleton es e ih =>
    obtain ⟨marks, ho, hh⟩ := ih fun pre e hpre => h pre e (hpre.trans (List.prefix_append _ _))
    cases h es e List.prefix_rfl with
    | rest hl hp =>
      refine ⟨marks, ho.keep hl, fun y hy => ?_⟩
      rcases hp with hp | hp
      · rw [hp] at hy
        cases hy
      · obtain ⟨n, hn⟩ := hh y (hp ▸ hy)
        exact ⟨n, hn.keep (ho.keep hl)⟩
    | look hl hp =>
      refine ⟨marks, ho.keep hl, fun y hy => ?_⟩
      rw [hp] at hy
      obtain rfl := Option.some.inj hy
      exact ⟨_, ho.look (ho.keep hl)⟩
    | report y hy hl hp =>
      obtain ⟨n, hn⟩ := hh y hy
      refine ⟨marks ++ [n], ho.report hn hl, fun y hy => ?_⟩
      rw [hp] at hy
      cases hy

end Reader

end Schedule
