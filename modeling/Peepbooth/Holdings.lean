import Mathlib.Data.Set.Insert
import Mathlib.Logic.Function.Basic

/-! Resources that owners take, hand on and give back. Each owner has several places, and a
place holds one resource at most. Whatever is taken and nobody's business here belongs to
`others`. -/

universe u v w

variable {V : Type u} {M : Type v} {R : Type w}

structure Holdings (V : Type u) (M : Type v) (R : Type w) where
  held : V → M → Option R
  taken : Set R

namespace Holdings

def empty (taken : Set R) : Holdings V M R := ⟨fun _ _ => none, taken⟩

/-- What an owner holds in all its places. -/
def rowOf (row : M → Option R) : Set R := fun r => ∃ m, row m = some r

@[simp] theorem rowOf_none : rowOf (fun _ => none : M → Option R) = ∅ :=
  Set.eq_empty_of_forall_notMem fun _ ⟨_, h⟩ => by cases h

section

variable [DecidableEq V]

/-- An owner takes what is in none of its places yet. -/
def take (h : Holdings V M R) (o : V) (row : M → Option R) : Holdings V M R :=
  ⟨Function.update h.held o fun m => (h.held o m).or (row m), h.taken ∪ rowOf row⟩

def giveBack (h : Holdings V M R) (o : V) : Holdings V M R :=
  ⟨Function.update h.held o fun _ => none, h.taken \ rowOf (h.held o)⟩

def handOn (h : Holdings V M R) (dest source : V) : Holdings V M R :=
  ⟨Function.update (Function.update h.held dest (h.held source)) source fun _ => none, h.taken⟩

end

/-- What is taken is either others' or held in exactly one place. -/
structure Accounted (others : Set R) (h : Holdings V M R) : Prop where
  taken : ∀ r, r ∈ h.taken ↔ r ∈ others ∨ ∃ o m, h.held o m = some r
  apart : ∀ o m r, h.held o m = some r → r ∉ others
  once : ∀ o m p l r, h.held o m = some r → h.held p l = some r → o = p ∧ m = l

theorem accounted_empty (others : Set R) :
    (empty others : Holdings V M R).Accounted others where
  taken r := by simp [empty]
  apart o m r h := by cases h
  once o m p l r h := by cases h

namespace Accounted

variable {others : Set R} {h : Holdings V M R} {o p : V} {m l : M} {r : R}

theorem mem_of_held (hh : h.Accounted others) (hm : h.held o m = some r) : r ∈ h.taken :=
  (hh.taken r).mpr (.inr ⟨o, m, hm⟩)

/-- When nobody holds anything, only what is others' is taken. -/
theorem taken_eq (hh : h.Accounted others) (hn : ∀ o m, h.held o m = none) : h.taken = others := by
  ext r
  rw [hh.taken]
  simp [hn]

/-- Others take something that is free. -/
theorem insert (hh : h.Accounted others) (hr : r ∉ h.taken) :
    Accounted (insert r others) ⟨h.held, insert r h.taken⟩ where
  taken q := by
    simp only [Set.mem_insert_iff, hh.taken q, or_assoc]
  apart o m q hq := by
    rintro (rfl | hmem)
    · exact hr (hh.mem_of_held hq)
    · exact hh.apart o m q hq hmem
  once := hh.once

/-- Others give back something of their own. -/
theorem remove (hh : h.Accounted others) (hr : r ∈ others) :
    Accounted (others \ {r}) ⟨h.held, h.taken \ {r}⟩ where
  taken q := by
    constructor
    · rintro ⟨hq, hne⟩
      exact ((hh.taken q).mp hq).imp_left fun ho => ⟨ho, hne⟩
    · rintro (⟨ho, hne⟩ | ⟨o, m, hm⟩)
      · exact ⟨(hh.taken q).mpr (.inl ho), hne⟩
      · exact ⟨hh.mem_of_held hm, fun he => hh.apart o m q hm (he ▸ hr)⟩
  apart o m q hq ho := hh.apart o m q hq ho.1
  once := hh.once

variable [DecidableEq V]

theorem giveBack (hh : h.Accounted others) (o : V) : (h.giveBack o).Accounted others := by
  have hheld (p : V) (m : M) (r : R) : (h.giveBack o).held p m = some r ↔
      p ≠ o ∧ h.held p m = some r := by
    by_cases hp : p = o
    · subst hp
      simp [Holdings.giveBack]
    · simp [Holdings.giveBack, hp]
  refine ⟨fun r => ?_, fun p m r hp => ?_, fun p m q l r hp hq => ?_⟩
  · simp only [hheld]
    constructor
    · rintro ⟨hr, hrow⟩
      rcases (hh.taken r).mp hr with ho | ⟨p, m, hm⟩
      · exact .inl ho
      · refine .inr ⟨p, m, ?_, hm⟩
        rintro rfl
        exact hrow ⟨m, hm⟩
    · rintro (ho | ⟨p, m, hp, hm⟩)
      · exact ⟨(hh.taken r).mpr (.inl ho), fun ⟨m, hm⟩ => hh.apart o m r hm ho⟩
      · exact ⟨hh.mem_of_held hm, fun ⟨l, hl⟩ => hp (hh.once p m o l r hm hl).1⟩
  · exact hh.apart p m r ((hheld p m r).mp hp).2
  · exact hh.once p m q l r ((hheld p m r).mp hp).2 ((hheld q l r).mp hq).2

theorem take (hh : h.Accounted others) {row : M → Option R}
    (hplace : ∀ m r, row m = some r → h.held o m = none)
    (hfree : ∀ m r, row m = some r → r ∉ h.taken)
    (honce : ∀ m l r, row m = some r → row l = some r → m = l) :
    (h.take o row).Accounted others := by
  have hheld (p : V) (m : M) (r : R) : (h.take o row).held p m = some r ↔
      h.held p m = some r ∨ p = o ∧ row m = some r := by
    by_cases hp : p = o
    · subst hp
      have hold := hplace m r
      simp only [Holdings.take, Function.update_self, Option.or_eq_some_iff, true_and]
      exact or_congr_right ⟨fun hr => hr.2, fun hr => ⟨hold hr, hr⟩⟩
    · simp [Holdings.take, hp]
  refine ⟨fun r => ?_, fun p m r hp ho => ?_, fun p m q l r hp hq => ?_⟩
  · simp only [hheld]
    constructor
    · rintro (hr | ⟨m, hm⟩)
      · exact ((hh.taken r).mp hr).imp_right fun ⟨p, m, hm⟩ => ⟨p, m, .inl hm⟩
      · exact .inr ⟨o, m, .inr ⟨rfl, hm⟩⟩
    · rintro (ho | ⟨p, m, hm | ⟨-, hm⟩⟩)
      · exact .inl ((hh.taken r).mpr (.inl ho))
      · exact .inl (hh.mem_of_held hm)
      · exact .inr ⟨m, hm⟩
  · rcases (hheld p m r).mp hp with hp | ⟨-, hp⟩
    · exact hh.apart p m r hp ho
    · exact hfree m r hp ((hh.taken r).mpr (.inl ho))
  · rcases (hheld p m r).mp hp with hm | ⟨rfl, hm⟩ <;>
      rcases (hheld q l r).mp hq with hl | ⟨rfl, hl⟩
    · exact hh.once p m q l r hm hl
    · exact absurd (hh.mem_of_held hm) (hfree l r hl)
    · exact absurd (hh.mem_of_held hl) (hfree m r hm)
    · exact ⟨rfl, honce m l r hm hl⟩

theorem handOn (hh : h.Accounted others) {dest source : V} (hne : dest ≠ source)
    (hdest : ∀ m, h.held dest m = none) : (h.handOn dest source).Accounted others := by
  let back (p : V) : V := if p = dest then source else p
  have hheld (p : V) (m : M) (r : R) : (h.handOn dest source).held p m = some r ↔
      p ≠ source ∧ h.held (back p) m = some r := by
    by_cases hp : p = source
    · subst hp
      simp [Holdings.handOn]
    · by_cases hd : p = dest
      · subst hd
        simp [Holdings.handOn, back, hp]
      · simp [Holdings.handOn, back, hp, hd]
  have hback {p q : V} (hp : p ≠ source) (hq : q ≠ source) (he : back p = back q) : p = q := by
    simp only [back] at he
    split at he <;> split at he <;> simp_all
  refine ⟨fun r => ?_, fun p m r hp => ?_, fun p m q l r hp hq => ?_⟩
  · simp only [hheld]
    refine (hh.taken r).trans (or_congr_right ⟨?_, fun ⟨p, m, _, hm⟩ => ⟨back p, m, hm⟩⟩)
    rintro ⟨p, m, hm⟩
    by_cases hp : p = source
    · exact ⟨dest, m, hne, by simpa [back, ← hp] using hm⟩
    · refine ⟨p, m, hp, ?_⟩
      have hd : p ≠ dest := by
        rintro rfl
        rw [hdest m] at hm
        cases hm
      simpa [back, hd] using hm
  · exact hh.apart _ m r ((hheld p m r).mp hp).2
  · obtain ⟨hps, hm⟩ := (hheld p m r).mp hp
    obtain ⟨hqs, hl⟩ := (hheld q l r).mp hq
    obtain ⟨he, hml⟩ := hh.once _ m _ l r hm hl
    exact ⟨hback hps hqs he, hml⟩

end Accounted

end Holdings
