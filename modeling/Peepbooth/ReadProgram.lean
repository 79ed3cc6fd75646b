import Mathlib.Data.List.Forall2
import Mathlib.Data.List.ReduceOption

/-! Read-only programs that other parties may interrupt. A program is a tree of
atomic loads; each load names its place and sees the state of its own instant. -/

/-- `ν` names the places of the loads, `σ` is what a load can see. -/
inductive ReadProgram (ν σ α : Type)
  | done (result : α)
  | load (place : ν) (next : σ → ReadProgram ν σ α)

namespace ReadProgram

variable {ν σ τ α β ι : Type}

def bind : ReadProgram ν σ α → (α → ReadProgram ν σ β) → ReadProgram ν σ β
  | done a, f => f a
  | load p next, f => load p fun s => (next s).bind f

instance : Monad (ReadProgram ν σ) where
  pure := done
  bind := bind

def read (place : ν) (f : σ → α) : ReadProgram ν σ α := load place fun s => done (f s)

def traverse (f : ι → ReadProgram ν σ α) : List ι → ReadProgram ν σ (List α)
  | [] => done []
  | i :: is => (f i).bind fun a => (traverse f is).bind fun as => done (a :: as)

def run : ReadProgram ν σ α → σ → α
  | done a, _ => a
  | load _ next, s => (next s).run s

/-- The result where the load number `n` and those after it see what `c` holds. -/
def resultUnder (c : Nat → σ) : ReadProgram ν σ α → Nat → α
  | done a, _ => a
  | load _ next, n => (next (c n)).resultUnder c (n + 1)

/-- The places of the loads made then. -/
def placesUnder (c : Nat → σ) : ReadProgram ν σ α → Nat → List ν
  | done _, _ => []
  | load p next, n => p :: (next (c n)).placesUnder c (n + 1)

/-- How many loads it makes when nothing interrupts it. -/
def loads : ReadProgram ν σ α → σ → Nat
  | done _, _ => 0
  | load _ next, s => (next s).loads s + 1

/-- Every load of the program is at a place in `N`. -/
def Within (N : ν → Prop) : ReadProgram ν σ α → Prop
  | done _ => True
  | load p next => N p ∧ ∀ s, (next s).Within N

/-- The program looks at `f` of what it can see and at nothing else. -/
def DependsOn {ρ : Type} (f : σ → ρ) : ReadProgram ν σ α → Prop
  | done _ => True
  | load _ next => (∀ s t, f s = f t → next s = next t) ∧ ∀ s, (next s).DependsOn f

/-- It makes at most `n` loads, whatever it sees. -/
def AtMost : ReadProgram ν σ α → Nat → Prop
  | done _, _ => True
  | load _ _, 0 => False
  | load _ next, n + 1 => ∀ s, (next s).AtMost n

/-- Where the program stands: the place of its next load. -/
def place : ReadProgram ν σ α → Option ν
  | done _ => none
  | load p _ => some p

@[simp] theorem pure_eq (a : α) : (pure a : ReadProgram ν σ α) = done a := rfl

@[simp] theorem bind_eq (p : ReadProgram ν σ α) (f : α → ReadProgram ν σ β) :
    (p >>= f) = p.bind f := rfl

@[simp] theorem done_bind (a : α) (f : α → ReadProgram ν σ β) : (done a).bind f = f a := rfl

@[simp] theorem read_bind (p : ν) (g : σ → α) (f : α → ReadProgram ν σ β) :
    (read p g).bind f = load p fun s => f (g s) := rfl

@[simp] theorem run_done (a : α) (s : σ) : (done a : ReadProgram ν σ α).run s = a := rfl

@[simp] theorem run_load (p : ν) (next : σ → ReadProgram ν σ α) (s : σ) :
    (load p next).run s = (next s).run s := rfl

@[simp] theorem run_read (p : ν) (f : σ → α) (s : σ) : (read p f).run s = f s := rfl

@[simp] theorem run_bind (p : ReadProgram ν σ α) (f : α → ReadProgram ν σ β) (s : σ) :
    (p.bind f).run s = (f (p.run s)).run s := by
  induction p with
  | done a => rfl
  | load p next ih => exact ih s

@[simp] theorem run_traverse (f : ι → ReadProgram ν σ α) (is : List ι) (s : σ) :
    (traverse f is).run s = is.map fun i => (f i).run s := by
  induction is with
  | nil => rfl
  | cons i is ih => simp [traverse, ih]

theorem placesUnder_bind (c : Nat → σ) (p : ReadProgram ν σ α) (f : α → ReadProgram ν σ β)
    (n : Nat) :
    (p.bind f).placesUnder c n = p.placesUnder c n ++
      (f (p.resultUnder c n)).placesUnder c (n + (p.placesUnder c n).length) := by
  induction p generalizing n with
  | done a => rfl
  | load place next ih =>
    have h : n + 1 + ((next (c n)).placesUnder c (n + 1)).length =
        n + ((next (c n)).placesUnder c (n + 1)).length.succ := by omega
    simp only [bind, placesUnder, resultUnder, ih, List.cons_append, List.length_cons, h]

theorem resultUnder_bind (c : Nat → σ) (p : ReadProgram ν σ α) (f : α → ReadProgram ν σ β)
    (n : Nat) :
    (p.bind f).resultUnder c n =
      (f (p.resultUnder c n)).resultUnder c (n + (p.placesUnder c n).length) := by
  induction p generalizing n with
  | done a => rfl
  | load place next ih =>
    have h : n + 1 + ((next (c n)).placesUnder c (n + 1)).length =
        n + ((next (c n)).placesUnder c (n + 1)).length.succ := by omega
    simp only [bind, placesUnder, resultUnder, ih, List.length_cons, h]

theorem Within.bind {N : ν → Prop} {p : ReadProgram ν σ α} {f : α → ReadProgram ν σ β}
    (h : p.Within N) (hf : ∀ a, (f a).Within N) : (p.bind f).Within N := by
  induction p with
  | done a => exact hf a
  | load p next ih => exact ⟨h.1, fun s => ih s (h.2 s)⟩

theorem Within.traverse {N : ν → Prop} {f : ι → ReadProgram ν σ α} {is : List ι}
    (h : ∀ i, (f i).Within N) : (ReadProgram.traverse f is).Within N := by
  induction is with
  | nil => trivial
  | cons i is ih => exact (h i).bind fun a => ih.bind fun as => trivial

theorem Within.mem_placesUnder {N : ν → Prop} {p : ReadProgram ν σ α} (h : p.Within N)
    (c : Nat → σ) (n : Nat) : ∀ place ∈ p.placesUnder c n, N place := by
  induction p generalizing n with
  | done a => exact fun place hp => absurd hp List.not_mem_nil
  | load p next ih =>
    intro place hp
    rcases List.mem_cons.mp hp with rfl | hp
    · exact h.1
    · exact ih _ (h.2 _) (n + 1) place hp

theorem AtMost.load {p : ν} {next : σ → ReadProgram ν σ α} {n : Nat} (h : (load p next).AtMost n) :
    ∃ k, n = k + 1 ∧ ∀ s, (next s).AtMost k := by
  cases n with
  | zero => exact h.elim
  | succ n => exact ⟨n, rfl, h⟩

theorem AtMost.mono {p : ReadProgram ν σ α} {n m : Nat} (h : p.AtMost n) (hn : n ≤ m) :
    p.AtMost m := by
  induction p generalizing n m with
  | done a => trivial
  | load place next ih =>
    cases n with
    | zero => exact h.elim
    | succ n =>
      cases m with
      | zero => exact absurd hn (Nat.not_succ_le_zero n)
      | succ m => exact fun s => ih s (h s) (Nat.le_of_succ_le_succ hn)

theorem AtMost.bind {p : ReadProgram ν σ α} {f : α → ReadProgram ν σ β} {n m : Nat}
    (h : p.AtMost n) (hf : ∀ a, (f a).AtMost m) : (p.bind f).AtMost (n + m) := by
  induction p generalizing n with
  | done a => exact (hf a).mono (Nat.le_add_left m n)
  | load place next ih =>
    cases n with
    | zero => exact h.elim
    | succ n =>
      rw [Nat.add_right_comm]
      exact fun s => ih s (h s)

theorem AtMost.traverse {f : ι → ReadProgram ν σ α} {n : Nat} (h : ∀ i, (f i).AtMost n)
    (is : List ι) : (ReadProgram.traverse f is).AtMost (is.length * n) := by
  induction is with
  | nil => trivial
  | cons i is ih =>
    rw [List.length_cons, Nat.succ_mul, Nat.add_comm]
    exact (h i).bind fun a => ih.bind (m := 0) fun as => trivial

theorem DependsOn.bind {ρ : Type} {g : σ → ρ} {p : ReadProgram ν σ α}
    {f : α → ReadProgram ν σ β} (h : p.DependsOn g) (hf : ∀ a, (f a).DependsOn g) :
    (p.bind f).DependsOn g := by
  induction p with
  | done a => exact hf a
  | load p next ih =>
    exact ⟨fun s t hst => congrArg (ReadProgram.bind · f) (h.1 s t hst), fun s => ih s (h.2 s)⟩

theorem DependsOn.traverse {ρ : Type} {g : σ → ρ} {f : ι → ReadProgram ν σ α} {is : List ι}
    (h : ∀ i, (f i).DependsOn g) : (ReadProgram.traverse f is).DependsOn g := by
  induction is with
  | nil => trivial
  | cons i is ih => exact (h i).bind fun a => ih.bind fun as => trivial

theorem DependsOn.run {ρ : Type} {f : σ → ρ} {p : ReadProgram ν σ α} (h : p.DependsOn f)
    {s t : σ} (hst : f s = f t) : p.run s = p.run t := by
  induction p with
  | done a => rfl
  | load p next ih =>
    rw [run_load, run_load, h.1 s t hst]
    exact ih t (h.2 t)

end ReadProgram

/-- What the other parties can do between the loads of a program: they move
within `rel`, which may depend on where the program stands, and keep `inv`.
A load sees `view` of the state and may leave a `mark` in it; it happens only
where it `may`. -/
structure Rely (ν σ τ : Type) where
  view : τ → σ
  mark : ν → τ → τ
  may : ν → τ → Prop
  inv : τ → Prop
  rel : Option ν → τ → τ → Prop
  inv_mark : ∀ p t, inv t → inv (mark p t)
  refl : ∀ n t, inv t → rel n t t
  trans : ∀ {n a b c}, rel n a b → rel n b c → rel n a c

namespace ReadProgram

variable {ν σ τ α β ι : Type} {E : Rely ν σ τ} {Q R : α → τ → Prop}

/-- From the state `s` the program can only end with results and states
related by `Q`, whatever the others do between its loads. -/
def Safe (E : Rely ν σ τ) (Q : α → τ → Prop) : ReadProgram ν σ α → τ → Prop
  | done a, s => ∀ t, E.inv t → E.rel none s t → Q a t
  | load p next, s => ∀ t, E.inv t → E.rel (some p) s t → E.may p t →
      Safe E Q (next (E.view t)) (E.mark p t)

theorem Safe.imp {p : ReadProgram ν σ α} {s : τ} (hQ : ∀ a t, E.inv t → Q a t → R a t)
    (h : Safe E Q p s) : Safe E R p s := by
  induction p generalizing s with
  | done a => exact fun t hi ht => hQ a t hi (h t hi ht)
  | load p next ih => exact fun t hi ht hm => ih _ (h t hi ht hm)

theorem Safe.trans {p : ReadProgram ν σ α} {s t : τ} (h : Safe E Q p s)
    (ht : E.rel p.place s t) : Safe E Q p t := by
  cases p with
  | done a => exact fun u hi hu => h u hi (E.trans ht hu)
  | load p next => exact fun u hi hu => h u hi (E.trans ht hu)

theorem Safe.load {p : ν} {next : σ → ReadProgram ν σ α} {s : τ} (h : Safe E Q (load p next) s)
    (hi : E.inv s) (hm : E.may p s) : Safe E Q (next (E.view s)) (E.mark p s) :=
  h s hi (E.refl _ s hi) hm

theorem Safe.result {a : α} {s : τ} (h : Safe E Q (done a) s) (hi : E.inv s) : Q a s :=
  h s hi (E.refl _ s hi)

theorem Safe.bind {Q : β → τ → Prop} {p : ReadProgram ν σ α} {f : α → ReadProgram ν σ β} {s : τ}
    (hi : E.inv s) (h : Safe E R p s) (hf : ∀ a t, E.inv t → R a t → Safe E Q (f a) t) :
    Safe E Q (p.bind f) s := by
  induction p generalizing s with
  | done a => exact hf a s hi (h.result hi)
  | load p next ih =>
    exact fun t ht hr hm => ih _ (E.inv_mark p t ht) (h t ht hr hm)

theorem safe_of_forall {p : ReadProgram ν σ α} {s : τ} (hQ : ∀ a t, E.inv t → Q a t) :
    Safe E Q p s := by
  induction p generalizing s with
  | done a => exact fun t hi _ => hQ a t hi
  | load p next ih => exact fun t _ _ _ => ih _

/-- A result that no step of the others can spoil may be stated at once. -/
theorem safe_done {a : α} {s : τ} (hQ : ∀ t, E.rel none s t → Q a s → Q a t) (h : Q a s) :
    Safe E Q (done a) s :=
  fun t _ ht => hQ t ht h

/-- What the others and the loads keep is still true at the end. -/
theorem Safe.and_kept {K : τ → Prop} {N : ν → Prop} {p : ReadProgram ν σ α} {s : τ}
    (hrel : ∀ n s t, E.inv t → E.rel n s t → K s → K t)
    (hmark : ∀ p t, N p → K t → K (E.mark p t)) (hp : p.Within N) (hK : K s)
    (h : Safe E Q p s) : Safe E (fun a t => Q a t ∧ K t) p s := by
  induction p generalizing s with
  | done a => exact fun t hi ht => ⟨h t hi ht, hrel _ s t hi ht hK⟩
  | load p next ih =>
    exact fun t hi ht hm =>
      ih _ (hp.2 _) (hmark p t hp.1 (hrel _ s t hi ht hK)) (h t hi ht hm)

theorem within_true (p : ReadProgram ν σ α) : p.Within fun _ => True := by
  induction p with
  | done a => trivial
  | load p next ih => exact ⟨trivial, ih⟩

theorem Safe.keeps {K : τ → Prop} {p : ReadProgram ν σ α} {s : τ}
    (hrel : ∀ n s t, E.inv t → E.rel n s t → K s → K t) (hmark : ∀ p t, K t → K (E.mark p t))
    (hK : K s) : Safe E (fun _ t => K t) p s :=
  (Safe.and_kept (Q := fun _ _ => True) hrel (fun p t _ => hmark p t) (within_true p) hK
    (safe_of_forall fun _ _ _ => trivial)).imp fun _ _ _ h => h.2

/-- Where nothing that a program looks at has changed until its end, `U`, its
result is the one it would have had alone in the final state. -/
theorem safe_run {ρ : Type} {f : σ → ρ} {U : τ → Prop} {N : ν → Prop} {p : ReadProgram ν σ α}
    {s : τ} (hrel : ∀ n s t, E.rel n s t → U t → U s ∧ f (E.view t) = f (E.view s))
    (hmark : ∀ p t, N p → U (E.mark p t) → U t ∧ f (E.view (E.mark p t)) = f (E.view t))
    (hp : p.Within N) (hf : p.DependsOn f) :
    Safe E (fun a t => U t → a = p.run (E.view t)) p s := by
  induction p generalizing s with
  | done a => exact fun _ _ _ _ => rfl
  | load p next ih =>
    intro t hi ht hm
    have hkept : Safe E (fun a u => (U u → a = (next (E.view t)).run (E.view u)) ∧
        (U u → f (E.view u) = f (E.view t))) (next (E.view t)) (E.mark p t) := by
      refine Safe.and_kept (N := N) (fun n u v _ hr hk hv => ?_) (fun q u hq hk hu => ?_) (hp.2 _)
        (fun hu => (hmark p t hp.1 hu).2) (ih _ (hp.2 _) (hf.2 _))
      · have hh := hrel n u v hr hv
        exact hh.2.trans (hk hh.1)
      · have hh := hmark q u hq hu
        exact hh.2.trans (hk hh.1)
    refine hkept.imp fun a u _ hh hu => (hh.1 hu).trans ?_
    rw [hf.1 _ _ (hh.2 hu).symm]
    rfl

theorem Safe.traverse {Q : ι → α → τ → Prop} {f : ι → ReadProgram ν σ α} {is : List ι} {s : τ}
    (hi : E.inv s) (hrel : ∀ n i a s t, E.inv t → E.rel n s t → Q i a s → Q i a t)
    (hmark : ∀ p i a t, Q i a t → Q i a (E.mark p t))
    (h : ∀ i ∈ is, ∀ t, E.inv t → Safe E (Q i) (f i) t) :
    Safe E (fun as t => List.Forall₂ (fun i a => Q i a t) is as) (traverse f is) s := by
  induction is generalizing s with
  | nil => exact fun t _ _ => .nil
  | cons i is ih =>
    refine Safe.bind hi (h i List.mem_cons_self s hi) fun a t ht ha => ?_
    -- the results still to come are read while `a` is kept
    have hkeep : Safe E (fun as u => List.Forall₂ (fun i a => Q i a u) is as ∧ Q i a u)
        (ReadProgram.traverse f is) t :=
      Safe.and_kept (fun n u v hv hr => hrel n i a u v hv hr) (fun p u _ => hmark p i a u)
        (within_true _) ha (ih ht fun j hj => h j (List.mem_cons_of_mem _ hj))
    exact Safe.bind ht hkeep fun as u hu has => fun v hv hr =>
      .cons (hrel _ i a u v hv hr has.2) (has.1.imp fun j b => hrel _ j b u v hv hr)

theorem exists_of_forall₂ {R : ι → α → Prop} {is : List ι} {as : List α}
    (h : List.Forall₂ R is as) {a : α} (ha : a ∈ as) : ∃ i ∈ is, R i a := by
  induction h with
  | nil => cases ha
  | cons hr _ ih =>
    rcases List.mem_cons.mp ha with rfl | ha
    · exact ⟨_, List.mem_cons_self, hr⟩
    · obtain ⟨i, hi, hh⟩ := ih ha
      exact ⟨i, List.mem_cons_of_mem _ hi, hh⟩

theorem exists_result_of_forall₂ {R : ι → α → Prop} {is : List ι} {as : List α}
    (h : List.Forall₂ R is as) {i : ι} (hi : i ∈ is) : ∃ a ∈ as, R i a := by
  obtain ⟨n, hn, rfl⟩ := List.getElem_of_mem hi
  have hn' : n < as.length := h.length_eq ▸ hn
  exact ⟨as[n], List.getElem_mem hn', h.get hn hn'⟩

theorem fst_sublist_of_forall₂ {is : List ι} {items : List (Option (ι × α))}
    (h : List.Forall₂ (fun i item => ∀ x ∈ item, x.1 = i) is items) :
    (items.reduceOption.map Prod.fst).Sublist is := by
  induction h with
  | nil => exact .slnil
  | @cons i item is items hi _ ih =>
    cases item with
    | none =>
      rw [List.reduceOption_cons_of_none]
      exact ih.cons i
    | some x =>
      rw [List.reduceOption_cons_of_some, List.map_cons, hi x rfl]
      exact ih.cons_cons i

end ReadProgram
