import Peepbooth.AttachRun

/-! Attachment while the client sets up its shared memory. A watcher that has compared the
size of the header has seen a store that comes after the whole construction. -/

namespace Peepbooth

open Schedule InitWrite

/-- A store that is not one of the first ones comes after them all. -/
theorem prefix_of_not_mem {α : Type*} {written rest before after : List α} {w : α}
    (h : written ++ w :: rest = before ++ after) (hw : w ∉ before) : before <+: written := by
  rcases List.append_eq_append_iff.mp h with ⟨more, hb, hr⟩ | ⟨more, hwr, -⟩
  · cases more with
    | nil => exact ⟨[], by rw [hb, List.append_nil, List.append_nil]⟩
    | cons v more =>
      rw [List.cons_append] at hr
      obtain ⟨rfl, -⟩ := List.cons.inj hr
      exact absurd (hb ▸ List.mem_append_right _ List.mem_cons_self) hw
  · exact ⟨more, hwr.symm⟩

namespace AttachRun

variable {ι : Type*} [DecidableEq ι]

/-- Where the client stands in its stores. `first` is its first object. -/
def Progress (first : Nat) (s : AttachRun ι) : CreatePc → Prop
  | .ftruncate o | .fchmod o | .mmap o => first ≤ o ∧ o < s.next ∧ s.log.written o = []
  | .setUp o rest =>
    first ≤ o ∧ o < s.next ∧ s.log.written o ++ rest = construction ++ header s.pid s.uid
  | .readIdentity o => first ≤ o ∧ o < s.next ∧ construction <+: s.log.written o
  | .publish o rest =>
    first ≤ o ∧ o < s.next ∧ construction <+: s.log.written o ∧ ∀ w ∈ rest, w.isBody = false
  | _ => True

/-- What any watcher has seen of the client's objects has been constructed. -/
structure Ordered (first : Nat) (s : AttachRun ι) : Prop where
  base : first ≤ s.next
  names : ∀ name o, s.names name = some o → o < s.next
  opened : ∀ i o, (s.watcher i).object = some o → o < s.next
  unmade : ∀ o, s.next ≤ o → s.log.written o = []
  progress : s.Progress first s.client
  header : ∀ o, first ≤ o → o < s.next → (s.object o).mem.headerSize ≠ 0 →
    construction <+: s.log.written o
  compared : ∀ i o, (s.watcher i).compared = some o → first ≤ o →
    construction <+: s.log.written o
  attached : ∀ i o, (i, o) ∈ s.log.attached → first ≤ o → construction <+: s.log.written o
  session : ∀ i o, (s.watcher i).session = some o → (i, o) ∈ s.log.attached

/-- A step of a watcher that stores nothing and does not end `valid_state`. -/
structure Follows (s : AttachRun ι) (pc next : AttachPc) : Prop where
  object : ∀ o, next.object = some o → pc.object = some o ∨ ∃ name, s.names name = some o
  compared : ∀ o, next.compared = some o → pc.compared = some o ∨
    pc.object = some o ∧ (s.object o).mem.headerSize = Peepbooth.headerSize
  session : ∀ o, next.session = some o → pc.session = some o

variable {s t : AttachRun ι} {i : ι} {first : Nat} {pc : AttachPc} {o : Nat} {ok : Bool}
  {now : UInt64} {w : InitWrite}

omit [DecidableEq ι] in
theorem Follows.refl (s : AttachRun ι) (pc : AttachPc) : Follows s pc pc :=
  ⟨fun _ => .inl, fun _ => .inl, fun _ => id⟩

omit [DecidableEq ι] in
theorem follows_idle (s : AttachRun ι) (pc : AttachPc) : Follows s pc .idle :=
  ⟨fun _ h => (by cases h), fun _ h => (by cases h), fun _ h => (by cases h)⟩

omit [DecidableEq ι] in
theorem Follows.ite {next : AttachPc} {c : Prop} [Decidable c] (h : Follows s pc next) :
    Follows s pc (if c then next else .idle) := by
  split
  · exact h
  · exact follows_idle s pc

omit [DecidableEq ι] in
theorem names_link (s : AttachRun ι) (object : Option Nat) :
    (s.link object).names = Function.update s.names s.ownName object := rfl

theorem move_self (s : AttachRun ι) (i : ι) : s.move i (s.watcher i) = s := by
  rw [move, Function.update_eq_self]

/-- One comparison of `valid_state`. The session begins where the last one holds. -/
theorem stepWatcher_check {uid : UInt32} {identity : ProcessIdentity} {field : HeaderField}
    (hpc : s.watcher i = .check uid identity o field) (ok : Bool) (now : UInt64) :
    (∃ pc, s.stepWatcher i ok now = s.move i pc ∧
      Follows s (.check uid identity o field) pc) ∨
    (field = .processStartTicks ∧ s.stepWatcher i ok now =
      { s.move i (.readClock o) with
        log := { s.log with attached := s.log.attached ++ [(i, o)] } }) := by
  by_cases hf : field.holds (s.object o).mem identity uid
  · cases hnext : field.next with
    | some other =>
      refine .inl ⟨.check uid identity o other, ?_, fun _ => .inl, ?_, fun _ h => (by cases h)⟩
      · simp only [stepWatcher, hpc, if_pos hf, hnext]
      · intro p hp
        cases field with
        | headerSize =>
          cases hnext
          cases hp
          exact .inr ⟨rfl, of_decide_eq_true hf⟩
        | _ => cases hnext <;> exact .inl hp
    | none =>
      have hlast : field = .processStartTicks := by cases field <;> first | rfl | cases hnext
      refine .inr ⟨hlast, ?_⟩
      simp only [stepWatcher, hpc, if_pos hf, hnext]
  · refine .inl ⟨.idle, ?_, follows_idle _ _⟩
    simp only [stepWatcher, hpc, if_neg hf]

/-- The watcher's own step: it moves on, its `valid_state` has held, or it makes a store
in the object that it has a session on. -/
theorem stepWatcher_cases (s : AttachRun ι) (i : ι) (ok : Bool) (now : UInt64) :
    (∃ pc, s.stepWatcher i ok now = s.move i pc ∧ Follows s (s.watcher i) pc) ∨
    (∃ o, (s.watcher i).compared = some o ∧ (s.watcher i).object = some o ∧
      (s.watcher i).session = none ∧ s.stepWatcher i ok now =
        { s.move i (.readClock o) with
          log := { s.log with attached := s.log.attached ++ [(i, o)] } }) ∨
    (∃ o f pc, (s.watcher i).session = some o ∧ (s.watcher i).object = some o ∧
      Follows s (s.watcher i) pc ∧ (∀ m, (f m).headerSize = m.headerSize) ∧
      s.stepWatcher i ok now = (s.change o f).move i pc) := by
  cases hpc : s.watcher i with
  | idle =>
    refine .inl ⟨.idle, ?_, .refl _ _⟩
    simp only [stepWatcher, hpc]
    rw [← hpc, move_self]
  | attached o =>
    refine .inl ⟨.attached o, ?_, .refl _ _⟩
    simp only [stepWatcher, hpc]
    rw [← hpc, move_self]
  | shmOpen uid identity =>
    refine .inl ?_
    cases hn : s.names (sharedMemoryName uid identity.pid) with
    | none => exact ⟨.idle, by simp only [stepWatcher, hpc, hn], follows_idle _ _⟩
    | some o =>
      refine ⟨_, by simp only [stepWatcher, hpc, hn]; rfl, .ite ?_⟩
      exact ⟨fun _ h => .inr ⟨_, hn.trans h⟩, fun _ h => (by cases h), fun _ h => (by cases h)⟩
  | fstat uid identity o =>
    refine .inl ⟨_, by simp only [stepWatcher, hpc]; rfl, .ite ?_⟩
    exact ⟨fun _ => .inl, fun _ h => (by cases h), fun _ h => (by cases h)⟩
  | mmap uid identity o =>
    refine .inl ⟨_, by simp only [stepWatcher, hpc]; rfl, .ite ?_⟩
    exact ⟨fun _ => .inl, fun _ h => (by cases h), fun _ h => (by cases h)⟩
  | check uid identity o field =>
    rcases stepWatcher_check hpc ok now with hmove | ⟨rfl, hend⟩
    · exact .inl hmove
    · exact .inr (.inl ⟨o, rfl, rfl, rfl, hend⟩)
  | readClock o =>
    refine .inl ⟨_, by simp only [stepWatcher, hpc]; rfl, ?_⟩
    exact ⟨fun _ => .inl, fun _ => .inl, fun _ => id⟩
  | snapshotting o p =>
    refine .inl ?_
    cases p with
    | done a =>
      refine ⟨_, by simp only [stepWatcher, hpc]; rfl, ?_⟩
      exact ⟨fun _ => .inl, fun _ => .inl, fun _ => id⟩
    | load place next =>
      refine ⟨_, by simp only [stepWatcher, hpc]; rfl, ?_⟩
      exact ⟨fun _ => .inl, fun _ => .inl, fun _ => id⟩
  | storeLease o deadline =>
    refine .inr (.inr ⟨o, _, _, rfl, rfl, ?_, ?_, by simp only [stepWatcher, hpc]; rfl⟩)
    · exact ⟨fun _ => .inl, fun _ => .inl, fun _ => id⟩
    · exact fun _ => rfl
  | storePresent o =>
    refine .inr (.inr ⟨o, _, _, rfl, rfl, ?_, ?_, by simp only [stepWatcher, hpc]; rfl⟩)
    · exact ⟨fun _ => .inl, fun _ => .inl, fun _ => id⟩
    · exact fun _ => rfl
  | clearPresent o =>
    refine .inr (.inr ⟨o, _, _, rfl, rfl, ?_, ?_, by simp only [stepWatcher, hpc]; rfl⟩)
    · exact ⟨fun _ => .inl, fun _ => .inl, fun _ => id⟩
    · exact fun _ => rfl
  | clearLease o =>
    refine .inr (.inr ⟨o, _, _, rfl, rfl, follows_idle _ _, ?_,
      by simp only [stepWatcher, hpc]; rfl⟩)
    exact fun _ => rfl

theorem watcher_move {P : ι → AttachPc → Prop} (h : ∀ k, P k (s.watcher k)) (hi : P i pc) (k : ι) :
    P k ((s.move i pc).watcher k) := by
  by_cases hk : k = i
  · subst hk
    rwa [show (s.move k pc).watcher k = pc from Function.update_self ..]
  · rw [show (s.move i pc).watcher k = s.watcher k from Function.update_of_ne hk _ _]
    exact h k

namespace Ordered

omit [DecidableEq ι] in
theorem prefix_of_compared (h : Ordered first s) (hf : Follows s (s.watcher i) pc)
    (ho : pc.compared = some o) (hb : first ≤ o) : construction <+: s.log.written o := by
  rcases hf.compared o ho with hc | ⟨hopen, heq⟩
  · exact h.compared i o hc hb
  · exact h.header o hb (h.opened i o hopen) (by rw [heq]; decide)

theorem move (h : Ordered first s) (hf : Follows s (s.watcher i) pc) :
    Ordered first (s.move i pc) where
  base := h.base
  names := h.names
  opened k o := by
    refine watcher_move (P := fun _ pc => pc.object = some o → o < s.next)
      (fun k => h.opened k o) (fun ho => ?_) k
    rcases hf.object o ho with ho | ⟨name, hn⟩
    · exact h.opened i o ho
    · exact h.names name o hn
  unmade := h.unmade
  progress := h.progress
  header := h.header
  compared k o :=
    watcher_move (P := fun _ pc => pc.compared = some o → first ≤ o →
      construction <+: s.log.written o) (fun k => h.compared k o) (h.prefix_of_compared hf) k
  attached := h.attached
  session k o :=
    watcher_move (P := fun k pc => pc.session = some o → (k, o) ∈ s.log.attached)
      (fun k => h.session k o) (fun ho => h.session i o (hf.session o ho)) k

theorem attach (h : Ordered first s) (hc : (s.watcher i).compared = some o)
    (ho : (s.watcher i).object = some o) :
    Ordered first { s.move i (.readClock o) with
      log := { s.log with attached := s.log.attached ++ [(i, o)] } } where
  base := h.base
  names := h.names
  opened k p := by
    refine watcher_move (P := fun _ pc => pc.object = some p → p < s.next)
      (fun k => h.opened k p) (fun hp => ?_) k
    exact h.opened i p (ho.trans hp)
  unmade := h.unmade
  progress := h.progress
  header := h.header
  compared k p := by
    refine watcher_move (P := fun _ pc => pc.compared = some p → first ≤ p →
      construction <+: s.log.written p) (fun k => h.compared k p) (fun hp => ?_) k
    exact h.compared i p (hc.trans hp)
  attached k p hm hb := by
    rcases List.mem_append.mp hm with hm | hm
    · exact h.attached k p hm hb
    · cases List.mem_singleton.mp hm
      exact h.compared i o hc hb
  session k p := by
    refine watcher_move (P := fun k pc => pc.session = some p →
      (k, p) ∈ s.log.attached ++ [(i, o)]) (fun k hp => ?_) (fun hp => ?_) k
    · exact List.mem_append_left _ (h.session k p hp)
    · cases hp
      exact List.mem_append_right _ (List.mem_singleton_self _)

omit [DecidableEq ι] in
theorem change (h : Ordered first s) {f : SharedState → SharedState}
    (hf : ∀ m, (f m).headerSize = m.headerSize) (o : Nat) : Ordered first (s.change o f) where
  base := h.base
  names := h.names
  opened := h.opened
  unmade := h.unmade
  progress := h.progress
  header p hb hp hm := by
    refine h.header p hb hp ?_
    by_cases hpo : p = o
    · subst hpo
      simpa [AttachRun.change, hf] using hm
    · simpa [AttachRun.change, hpo] using hm
  compared := h.compared
  attached := h.attached
  session := h.session

theorem stepWatcher (h : Ordered first s) (i : ι) (ok : Bool) (now : UInt64) :
    Ordered first (s.stepWatcher i ok now) := by
  rcases stepWatcher_cases s i ok now with ⟨pc, hs, hf⟩ | ⟨o, hc, ho, -, hs⟩ |
    ⟨o, f, pc, -, -, hf, hm, hs⟩
  · rw [hs]
    exact h.move hf
  · rw [hs]
    exact h.attach hc ho
  · rw [hs]
    exact (h.move hf).change hm o

omit [DecidableEq ι] in
theorem goOn (h : Ordered first s) {names : Text → Option Nat} {next : CreatePc}
    (hn : ∀ name o, names name = some o → o < s.next) (hp : s.Progress first next) :
    Ordered first { s with names := names, client := next } :=
  ⟨h.base, hn, h.opened, h.unmade, hp, h.header, h.compared, h.attached, h.session⟩

omit [DecidableEq ι] in
theorem unlinked (h : Ordered first s) (name : Text) (o : Nat)
    (ho : (s.link none).names name = some o) : o < s.next := by
  rw [names_link, Function.update_apply] at ho
  split at ho
  · cases ho
  · exact h.names name o ho

omit [DecidableEq ι] in
theorem resize (h : Ordered first s) (size : Nat) {next : CreatePc} (hp : s.Progress first next) :
    Ordered first { s with
      object := Function.update s.object o { s.object o with size := size }
      client := next } where
  base := h.base
  names := h.names
  opened := h.opened
  unmade := h.unmade
  progress := hp
  header p hb ho hm := by
    refine h.header p hb ho ?_
    by_cases hpo : p = o
    · subst hpo
      simpa using hm
    · simpa [hpo] using hm
  compared := h.compared
  attached := h.attached
  session := h.session

omit [DecidableEq ι] in
theorem create (h : Ordered first s) :
    Ordered first { s.link (some s.next) with
      object := Function.update s.object s.next { owner := s.uid, mem := .zeros }
      next := s.next + 1
      client := .ftruncate s.next } where
  base := h.base.trans (Nat.le_succ _)
  names name o ho := by
    have hname : (s.link (some s.next)).names name = some o := ho
    rw [names_link, Function.update_apply] at hname
    split at hname
    · exact Option.some.inj hname ▸ Nat.lt_succ_self _
    · exact (h.names name o hname).trans (Nat.lt_succ_self _)
  opened i o ho := (h.opened i o ho).trans (Nat.lt_succ_self _)
  unmade o ho := h.unmade o ((Nat.le_succ _).trans ho)
  progress := ⟨h.base, Nat.lt_succ_self _, h.unmade _ le_rfl⟩
  header o hb ho hm := by
    by_cases hn : o = s.next
    · subst hn
      simp [SharedState.zeros] at hm
    · have ho' : o < s.next := Nat.lt_of_le_of_ne (Nat.lt_succ_iff.mp ho) hn
      exact h.header o hb ho' (by simpa [hn] using hm)
  compared := h.compared
  attached := h.attached
  session := h.session

omit [DecidableEq ι] in
theorem grows (s : AttachRun ι) (o : Nat) (w : InitWrite) (p : Nat) :
    s.log.written p <+: (s.store o w).log.written p := by
  by_cases hp : p = o
  · subst hp
    simp [AttachRun.store]
  · simp [AttachRun.store, hp]

omit [DecidableEq ι] in
theorem store (h : Ordered first s) (ho : o < s.next)
    (hw : w ∉ construction → construction <+: s.log.written o) {next : CreatePc}
    (hp : (s.store o w).Progress first next) :
    Ordered first { s.store o w with client := next } where
  base := h.base
  names := h.names
  opened := h.opened
  unmade p hn := by
    have hpo : p ≠ o := by
      rintro rfl
      exact absurd ho (Nat.not_lt.mpr hn)
    simpa [AttachRun.store, hpo] using h.unmade p hn
  progress := hp
  header p hb hn hm := by
    by_cases hpo : p = o
    · subst hpo
      have hm' : (InitWrite.apply (s.object p).mem w).headerSize ≠ 0 := by
        simpa [AttachRun.store, AttachRun.change] using hm
      refine List.IsPrefix.trans ?_ (grows s p w p)
      rcases apply_headerSize hm' with hold | ⟨value, hv, rfl⟩
      · exact h.header p hb hn hold
      · exact hw fun hmem => hv (headerSize_of_mem_construction hmem)
    · refine (h.header p hb hn ?_).trans (grows s o w p)
      simpa [AttachRun.store, AttachRun.change, hpo] using hm
  compared i p hc hb := (h.compared i p hc hb).trans (grows s o w p)
  attached i p hm hb := (h.attached i p hm hb).trans (grows s o w p)
  session := h.session

omit [DecidableEq ι] in
theorem setUp (h : Ordered first s) {rest : List InitWrite}
    (hc : s.client = .setUp o (w :: rest)) :
    Ordered first { s.store o w with client := .setUp o rest } := by
  have hp := h.progress
  rw [hc] at hp
  obtain ⟨hb, ho, hw⟩ := hp
  refine h.store ho (prefix_of_not_mem hw) ⟨hb, ho, ?_⟩
  have hwritten : (s.store o w).log.written o = s.log.written o ++ [w] := by simp [AttachRun.store]
  rw [hwritten, List.append_assoc]
  exact hw

omit [DecidableEq ι] in
theorem publish (h : Ordered first s) {rest : List InitWrite}
    (hc : s.client = .publish o (w :: rest)) :
    Ordered first { s.store o w with client := .publish o rest } := by
  have hp := h.progress
  rw [hc] at hp
  obtain ⟨hb, ho, hw, hr⟩ := hp
  refine h.store ho (fun _ => hw) ⟨hb, ho, hw.trans (grows s o w o), ?_⟩
  exact fun v hv => hr v (List.mem_cons_of_mem _ hv)

omit [DecidableEq ι] in
theorem stepClient (h : Ordered first s) (ok : Bool) (identity : Option (Option UInt64)) :
    Ordered first (s.stepClient ok identity) := by
  have hp := h.progress
  cases hc : s.client with
  | idle =>
    simp only [AttachRun.stepClient, hc]
    exact h
  | unlink =>
    simp only [AttachRun.stepClient, hc]
    exact h.goOn h.unlinked trivial
  | shmOpen =>
    simp only [AttachRun.stepClient, hc]
    split
    · exact h.create
    · exact h.goOn h.names trivial
  | ftruncate o =>
    rw [hc] at hp
    simp only [AttachRun.stepClient, hc]
    split
    · exact h.resize _ hp
    · exact h.goOn h.names trivial
  | fchmod o =>
    rw [hc] at hp
    simp only [AttachRun.stepClient, hc]
    split
    · exact h.goOn h.names hp
    · exact h.goOn h.names trivial
  | mmap o =>
    rw [hc] at hp
    simp only [AttachRun.stepClient, hc]
    split
    · refine h.goOn h.names ⟨hp.1, hp.2.1, ?_⟩
      rw [hp.2.2, List.nil_append]
    · exact h.goOn h.names trivial
  | setUp o rest =>
    cases rest with
    | nil =>
      rw [hc] at hp
      simp only [AttachRun.stepClient, hc]
      refine h.goOn h.names ⟨hp.1, hp.2.1, InitWrite.header s.pid s.uid, ?_⟩
      exact hp.2.2.symm.trans (List.append_nil _)
    | cons w rest =>
      simp only [AttachRun.stepClient, hc]
      exact h.setUp hc
  | readIdentity o =>
    rw [hc] at hp
    simp only [AttachRun.stepClient, hc]
    cases identity with
    | none => exact h.goOn h.names trivial
    | some startTicks =>
      exact h.goOn h.names ⟨hp.1, hp.2.1, hp.2.2, fun w => isBody_of_mem_publication⟩
  | publish o rest =>
    cases rest with
    | nil =>
      simp only [AttachRun.stepClient, hc]
      exact h.goOn h.names trivial
    | cons w rest =>
      simp only [AttachRun.stepClient, hc]
      exact h.publish hc
  | unlinkFailed =>
    simp only [AttachRun.stepClient, hc]
    exact h.goOn h.unlinked trivial

theorem step (h : Ordered first s) (e : AttachEvent ι) : Ordered first (s.step e) := by
  cases e with
  | client ok identity => exact h.stepClient ok identity
  | watcher i ok now => exact h.stepWatcher i ok now
  | create processName =>
    simp only [AttachRun.step]
    split
    · exact ⟨h.base, h.names, h.opened, h.unmade, trivial, h.header, h.compared, h.attached,
        h.session⟩
    · exact h
  | attach i uid identity =>
    simp only [AttachRun.step]
    split
    · refine h.move ⟨fun _ ho => (by cases ho), fun _ ho => (by cases ho),
        fun _ ho => (by cases ho)⟩
    · exact h
  | renewLease i now duration | snapshot i | release i =>
    simp only [AttachRun.step]
    split
    · next hw =>
      refine h.move ?_
      rw [hw]
      exact ⟨fun _ => .inl, fun _ => .inl, fun _ => id⟩
    · exact h

end Ordered

/-- Whoever has attached to an object of the client did so after its construction. -/
def Constructed (first : Nat) (s : AttachRun ι) : Prop :=
  ∀ i o, (i, o) ∈ s.log.attached → first ≤ o →
    construction <+: s.log.written o ∧ ∀ w ∈ s.pending o, w.isBody = false

/-- A step of the client leaves alone what a watcher that has attached shares with it. A
watcher stores only in an object that it has attached to. -/
def Harmless (s : AttachRun ι) (e : AttachEvent ι) : Prop :=
  match e with
  | .client .. =>
    ∀ i o, (i, o) ∈ s.log.attached → (s.object o).mem.SameBody ((s.step e).object o).mem
  | .watcher i _ _ =>
    match (s.watcher i).session with
    | none => (s.step e).object = s.object
    | some o => (i, o) ∈ s.log.attached ∧ ∀ p, p ≠ o → (s.step e).object p = s.object p
  | _ => (s.step e).object = s.object

theorem construction_ne_nil : construction ≠ [] := by simp [construction]

omit [DecidableEq ι] in
theorem Ordered.written_ne_nil (h : Ordered first s) (ha : (i, o) ∈ s.log.attached)
    (hb : first ≤ o) : s.log.written o ≠ [] := by
  intro hn
  have hp := h.attached i o ha hb
  rw [hn, List.prefix_nil] at hp
  exact construction_ne_nil hp

omit [DecidableEq ι] in
theorem Ordered.isBody_of_pending (h : Ordered first s) (ha : (i, o) ∈ s.log.attached)
    (hb : first ≤ o) (hw : w ∈ s.pending o) : w.isBody = false := by
  have hp := h.progress
  have hne := h.written_ne_nil ha hb
  cases hc : s.client with
  | ftruncate p | fchmod p | mmap p =>
    rw [hc] at hp
    simp only [pending, hc] at hw
    split at hw
    · next heq =>
      subst heq
      exact absurd hp.2.2 hne
    · cases hw
  | setUp p rest =>
    rw [hc] at hp
    simp only [pending, hc] at hw
    split at hw
    · next heq =>
      subst heq
      -- all of the construction has been stored, so that only the header is left
      obtain ⟨more, hm⟩ := h.attached i p ha hb
      have hrest := hp.2.2
      rw [← hm, List.append_assoc] at hrest
      exact isBody_of_mem_header (List.append_cancel_left hrest ▸ List.mem_append_right _ hw)
    · cases hw
  | publish p rest =>
    rw [hc] at hp
    simp only [pending, hc] at hw
    split at hw
    · exact hp.2.2.2 w hw
    · cases hw
  | idle | unlink | shmOpen | readIdentity | unlinkFailed =>
    simp only [pending, hc] at hw
    cases hw

omit [DecidableEq ι] in
theorem Ordered.attached_ne_next (h : Ordered first s) (ha : (i, o) ∈ s.log.attached) :
    o ≠ s.next := by
  rintro rfl
  exact h.written_ne_nil ha h.base (h.unmade _ le_rfl)

omit [DecidableEq ι] in
theorem sameBody_store (s : AttachRun ι) {p : Nat} (hw : p = o → w.isBody = false) :
    (s.object o).mem.SameBody ((s.store p w).object o).mem := by
  by_cases hpo : o = p
  · subst hpo
    have hm : ((s.store o w).object o).mem = InitWrite.apply (s.object o).mem w := by
      simp [store, change]
    rw [hm]
    exact apply_of_not_body (hw rfl)
  · have hm : (s.store p w).object o = s.object o := Function.update_of_ne hpo _ _
    rw [hm]
    exact .refl _

theorem Ordered.harmless_client (h : Ordered first s) (ok : Bool)
    (identity : Option (Option UInt64)) : Harmless s (.client ok identity) := by
  intro i o ha
  have hp := h.progress
  have hsame (t : AttachRun ι) (ho : (t.object o).mem = (s.object o).mem) :
      (s.object o).mem.SameBody (t.object o).mem := ho ▸ .refl _
  cases hc : s.client with
  | shmOpen =>
    simp only [AttachRun.step, AttachRun.stepClient, hc]
    split
    · refine hsame _ ?_
      simp [h.attached_ne_next ha]
    · exact .refl _
  | ftruncate p =>
    simp only [AttachRun.step, AttachRun.stepClient, hc]
    split
    · refine hsame _ ?_
      by_cases hpo : o = p
      · subst hpo
        simp
      · simp [hpo]
    · exact .refl _
  | setUp p rest =>
    cases rest with
    | nil =>
      simp only [AttachRun.step, AttachRun.stepClient, hc]
      exact .refl _
    | cons w rest =>
      rw [hc] at hp
      simp only [AttachRun.step, AttachRun.stepClient, hc]
      refine sameBody_store s fun hpo => ?_
      subst hpo
      exact h.isBody_of_pending ha hp.1 (by simp [pending, hc])
  | publish p rest =>
    cases rest with
    | nil =>
      simp only [AttachRun.step, AttachRun.stepClient, hc]
      exact .refl _
    | cons w rest =>
      rw [hc] at hp
      simp only [AttachRun.step, AttachRun.stepClient, hc]
      exact sameBody_store s fun _ => hp.2.2.2 w List.mem_cons_self
  | readIdentity p =>
    simp only [AttachRun.step, AttachRun.stepClient, hc]
    split <;> exact .refl _
  | idle | unlink | fchmod p | mmap p | unlinkFailed =>
    simp only [AttachRun.step, AttachRun.stepClient, hc]
    exact .refl _

theorem Ordered.harmless (h : Ordered first s) (e : AttachEvent ι) : Harmless s e := by
  cases e with
  | client ok identity => exact h.harmless_client ok identity
  | watcher i ok now =>
    simp only [Harmless, AttachRun.step]
    rcases stepWatcher_cases s i ok now with ⟨pc, hs, -⟩ | ⟨o, -, -, hn, hs⟩ |
      ⟨o, f, pc, hso, -, -, -, hs⟩
    · rw [hs]
      split
      · rfl
      · next o ho => exact ⟨h.session i o ho, fun _ _ => rfl⟩
    · rw [hs, hn]
      rfl
    · rw [hs, hso]
      exact ⟨h.session i o hso, fun p hp => Function.update_of_ne hp _ _⟩
  | create processName | attach i uid identity | renewLease i now duration | snapshot i
  | release i =>
    simp only [Harmless, AttachRun.step]
    split <;> rfl

/-- An object that is absent before, or one that somebody else has left. -/
def before (ι : Type*) (pid uid : UInt32) (next : Nat) (names : Text → Option (Fin next))
    (object : Nat → ShmObject) : AttachRun ι where
  pid := pid
  uid := uid
  names name := (names name).map Fin.val
  object := object
  next := next

omit [DecidableEq ι] in
theorem ordered_before (pid uid : UInt32) (next : Nat) (names : Text → Option (Fin next))
    (object : Nat → ShmObject) : Ordered next (before ι pid uid next names object) where
  base := le_rfl
  names name o ho := by
    obtain ⟨p, -, rfl⟩ := Option.map_eq_some_iff.mp ho
    exact p.isLt
  opened _ _ ho := by cases ho
  unmade _ _ := rfl
  progress := trivial
  header o hb ho := absurd ho (Nat.not_lt.mpr hb)
  compared _ _ ho := by cases ho
  attached _ _ ho := by cases ho
  session _ _ ho := by cases ho

/-- Whatever is linked before, and however the steps of the client and the watchers follow
each other: who attaches to the client's object does so after its construction, the
client's later stores spare what they share, and a watcher that fails stores nothing. -/
theorem attach_during_startup (pid uid : UInt32) (next : Nat) (names : Text → Option (Fin next))
    (object : Nat → ShmObject) (es : List (AttachEvent ι)) :
    Always step (Constructed next) (before ι pid uid next names object) es ∧
      Permits step Harmless (before ι pid uid next names object) es := by
  have hstep (s : AttachRun ι) (e : AttachEvent ι) (hs : Ordered next s) :
      Ordered next (s.step e) := hs.step e
  have hrun := always_of_step hstep (ordered_before pid uid next names object) es
  refine ⟨hrun.imp fun s hs i o ha hb => ⟨hs.attached i o ha hb, fun w hw => ?_⟩, ?_⟩
  · exact hs.isBody_of_pending ha hb hw
  · exact (permits_of_always hrun).imp fun s e hs => hs.1.harmless e

/-- A watcher comes while the name is still to be stored, another object is left over. -/
def early : List (AttachEvent (Fin 1)) :=
  .create (text "worker") :: List.replicate 156 (.client true (some (some 100))) ++
    .attach 0 1000 ⟨7, 100⟩ :: List.replicate 13 (.watcher 0 true 5)

example :
    let s := run step (before (Fin 1) 7 1000 1 (fun _ => some 0) fun _ => ⟨0, 0, {}⟩) early
    s.log.attached = [(0, 1)] ∧ (s.object 1).mem.watcherLeaseUntilNs = 3000000005 ∧
      s.pending 1 ≠ [] := by decide +kernel

end AttachRun

end Peepbooth
