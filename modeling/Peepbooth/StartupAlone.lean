import Peepbooth.EarlyAttach

/-! A client that creates its shared memory, and a watcher that attaches to it, when nobody comes
between their steps. -/

namespace Peepbooth

open Schedule InitWrite

namespace AttachRun

variable {ι : Type*} [DecidableEq ι] {s t u : AttachRun ι} {o : Nat} {i : ι}

/-- The stores `writes` have been made in the object `o`, and nothing else. -/
structure Stored (o : Nat) (writes : List InitWrite) (s t : AttachRun ι) : Prop where
  pid : t.pid = s.pid
  uid : t.uid = s.uid
  names : t.names = s.names
  processName : t.processName = s.processName
  watcher : t.watcher = s.watcher
  object : t.object o = { s.object o with mem := writes.foldl InitWrite.apply (s.object o).mem }

omit [DecidableEq ι] in
theorem Stored.trans {writes writes' : List InitWrite} (h : Stored o writes s t)
    (h' : Stored o writes' t u) : Stored o (writes ++ writes') s u where
  pid := h'.pid.trans h.pid
  uid := h'.uid.trans h.uid
  names := h'.names.trans h.names
  processName := h'.processName.trans h.processName
  watcher := h'.watcher.trans h.watcher
  object := by rw [h'.object, h.object, List.foldl_append]

/-- The client goes on by itself, and its system calls succeed. -/
def unhindered (ticks : Option UInt64) (n : Nat) : List (AttachEvent ι) :=
  List.replicate n (.client true (some ticks))

theorem run_stores (ticks : Option UInt64) (pc : List InitWrite → CreatePc)
    (hpc : ∀ (s : AttachRun ι) w rest, s.client = pc (w :: rest) →
      s.stepClient true (some ticks) = { s.store o w with client := pc rest })
    {rest : List InitWrite} (hs : s.client = pc rest) :
    (run step s (unhindered ticks rest.length)).client = pc [] ∧
      Stored o rest s (run step s (unhindered ticks rest.length)) := by
  induction rest generalizing s with
  | nil => exact ⟨hs, rfl, rfl, rfl, rfl, rfl, rfl⟩
  | cons w rest ih =>
    have hw : Stored o [w] s { s.store o w with client := pc rest } :=
      ⟨rfl, rfl, rfl, rfl, rfl, by simp [store, change]⟩
    have hstep : s.step (.client true (some ticks)) = { s.store o w with client := pc rest } :=
      hpc s w rest hs
    obtain ⟨hc, hrest⟩ := ih (s := s.step (.client true (some ticks))) (by rw [hstep])
    refine ⟨hc, ?_⟩
    rw [hstep] at hrest
    have hall := hw.trans hrest
    rwa [← hstep] at hall

/-- The new object is mapped, and nothing has been stored in it. -/
def mapped (s : AttachRun ι) (name : Text) : AttachRun ι :=
  { s.link (some s.next) with
    object := Function.update s.object s.next
      { size := totalSize.toNat, owner := s.uid, mem := .zeros }
    next := s.next + 1
    processName := name
    client := .setUp s.next (construction ++ header s.pid s.uid) }

theorem run_mapped (hc : s.client = .idle) (name : Text) (ticks : Option UInt64) :
    run step s (.create name :: unhindered ticks 5) = s.mapped name := by
  simp [unhindered, List.replicate, step, stepClient, hc, link, ownName, mapped]

/-- `create_process_mapping` from its beginning to its end. -/
def creation (s : AttachRun ι) (name : Text) (ticks : Option UInt64) : List (AttachEvent ι) :=
  .create name :: unhindered ticks 5 ++
    unhindered ticks (construction ++ header s.pid s.uid).length ++ unhindered ticks 2 ++
    unhindered ticks (publication ticks name).length ++ unhindered ticks 1

theorem run_stored (hc : s.client = .idle) (name : Text) (ticks : Option UInt64) :
    (run step s (s.creation name ticks)).client = .idle ∧
      Stored s.next (construction ++ header s.pid s.uid ++ publication ticks name) (s.mapped name)
        (run step s (s.creation name ticks)) := by
  obtain ⟨hset, hfirst⟩ := run_stores (o := s.next) ticks (.setUp s.next)
    (fun s w rest h => by simp only [stepClient, h]) (s := s.mapped name) rfl
  rw [creation, run_append, run_append, run_append, run_append, run_mapped hc]
  generalize run step (s.mapped name)
    (unhindered ticks (construction ++ header s.pid s.uid).length) = u at hset hfirst ⊢
  have hread : run step u (unhindered ticks 2) =
      { u with client := .publish s.next (publication ticks name) } := by
    have hname : u.processName = name := hfirst.processName
    simp [unhindered, List.replicate, step, stepClient, hset, hname]
  obtain ⟨hpub, hlast⟩ := run_stores (o := s.next) ticks (.publish s.next)
    (fun s w rest h => by simp only [stepClient, h])
    (s := { u with client := .publish s.next (publication ticks name) }) rfl
  rw [hread]
  generalize run step { u with client := .publish s.next (publication ticks name) }
    (unhindered ticks (publication ticks name).length) = v at hpub hlast ⊢
  have hend : run step v (unhindered ticks 1) = { v with client := .idle } := by
    simp [unhindered, List.replicate, step, stepClient, hpub]
  rw [hend]
  exact ⟨rfl, hfirst.trans ⟨hlast.pid, hlast.uid, hlast.names, hlast.processName, hlast.watcher,
    hlast.object⟩⟩

/-- Nobody having come between, the new object is a fresh mapping of the process. -/
theorem run_creation (hc : s.client = .idle) (name : Text) (ticks : Option UInt64) :
    let t := run step s (s.creation name ticks)
    t.client = .idle ∧ t.watcher = s.watcher ∧
      t.names (sharedMemoryName s.uid s.pid) = some s.next ∧
      t.object s.next =
        ⟨totalSize.toNat, s.uid, .createProcessMapping s.pid s.uid ticks name⟩ := by
  obtain ⟨hidle, h⟩ := run_stored hc name ticks
  have hempty : (s.mapped name).object s.next = ⟨totalSize.toNat, s.uid, .zeros⟩ :=
    Function.update_self ..
  refine ⟨hidle, h.watcher, ?_, ?_⟩
  · have hnames : (s.mapped name).names = Function.update s.names s.ownName (some s.next) := rfl
    rw [h.names, hnames, ownName, Function.update_self]
  · rw [h.object, foldl_create, hempty]

def watching (i : ι) (now : UInt64) (n : Nat) : List (AttachEvent ι) :=
  List.replicate n (.watcher i true now)

theorem run_idle (hi : s.watcher i = .idle) (now : UInt64) (n : Nat) :
    run step s (watching i now n) = s := by
  induction n with
  | zero => rfl
  | succ n ih =>
    have hstep : s.step (.watcher i true now) = s := by simp only [step, stepWatcher, hi]
    rw [watching, List.replicate_succ, run_cons, hstep]
    exact ih

/-- `valid_state` compares `fields` after `field`, and then it ends. -/
def Remaining : HeaderField → List HeaderField → Prop
  | field, [] => field.next = none
  | field, other :: fields => field.next = some other ∧ Remaining other fields

/-- What is left of an attachment comes to its end on the object. -/
def Attaches (s : AttachRun ι) (i : ι) (now : UInt64) (n o : Nat) : Prop :=
  (run step s (watching i now n)).watcher i = .attached o

theorem attaches_succ (s : AttachRun ι) (i : ι) (now : UInt64) (n o : Nat) :
    s.Attaches i now (n + 1) o ↔ (s.stepWatcher i true now).Attaches i now n o := by
  rw [Attaches, Attaches, watching, List.replicate_succ, run_cons]
  rfl

theorem not_attaches (hi : s.watcher i = .idle) (now : UInt64) (n : Nat) :
    ¬s.Attaches i now n o := by
  rw [Attaches, run_idle hi, hi]
  rintro ⟨⟩

theorem watcher_moved (s : AttachRun ι) (i : ι) (pc : AttachPc) : (s.move i pc).watcher i = pc :=
  Function.update_self ..

theorem attaches_session {now : UInt64} (hi : s.watcher i = .readClock o) :
    s.Attaches i now 3 o := by
  simp [Attaches, watching, List.replicate, step, stepWatcher, hi, move, change]

theorem attaches_check {uid : UInt32} {identity : ProcessIdentity} {field : HeaderField}
    {fields : List HeaderField} {now : UInt64} (hf : Remaining field fields)
    (hi : s.watcher i = .check uid identity o field) :
    s.Attaches i now (fields.length + 4) o ↔
      (field :: fields).all (·.holds (s.object o).mem identity uid) = true := by
  induction fields generalizing s field with
  | nil =>
    have hnext : field.next = none := hf
    rw [List.length_nil, Nat.zero_add, attaches_succ]
    by_cases hh : field.holds (s.object o).mem identity uid
    · simp only [stepWatcher, hi, hnext, List.all_cons, hh, List.all_nil, Bool.and_self, iff_true]
      exact attaches_session (Function.update_self ..)
    · simp only [stepWatcher, hi, List.all_cons, hh, Bool.false_and]
      exact iff_of_false (not_attaches (watcher_moved ..) now 3) Bool.false_ne_true
  | cons other fields ih =>
    obtain ⟨hnext, hrest⟩ := hf
    rw [List.length_cons, Nat.add_right_comm, attaches_succ]
    by_cases hh : field.holds (s.object o).mem identity uid
    · have hgo := ih hrest (watcher_moved s i (.check uid identity o other))
      simp only [stepWatcher, hi, if_pos hh, hnext]
      rw [hgo, List.all_cons (a := field), hh, Bool.true_and]
      rfl
    · simp only [stepWatcher, hi, List.all_cons, hh, Bool.false_and]
      exact iff_of_false (not_attaches (watcher_moved ..) now _) Bool.false_ne_true

theorem attaches_fstat {uid : UInt32} {identity : ProcessIdentity} {now : UInt64}
    (hi : s.watcher i = .fstat uid identity o) :
    s.Attaches i now 12 o ↔
      ((s.object o).size = totalSize.toNat ∧ (s.object o).owner = uid) ∧
        (s.object o).mem.validState identity uid = true := by
  rw [attaches_succ]
  by_cases hstat : (s.object o).size = totalSize.toNat ∧ (s.object o).owner = uid
  · have hmap : s.stepWatcher i true now = s.move i (.mmap uid identity o) := by
      simp only [stepWatcher, hi, hstat, and_self, if_true]
    have hcheck : (s.move i (.mmap uid identity o)).stepWatcher i true now =
        (s.move i (.mmap uid identity o)).move i (.check uid identity o .magic) := by
      simp only [stepWatcher, watcher_moved, if_true]
    rw [hmap, attaches_succ, hcheck, and_iff_right hstat, HeaderField.validState_eq]
    have hfields : Remaining .magic HeaderField.inOrder.tail := ⟨rfl, rfl, rfl, rfl, rfl, rfl, rfl⟩
    exact attaches_check hfields (watcher_moved ..)
  · have hend : s.stepWatcher i true now = s.move i .idle := by
      simp only [stepWatcher, hi, hstat, and_false, if_false]
    rw [hend]
    exact iff_of_false (not_attaches (watcher_moved ..) now _) fun h => hstat h.1

def attachment (i : ι) (uid : UInt32) (identity : ProcessIdentity) (now : UInt64) :
    List (AttachEvent ι) :=
  .attach i uid identity :: watching i now 13

/-- Nobody coming between, a watcher gets a session exactly on an object of the right size
and owner whose header is valid. -/
theorem attached_iff {uid : UInt32} (identity : ProcessIdentity) (hi : s.watcher i = .idle)
    (hn : s.names (sharedMemoryName uid identity.pid) = some o) (now : UInt64) :
    (run step s (attachment i uid identity now)).watcher i = .attached o ↔
      ((s.object o).size = totalSize.toNat ∧ (s.object o).owner = uid) ∧
        (s.object o).mem.validState identity uid = true := by
  have hstart : s.step (.attach i uid identity) = s.move i (.shmOpen uid identity) := by
    simp only [step, hi]
  have hopen : (s.move i (.shmOpen uid identity)).stepWatcher i true now =
      (s.move i (.shmOpen uid identity)).move i (.fstat uid identity o) := by
    have hn' : (s.move i (.shmOpen uid identity)).names (sharedMemoryName uid identity.pid) =
      some o := hn
    simp only [stepWatcher, watcher_moved, hn', if_true]
  rw [attachment, run_cons, hstart]
  change (s.move i (.shmOpen uid identity)).Attaches i now 13 o ↔ _
  rw [attaches_succ, hopen]
  exact attaches_fstat (watcher_moved ..)

/-- Whatever was left under the name: a watcher of the same user that comes after the client
has started, nobody coming between, attaches to the new object exactly with the start time
that the client has stored. -/
theorem attach_alone_iff (hc : s.client = .idle) (hi : s.watcher i = .idle) (name : Text)
    (ticks : Option UInt64) (startTicks now : UInt64) :
    (run step s (s.creation name ticks ++ attachment i s.uid ⟨s.pid, startTicks⟩ now)).watcher i =
        .attached s.next ↔
      startTicks = ticks.getD 0 := by
  obtain ⟨-, hw, hn, ho⟩ := run_creation hc name ticks
  rw [run_append]
  generalize run step s (s.creation name ticks) = u at hw hn ho ⊢
  have hu : u.watcher i = .idle := by rw [hw, hi]
  rw [attached_iff ⟨s.pid, startTicks⟩ hu hn, ho, and_iff_right ⟨rfl, rfl⟩]
  simp only [SharedState.validState, SharedState.createProcessMapping, decide_true, Bool.true_and]
  exact decide_eq_true_iff.trans eq_comm

/-- Somebody else's object is left under the name of process 7. -/
def leftOver : AttachRun (Fin 1) :=
  before (Fin 1) 7 1000 1 (fun _ => some ⟨0, Nat.one_pos⟩) fun _ => ⟨0, 0, {}⟩

theorem attach_alone_iff_leftOver :
    (run step leftOver (leftOver.creation (text "worker") (some 100) ++
        attachment 0 leftOver.uid ⟨leftOver.pid, 100⟩ 5)).watcher 0 = .attached leftOver.next ↔
      (100 : UInt64) = (some 100).getD 0 :=
  attach_alone_iff rfl rfl (text "worker") (some 100) 100 5

end AttachRun

end Peepbooth
