import Peepbooth.Decimal
import Mathlib.Data.List.Induction

/-! The command lines that are accepted, as lists of option groups. -/

namespace Peepbooth

/-- An option with its value, where it takes one. -/
inductive OptionGroup
  | once
  | pid (v : Digits) (h : v.value < 4294967296)
  | intervalMs (v : Digits) (h : 50 ≤ v.value ∧ v.value ≤ 60000)
  | staleMs (v : Digits) (h : 100 ≤ v.value ∧ v.value < 2147483648)

namespace OptionGroup

def render : OptionGroup → List Text
  | once => [text "--once"]
  | pid v _ => [text "--pid", v.bytes]
  | intervalMs v _ => [text "--interval-ms", v.bytes]
  | staleMs v _ => [text "--stale-ms", v.bytes]

def isOnce : OptionGroup → Bool
  | once => true
  | _ => false

def pid? : OptionGroup → Option Nat
  | pid v _ => some v.value
  | _ => none

def intervalMs? : OptionGroup → Option Nat
  | intervalMs v _ => some v.value
  | _ => none

def staleMs? : OptionGroup → Option Nat
  | staleMs v _ => some v.value
  | _ => none

def apply (o : ConsoleOptions) (g : OptionGroup) : ConsoleOptions :=
  match g with
  | once => { o with once := true }
  | pid v _ => { o with pid := UInt32.ofNat v.value }
  | intervalMs v _ => { o with intervalMs := v.value }
  | staleMs v _ => { o with staleMs := v.value }

end OptionGroup

open OptionGroup

def lastValue (value : OptionGroup → Option Nat) (groups : List OptionGroup) : Option Nat :=
  (groups.filterMap value).getLast?

def rendered (groups : List OptionGroup) : List Text := groups.flatMap render

/-- The options with the last value of each, or its default. -/
def lastOptions (groups : List OptionGroup) : ConsoleOptions where
  pid := UInt32.ofNat ((lastValue pid? groups).getD 0)
  intervalMs := ((lastValue intervalMs? groups).getD 1000 : Nat)
  staleMs := ((lastValue staleMs? groups).getD 3000 : Nat)
  once := groups.any isOnce

/-- Help is asked for where an option can stand, after groups only. -/
def AsksHelp (arguments : List Text) : Prop :=
  ∃ groups rest, ∃ help ∈ [text "--help", text "-h"], arguments = rendered groups ++ help :: rest

/-- The groups of a run: the whole command line, and a process at last. -/
def AsksRun (arguments : List Text) (groups : List OptionGroup) : Prop :=
  arguments = rendered groups ∧ ∃ pid, lastValue pid? groups = some pid ∧ pid ≠ 0

variable {o : ConsoleOptions} {groups : List OptionGroup}

theorem foldl_apply (groups : List OptionGroup) (o : ConsoleOptions) :
    groups.foldl apply o = {
      pid := ((lastValue pid? groups).map UInt32.ofNat).getD o.pid
      intervalMs := ((lastValue intervalMs? groups).map Nat.cast).getD o.intervalMs
      staleMs := ((lastValue staleMs? groups).map Nat.cast).getD o.staleMs
      once := o.once || groups.any isOnce } := by
  induction groups using List.reverseRecOn with
  | nil => simp [lastValue]
  | append_singleton groups g ih =>
    rw [List.foldl_append, ih]
    cases g with
    | once => simp [lastValue, apply, pid?, intervalMs?, staleMs?, isOnce]
    | pid v h => simp [lastValue, apply, pid?, intervalMs?, staleMs?, isOnce]
    | intervalMs v h => simp [lastValue, apply, pid?, intervalMs?, staleMs?, isOnce]
    | staleMs v h => simp [lastValue, apply, pid?, intervalMs?, staleMs?, isOnce]

theorem foldl_apply_default (groups : List OptionGroup) :
    groups.foldl apply {} = lastOptions groups := by
  rw [foldl_apply, lastOptions]
  cases lastValue pid? groups <;> cases lastValue intervalMs? groups <;>
    cases lastValue staleMs? groups <;> simp

theorem parseInteger_digits (d : Digits) {lo hi : Int} (hl : lo ≤ 0) (hh : d.value ≤ hi)
    (output : Int) : parseInteger lo hi d.bytes output = ((d.value : Int), true) := by
  rw [parseInteger, d.fromChars_bytes hl hh]
  simp

theorem digits_of_parseInteger {lo hi v output : Int} {input : Text}
    (h : parseInteger lo hi input output = (v, true)) (hv : 0 ≤ lo ∨ 0 < v) :
    ∃ d : Digits, d.bytes = input ∧ (d.value : Int) = v ∧ v ≤ hi := by
  unfold parseInteger at h
  cases hf : fromChars lo hi input with
  | mk read rest =>
    rw [hf] at h
    cases read with
    | none => cases congrArg Prod.snd h
    | some value =>
      have hr : rest = [] := by simpa using congrArg Prod.snd h
      have he : value = v := congrArg Prod.fst h
      exact digits_of_fromChars (by rw [hf, hr, he]) hv

theorem parseArguments_render (o : ConsoleOptions) (g : OptionGroup) (rest : List Text) :
    parseArguments o (g.render ++ rest) = parseArguments (apply o g) rest := by
  cases g with
  | once =>
    rw [render, List.singleton_append, parseArguments.eq_def]
    simp only [apply]
    rw [if_neg (by decide), if_pos True.intro]
  | pid v h =>
    have hp : parseInteger 0 4294967295 v.bytes o.pid.toNat = ((v.value : Int), true) :=
      parseInteger_digits v (Int.le_refl 0) (by omega) _
    rw [render, List.cons_append, List.singleton_append, parseArguments, if_neg (by decide),
      if_neg (by decide)]
    simp only [ConsoleOptions.accept, hp, if_true, Int.toNat_natCast, apply]
  | intervalMs v h =>
    have hp : parseInteger (-2147483648) 2147483647 v.bytes o.intervalMs =
        ((v.value : Int), true) := parseInteger_digits v (by omega) (by omega) _
    rw [render, List.cons_append, List.singleton_append, parseArguments, if_neg (by decide),
      if_neg (by decide)]
    have hr : (true && decide ((50 : Int) ≤ v.value) && decide ((v.value : Int) ≤ 60000)) =
        true := by
      simp
      omega
    rw [ConsoleOptions.accept, if_neg (by decide), if_pos rfl, hp]
    simp only [hr, if_true, apply]
  | staleMs v h =>
    have hp : parseInteger (-2147483648) 2147483647 v.bytes o.staleMs =
        ((v.value : Int), true) := parseInteger_digits v (by omega) (by omega) _
    rw [render, List.cons_append, List.singleton_append, parseArguments, if_neg (by decide),
      if_neg (by decide)]
    have hr : (true && decide ((100 : Int) ≤ v.value)) = true := by
      simp
      omega
    rw [ConsoleOptions.accept, if_neg (by decide), if_neg (by decide), if_pos rfl, hp]
    simp only [hr, if_true, apply]

theorem parseArguments_rendered (groups : List OptionGroup) (o : ConsoleOptions)
    (rest : List Text) :
    parseArguments o (rendered groups ++ rest) = parseArguments (groups.foldl apply o) rest := by
  induction groups generalizing o with
  | nil => rfl
  | cons g groups ih =>
    rw [rendered, List.flatMap_cons, List.append_assoc, parseArguments_render, List.foldl_cons]
    exact ih (apply o g)

theorem group_of_accept {argument value : Text} (h : (o.accept argument value).2 = true) :
    ∃ g : OptionGroup, g.render = [argument, value] ∧ (o.accept argument value).1 = apply o g := by
  unfold ConsoleOptions.accept at h ⊢
  by_cases hp : argument = text "--pid"
  · rw [if_pos hp] at h ⊢
    cases hr : parseInteger 0 4294967295 value o.pid.toNat with
    | mk pid parsed =>
      rw [hr] at h
      obtain ⟨d, hd, rfl, hle⟩ :=
        digits_of_parseInteger (hr.trans (Prod.ext rfl h)) (.inl (by decide))
      refine ⟨.pid d (by omega), by rw [render, hd, hp], ?_⟩
      simp only [apply, Int.toNat_natCast]
  rw [if_neg hp] at h ⊢
  by_cases hi : argument = text "--interval-ms"
  · rw [if_pos hi] at h ⊢
    cases hr : parseInteger (-2147483648) 2147483647 value o.intervalMs with
    | mk ms parsed =>
      rw [hr] at h
      simp only [Bool.and_eq_true, decide_eq_true_eq] at h
      obtain ⟨d, hd, rfl, -⟩ :=
        digits_of_parseInteger (hr.trans (Prod.ext rfl h.1.1)) (.inr (by omega))
      exact ⟨.intervalMs d (by omega), by rw [render, hd, hi], rfl⟩
  rw [if_neg hi] at h ⊢
  by_cases hs : argument = text "--stale-ms"
  · rw [if_pos hs] at h ⊢
    cases hr : parseInteger (-2147483648) 2147483647 value o.staleMs with
    | mk ms parsed =>
      rw [hr] at h
      simp only [Bool.and_eq_true, decide_eq_true_eq] at h
      obtain ⟨d, hd, rfl, hle⟩ :=
        digits_of_parseInteger (hr.trans (Prod.ext rfl h.1)) (.inr (by omega))
      exact ⟨.staleMs d (by omega), by rw [render, hd, hs], rfl⟩
  · rw [if_neg hs] at h
    cases h

/-- What ends a command line that is not an error: groups, then nothing or a help option. -/
theorem groups_of_parse {arguments : List Text}
    (h : (parseArguments o arguments).action ≠ .error) :
    ∃ groups, arguments = rendered groups ∨
      ∃ rest, ∃ help ∈ [text "--help", text "-h"], arguments = rendered groups ++ help :: rest := by
  induction o, arguments using parseArguments.induct with
  | case1 o => exact ⟨[], .inl rfl⟩
  | case2 o argument rest hh =>
    exact ⟨[], .inr ⟨rest, argument, by simpa using hh, rfl⟩⟩
  | case3 o rest hh ih =>
    unfold parseArguments at h
    rw [if_neg hh, if_pos rfl] at h
    obtain ⟨groups, hg⟩ := ih h
    refine ⟨.once :: groups, ?_⟩
    rcases hg with hg | ⟨rest', help, hm, hg⟩
    · left
      rw [hg]
      rfl
    · right
      exact ⟨rest', help, hm, by rw [hg]; rfl⟩
  | case4 o argument hh ho =>
    unfold parseArguments at h
    rw [if_neg hh, if_neg ho] at h
    exact absurd rfl h
  | case5 o argument hh ho value rest o' ha ih =>
    unfold parseArguments at h
    simp only [if_neg hh, if_neg ho, ha, if_true] at h
    obtain ⟨g, hr, -⟩ := group_of_accept (congrArg Prod.snd ha)
    have hcons : argument :: value :: rest = g.render ++ rest := by rw [hr]; rfl
    obtain ⟨groups, hg⟩ := ih h
    refine ⟨g :: groups, ?_⟩
    rcases hg with hg | ⟨rest', help, hm, hg⟩
    · left
      rw [hcons, hg]
      rfl
    · right
      refine ⟨rest', help, hm, ?_⟩
      rw [hcons, hg, rendered, rendered, List.flatMap_cons, List.append_assoc]
  | case6 o argument hh ho value rest o' accepted ha hacc =>
    unfold parseArguments at h
    simp only [if_neg hh, if_neg ho, ha, if_neg hacc] at h
    exact absurd rfl h

theorem lastValue_mem {value : OptionGroup → Option Nat} {n : Nat}
    (h : lastValue value groups = some n) : ∃ g ∈ groups, value g = some n :=
  List.mem_filterMap.mp (List.mem_of_getLast? h)

theorem lastValue_of_agree {value : OptionGroup → Option Nat} {n : Nat}
    (hex : ∃ g ∈ groups, value g = some n) (hall : ∀ g ∈ groups, ∀ m, value g = some m → m = n) :
    lastValue value groups = some n := by
  obtain ⟨g, hg, hv⟩ := hex
  cases h : lastValue value groups with
  | none =>
    have hm : n ∈ groups.filterMap value := List.mem_filterMap.mpr ⟨g, hg, hv⟩
    rw [List.getLast?_eq_none_iff.mp h] at hm
    cases hm
  | some m =>
    obtain ⟨g', hg', hv'⟩ := lastValue_mem h
    rw [hall g' hg' m hv']

theorem pid_eq_zero_iff (groups : List OptionGroup) :
    (lastOptions groups).pid = 0 ↔ ¬∃ pid, lastValue pid? groups = some pid ∧ pid ≠ 0 := by
  rw [lastOptions]
  cases hl : lastValue pid? groups with
  | none => simp
  | some n =>
    obtain ⟨g, -, hv⟩ := lastValue_mem hl
    have hn : n < 4294967296 := by
      cases g with
      | pid v h => exact Option.some.inj hv ▸ h
      | once => cases hv
      | intervalMs v h => cases hv
      | staleMs v h => cases hv
    have hz : UInt32.ofNat n = 0 ↔ n = 0 := by
      rw [← UInt32.toNat_inj, UInt32.toNat_ofNat_of_lt' hn]
      rfl
    simp [hz]

theorem parseCommandLine_rendered (groups : List OptionGroup) :
    parseCommandLine (rendered groups) =
      ⟨if (lastOptions groups).pid = 0 then .error else .run, lastOptions groups⟩ := by
  have h := parseArguments_rendered groups {} []
  rw [List.append_nil, foldl_apply_default] at h
  rw [parseCommandLine, h, parseArguments]

theorem parseCommandLine_help (groups : List OptionGroup) (rest : List Text) {help : Text}
    (hm : help ∈ [text "--help", text "-h"]) :
    parseCommandLine (rendered groups ++ help :: rest) = ⟨.help, lastOptions groups⟩ := by
  rw [parseCommandLine, parseArguments_rendered, foldl_apply_default, parseArguments.eq_def]
  exact if_pos (by simpa using hm)

theorem AsksRun.parse {arguments : List Text} (h : AsksRun arguments groups) :
    parseCommandLine arguments = ⟨.run, lastOptions groups⟩ := by
  obtain ⟨rfl, hp⟩ := h
  rw [parseCommandLine_rendered, if_neg fun hz => (pid_eq_zero_iff groups).mp hz hp]

theorem help_iff (arguments : List Text) :
    (parseCommandLine arguments).action = .help ↔ AsksHelp arguments := by
  constructor
  · intro h
    obtain ⟨groups, hg | ⟨rest, help, hm, hg⟩⟩ :=
      groups_of_parse (o := {}) (by rw [← parseCommandLine, h]; decide)
    · rw [hg, parseCommandLine_rendered] at h
      dsimp only at h
      split at h
      · cases h
      · cases h
    · exact ⟨groups, rest, help, hm, hg⟩
  · rintro ⟨groups, rest, help, hm, rfl⟩
    rw [parseCommandLine_help groups rest hm]

theorem run_iff (arguments : List Text) :
    (parseCommandLine arguments).action = .run ↔ ∃ groups, AsksRun arguments groups := by
  constructor
  · intro h
    obtain ⟨groups, hg | ⟨rest, help, hm, hg⟩⟩ :=
      groups_of_parse (o := {}) (by rw [← parseCommandLine, h]; decide)
    · refine ⟨groups, hg, ?_⟩
      rw [hg, parseCommandLine_rendered] at h
      by_contra hp
      rw [if_pos ((pid_eq_zero_iff groups).mpr hp)] at h
      cases h
    · rw [hg, parseCommandLine_help groups rest hm] at h
      cases h
  · rintro ⟨groups, hr⟩
    rw [hr.parse]

/-- The groups that write an options record. -/
def ConsoleOptions.optionGroups (o : ConsoleOptions) (h : o.InRange) : List OptionGroup :=
  [.pid (.ofNat o.pid.toNat) (by rw [Digits.value_ofNat]; exact o.pid.toNat_lt),
    .intervalMs (.ofNat o.intervalMs.toNat) (by
      have := h.intervalMs
      rw [Digits.value_ofNat]
      omega),
    .staleMs (.ofNat o.staleMs.toNat) (by
      have := h.staleMs
      rw [Digits.value_ofNat]
      omega)] ++ if o.once then [.once] else []

theorem mem_optionGroups {h : o.InRange} {g : OptionGroup} (hg : g ∈ o.optionGroups h) :
    (∀ n, pid? g = some n → n = o.pid.toNat) ∧
      (∀ n, intervalMs? g = some n → n = o.intervalMs.toNat) ∧
      (∀ n, staleMs? g = some n → n = o.staleMs.toNat) ∧ (isOnce g = true → o.once = true) := by
  rw [ConsoleOptions.optionGroups, List.mem_append] at hg
  rcases hg with hg | hg
  · simp only [List.mem_cons, List.not_mem_nil, or_false] at hg
    rcases hg with rfl | rfl | rfl
    · simp [pid?, intervalMs?, staleMs?, isOnce, Digits.value_ofNat]
    · simp [pid?, intervalMs?, staleMs?, isOnce, Digits.value_ofNat]
    · simp [pid?, intervalMs?, staleMs?, isOnce, Digits.value_ofNat]
  · split at hg
    · next ho =>
      rw [List.mem_singleton.mp hg]
      simp [pid?, intervalMs?, staleMs?, isOnce, ho]
    · cases hg

theorem lastOptions_of_mem {h : o.InRange} (hg : ∀ g, g ∈ groups ↔ g ∈ o.optionGroups h) :
    lastOptions groups = o := by
  have hagree (g : OptionGroup) (hm : g ∈ groups) := mem_optionGroups ((hg g).mp hm)
  have hpid : lastValue pid? groups = some o.pid.toNat := by
    refine lastValue_of_agree ⟨_, (hg _).mpr (List.mem_cons_self), ?_⟩ fun g hm => (hagree g hm).1
    rw [pid?, Digits.value_ofNat]
  have hinterval : lastValue intervalMs? groups = some o.intervalMs.toNat := by
    refine lastValue_of_agree ⟨_, (hg _).mpr (List.mem_cons_of_mem _ List.mem_cons_self), ?_⟩
      fun g hm => (hagree g hm).2.1
    rw [intervalMs?, Digits.value_ofNat]
  have hstale : lastValue staleMs? groups = some o.staleMs.toNat := by
    refine lastValue_of_agree
      ⟨_, (hg _).mpr (List.mem_cons_of_mem _ (List.mem_cons_of_mem _ List.mem_cons_self)), ?_⟩
      fun g hm => (hagree g hm).2.2.1
    rw [staleMs?, Digits.value_ofNat]
  have honce : groups.any isOnce = o.once := by
    rw [Bool.eq_iff_iff, List.any_eq_true]
    constructor
    · rintro ⟨g, hm, ho⟩
      exact (hagree g hm).2.2.2 ho
    · intro ho
      refine ⟨.once, (hg _).mpr (List.mem_append_right _ ?_), rfl⟩
      rw [if_pos ho]
      exact List.mem_singleton_self _
  have hi := h.intervalMs
  have hs := h.staleMs
  rw [lastOptions, hpid, hinterval, hstale, honce]
  simp only [Option.getD_some, UInt32.ofNat_toNat,
    Int.toNat_of_nonneg (by omega : 0 ≤ o.intervalMs),
    Int.toNat_of_nonneg (by omega : 0 ≤ o.staleMs)]

/-- The parser accepts exactly the grammar, takes the last value of every option, and
reads back every options record from its groups in any order. -/
theorem parseCommandLine_grammar :
    (∀ arguments,
      let parsed := parseCommandLine arguments
      (parsed.action = .help ↔ AsksHelp arguments) ∧
        (parsed.action = .run ↔ ∃ groups, AsksRun arguments groups) ∧
        (parsed.action = .error ↔
          ¬AsksHelp arguments ∧ ¬∃ groups, AsksRun arguments groups) ∧
        ∀ groups, AsksRun arguments groups →
          parsed.options = lastOptions groups ∧ 0 ≤ parsed.options.staleMs ∧
            parsed.options.staleMs * 1000000 < 18446744073709551616) ∧
    ∀ (o : ConsoleOptions) (h : o.InRange), o.pid ≠ 0 → ∀ groups,
      (∀ g, g ∈ groups ↔ g ∈ o.optionGroups h) →
        parseCommandLine (rendered groups) = ⟨.run, o⟩ := by
  refine ⟨fun arguments => ?_, fun o h hp groups hg => ?_⟩
  · have hhelp := help_iff arguments
    have hrun := run_iff arguments
    refine ⟨hhelp, hrun, ?_, fun groups hr => ?_⟩
    · rw [← hhelp, ← hrun]
      cases (parseCommandLine arguments).action <;> simp
    · have hin := (parseCommandLine_inRange (hrun.mpr ⟨groups, hr⟩)).staleMs
      refine ⟨by rw [hr.parse], by omega, by omega⟩
  · have ho := lastOptions_of_mem hg
    rw [parseCommandLine_rendered, ho, if_neg hp]

theorem parseCommandLine_grammar_once :
    let o : ConsoleOptions := { pid := 42, once := true }
    parseCommandLine (rendered (o.optionGroups ⟨by decide, by decide⟩)) = ⟨.run, o⟩ :=
  parseCommandLine_grammar.2 { pid := 42, once := true } ⟨by decide, by decide⟩ (by decide) _
    fun _ => Iff.rfl

end Peepbooth
