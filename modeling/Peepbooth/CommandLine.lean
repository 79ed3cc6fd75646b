import Mathlib.Data.List.Basic

/-! The command line of the console watcher. An argument is the bytes of a
`string_view`. -/

namespace Peepbooth

abbrev Text := List UInt8

def text (s : String) : Text := s.toList.map fun c => UInt8.ofNat c.toNat

def isDigit (b : UInt8) : Bool := 48 ≤ b && b ≤ 57

def decimalValue (digits : Text) : Nat := digits.foldl (fun n d => 10 * n + (d.toNat - 48)) 0

/-- `std::from_chars` for an integer type of the range `lo..hi`: the value, where
it is in range, and what follows the number. Only a signed type reads a minus. -/
def fromChars (lo hi : Int) (input : Text) : Option Int × Text :=
  let negative := lo < 0 && input.head? = some 45
  let body := if negative then input.tail else input
  let digits := body.takeWhile isDigit
  let value : Int := if negative then -(decimalValue digits : Int) else decimalValue digits
  if digits = [] then (none, input)
  else (if lo ≤ value ∧ value ≤ hi then some value else none, body.dropWhile isDigit)

/-- What `parse_integer` leaves in its output, and whether it succeeds. -/
def parseInteger (lo hi : Int) (input : Text) (output : Int) : Int × Bool :=
  match fromChars lo hi input with
  | (some value, rest) => (value, rest = [])
  | (none, _) => (output, false)

structure ConsoleOptions where
  pid : UInt32 := 0
  intervalMs : Int := 1000
  staleMs : Int := 3000
  once : Bool := false
  deriving DecidableEq, Repr

inductive CommandLineAction
  | run
  | help
  | error
  deriving DecidableEq, Repr

structure ParsedCommandLine where
  action : CommandLineAction := .error
  options : ConsoleOptions := {}
  deriving DecidableEq, Repr

/-- An option that takes a value: the options it leaves, and whether it is accepted. -/
def ConsoleOptions.accept (o : ConsoleOptions) (argument value : Text) : ConsoleOptions × Bool :=
  if argument = text "--pid" then
    let (pid, parsed) := parseInteger 0 4294967295 value o.pid.toNat
    ({ o with pid := UInt32.ofNat pid.toNat }, parsed)
  else if argument = text "--interval-ms" then
    let (ms, parsed) := parseInteger (-2147483648) 2147483647 value o.intervalMs
    ({ o with intervalMs := ms }, parsed && 50 ≤ ms && ms ≤ 60000)
  else if argument = text "--stale-ms" then
    let (ms, parsed) := parseInteger (-2147483648) 2147483647 value o.staleMs
    ({ o with staleMs := ms }, parsed && 100 ≤ ms)
  else (o, false)

/-- The loop of `parse_command_line`, and the check after it. -/
def parseArguments (options : ConsoleOptions) : List Text → ParsedCommandLine
  | [] => ⟨if options.pid = 0 then .error else .run, options⟩
  | argument :: rest =>
    if argument = text "--help" ∨ argument = text "-h" then ⟨.help, options⟩
    else if argument = text "--once" then parseArguments { options with once := true } rest
    else
      match rest with
      | [] => ⟨.error, options⟩
      | value :: rest =>
        let (options, accepted) := options.accept argument value
        if accepted then parseArguments options rest else ⟨.error, options⟩

def parseCommandLine (arguments : List Text) : ParsedCommandLine := parseArguments {} arguments

example : parseCommandLine (["--pid", "42", "--once", "--stale-ms", "100"].map text) =
    ⟨.run, { pid := 42, staleMs := 100, once := true }⟩ := by decide

/-- The options a run can be given, apart from the process. -/
structure ConsoleOptions.InRange (o : ConsoleOptions) : Prop where
  intervalMs : 50 ≤ o.intervalMs ∧ o.intervalMs ≤ 60000
  staleMs : 100 ≤ o.staleMs ∧ o.staleMs ≤ 2147483647

theorem fromChars_le {lo hi value : Int} {input : Text}
    (h : (fromChars lo hi input).1 = some value) : lo ≤ value ∧ value ≤ hi := by
  unfold fromChars at h
  dsimp only at h
  generalize (if (lo < 0 && input.head? = some 45) = true then input.tail else input) = body at h
  generalize (if (lo < 0 && input.head? = some 45) = true then
    -(decimalValue (body.takeWhile isDigit) : Int) else _) = read at h
  by_cases hd : body.takeWhile isDigit = []
  · rw [if_pos hd] at h
    cases h
  · rw [if_neg hd] at h
    by_cases hr : lo ≤ read ∧ read ≤ hi
    · rw [if_pos hr] at h
      exact Option.some.inj h ▸ hr
    · rw [if_neg hr] at h
      cases h

theorem parseInteger_le {lo hi output : Int} {input : Text}
    (h : (parseInteger lo hi input output).2 = true) :
    lo ≤ (parseInteger lo hi input output).1 ∧ (parseInteger lo hi input output).1 ≤ hi := by
  unfold parseInteger at h ⊢
  cases hf : fromChars lo hi input with
  | mk read rest =>
    rw [hf] at h
    cases read with
    | none => cases h
    | some value => exact fromChars_le (congrArg Prod.fst hf)

theorem ConsoleOptions.InRange.accept {o : ConsoleOptions} (h : o.InRange) {argument value : Text}
    (ha : (o.accept argument value).2 = true) : (o.accept argument value).1.InRange := by
  unfold ConsoleOptions.accept at ha ⊢
  by_cases hp : argument = text "--pid"
  · rw [if_pos hp]
    exact ⟨h.intervalMs, h.staleMs⟩
  rw [if_neg hp] at ha ⊢
  by_cases hi : argument = text "--interval-ms"
  · rw [if_pos hi] at ha ⊢
    simp only [Bool.and_eq_true, decide_eq_true_eq] at ha
    exact ⟨⟨ha.1.2, ha.2⟩, h.staleMs⟩
  rw [if_neg hi] at ha ⊢
  by_cases hs : argument = text "--stale-ms"
  · rw [if_pos hs] at ha ⊢
    simp only [Bool.and_eq_true, decide_eq_true_eq] at ha
    exact ⟨h.intervalMs, ha.2, (parseInteger_le ha.1).2⟩
  · rw [if_neg hs] at ha
    cases ha

theorem parseArguments_inRange {o : ConsoleOptions} {arguments : List Text} (h : o.InRange)
    (hr : (parseArguments o arguments).action = .run) :
    (parseArguments o arguments).options.InRange := by
  induction o, arguments using parseArguments.induct with
  | case1 o => exact h
  | case2 o argument rest hh =>
    unfold parseArguments at hr
    rw [if_pos hh] at hr
    cases hr
  | case3 o rest hh ih =>
    unfold parseArguments at hr ⊢
    rw [if_neg hh, if_pos rfl] at hr ⊢
    exact ih ⟨h.intervalMs, h.staleMs⟩ hr
  | case4 o argument hh ho =>
    unfold parseArguments at hr
    rw [if_neg hh, if_neg ho] at hr
    cases hr
  | case5 o argument hh ho value rest o' ha ih =>
    unfold parseArguments at hr ⊢
    simp only [if_neg hh, if_neg ho, ha, if_true] at hr ⊢
    have hin := h.accept (congrArg Prod.snd ha)
    rw [ha] at hin
    exact ih hin hr
  | case6 o argument hh ho value rest o' accepted ha hacc =>
    unfold parseArguments at hr
    simp only [if_neg hh, if_neg ho, ha, if_neg hacc] at hr
    cases hr

theorem parseCommandLine_inRange {arguments : List Text}
    (h : (parseCommandLine arguments).action = .run) :
    (parseCommandLine arguments).options.InRange :=
  parseArguments_inRange ⟨by decide, by decide⟩ h

end Peepbooth
