import Peepbooth.CommandLine
import Peepbooth.LineSearch
import Peepbooth.ProcessWatch
import Mathlib.Data.List.TakeWhile

/-! The text of `/proc/<pid>/status`, as `parse_proc_status` reads it and as its
lines say. -/

namespace Peepbooth

open LineSearch

def isBlank (b : UInt8) : Bool := b = 32 || b = 9

def newline : UInt8 := 10

/-- Blanks, then at least one digit. -/
def parseUnsigned (value : Text) : Option UInt64 :=
  let digits := (value.dropWhile isBlank).takeWhile isDigit
  if digits = [] then none
  else (fromChars 0 18446744073709551615 digits).1.map fun parsed => UInt64.ofNat parsed.toNat

/-- `substr` to the end of the line, where the first occurrence of the key begins one. -/
def statusValueKib (contents key : Text) : Option UInt64 :=
  (find key contents).bind fun position =>
    if position ≠ 0 ∧ contents[position - 1]? ≠ some newline then none
    else
      let line := (contents.drop (position + key.length)).takeWhile (· ≠ newline)
      (parseUnsigned line).map (· * 1024)

def parseProcStatus (contents : Text) : Option ProcessMemory :=
  (statusValueKib contents (text "VmRSS:")).map fun rss => {
    rssBytes := rss
    highWaterBytes := (statusValueKib contents (text "VmHWM:")).getD rss
    swapBytes := (statusValueKib contents (text "VmSwap:")).getD 0 }

/-- The number after optional blanks, of any size. -/
def lineNumber (line : Text) : Option Nat :=
  let digits := (line.dropWhile isBlank).takeWhile isDigit
  if digits = [] then none else some (decimalValue digits)

/-- The number on the first line that begins with the key. -/
def numberOf (key : String) (contents : Text) : Option Nat :=
  (onLine newline (text key) contents).bind lineNumber

structure StatusReading where
  rss : Nat
  highWater : Nat
  swap : Nat
  deriving DecidableEq, Repr

def ProcessMemory.reading (m : ProcessMemory) : StatusReading :=
  ⟨m.rssBytes.toNat, m.highWaterBytes.toNat, m.swapBytes.toNat⟩

/-- What the lines of a status file say. -/
def readByLines (contents : Text) : Option StatusReading :=
  (numberOf "VmRSS:" contents).map fun rss => {
    rss := 1024 * rss
    highWater := 1024 * (numberOf "VmHWM:" contents).getD rss
    swap := 1024 * (numberOf "VmSwap:" contents).getD 0 }

/-- The numbers of a status file are below `2^54`. -/
def SmallNumbers (contents : Text) : Prop :=
  ∀ key ∈ ["VmRSS:", "VmHWM:", "VmSwap:"], ∀ n ∈ numberOf key contents, n < 18014398509481984

instance (contents : Text) : Decidable (SmallNumbers contents) :=
  inferInstanceAs (Decidable (∀ _ ∈ _, _))

/-- No other line hides a number that the result needs. -/
def Unhidden (contents : Text) : Prop :=
  ∀ rss ∈ numberOf "VmRSS:" contents,
    ¬Hidden newline (text "VmRSS:") contents ∧
      (Hidden newline (text "VmHWM:") contents → ∀ n ∈ numberOf "VmHWM:" contents, n = rss) ∧
      (Hidden newline (text "VmSwap:") contents → ∀ n ∈ numberOf "VmSwap:" contents, n = 0)

variable {line contents : Text}

theorem statusValueKib_eq_search (contents key : Text) :
    statusValueKib contents key =
      (search newline key contents).bind fun line => (parseUnsigned line).map (· * 1024) := by
  rw [statusValueKib, search, Option.bind_assoc]
  refine Option.bind_congr fun position _ => ?_
  split
  · rfl
  · rfl

/-- The digits are read as they are unless their number does not fit 64 bits. -/
theorem parseUnsigned_eq (line : Text) :
    parseUnsigned line = (lineNumber line).bind fun n =>
      if n < 18446744073709551616 then some (UInt64.ofNat n) else none := by
  rw [parseUnsigned, lineNumber]
  split
  · rfl
  · next hd =>
    simp only [fromChars, Int.lt_irrefl, decide_false, Bool.false_and, Bool.false_eq_true,
      if_false, List.takeWhile_idem, hd, Option.bind_some]
    generalize decimalValue ((line.dropWhile isBlank).takeWhile isDigit) = n
    by_cases hn : n < 18446744073709551616
    · rw [if_pos hn, if_pos ⟨by omega, by omega⟩]
      rfl
    · rw [if_neg hn, if_neg (by omega)]
      rfl

theorem parseUnsigned_of_lt {n : Nat} (hn : n < 18446744073709551616)
    (h : lineNumber line = some n) : parseUnsigned line = some (UInt64.ofNat n) := by
  rw [parseUnsigned_eq, h, Option.bind_some, if_pos hn]

theorem statusValueKib_eq {key : String} (hk : text key ≠ []) (hs : newline ∉ text key)
    (hn : ∀ n ∈ numberOf key contents, n < 18014398509481984) :
    statusValueKib contents (text key) =
      if Hidden newline (text key) contents then none
      else (numberOf key contents).map fun n => UInt64.ofNat (1024 * n) := by
  rw [statusValueKib_eq_search, search_eq hk hs]
  split
  · rfl
  rw [numberOf] at hn ⊢
  cases ho : onLine newline (text key) contents with
  | none => rfl
  | some line =>
    rw [ho, Option.bind_some] at hn
    rw [Option.bind_some, Option.bind_some]
    cases hl : lineNumber line with
    | none => rw [parseUnsigned_eq, hl, Option.bind_none, Option.map_none, Option.map_none]
    | some n =>
      rw [parseUnsigned_of_lt (Nat.lt_trans (hn n hl) (by decide)) hl, Option.map_some,
        Option.map_some, mul_comm 1024 n, UInt64.ofNat_mul]
      rfl

theorem toNat_kib {n : Nat} (hn : n < 18014398509481984) :
    (UInt64.ofNat (1024 * n)).toNat = 1024 * n := by
  rw [UInt64.toNat_ofNat_of_lt']
  simp only [UInt64.size]
  omega

/-- A second number of the file agrees with its line unless the line is hidden
and does not give the default. -/
theorem getD_kib_iff (hidden : Prop) [Decidable hidden] {number : Option Nat} {default : Nat}
    (hd : default < 18014398509481984) (hn : ∀ n ∈ number, n < 18014398509481984) :
    (((if hidden then none else number.map fun n => UInt64.ofNat (1024 * n)).getD
        (UInt64.ofNat (1024 * default))).toNat = 1024 * number.getD default) ↔
      (hidden → ∀ n ∈ number, n = default) := by
  by_cases hh : hidden
  · rw [if_pos hh, Option.getD_none, toNat_kib hd]
    cases number with
    | none => simp
    | some n => simp [hh, eq_comm]
  · rw [if_neg hh]
    cases number with
    | none => simpa [hh] using toNat_kib hd
    | some n => simpa [hh] using toNat_kib (hn n rfl)

/-- The parser agrees with the lines of the text exactly where no other line hides
a number from it. -/
theorem parseProcStatus_iff (contents : Text) (h : SmallNumbers contents) :
    (parseProcStatus contents).map ProcessMemory.reading = readByLines contents ↔
      Unhidden contents := by
  have hrss := h "VmRSS:" (by simp)
  have hhwm := h "VmHWM:" (by simp)
  have hswap := h "VmSwap:" (by simp)
  rw [parseProcStatus, readByLines, Unhidden, statusValueKib_eq (by decide) (by decide) hrss,
    statusValueKib_eq (by decide) (by decide) hhwm, statusValueKib_eq (by decide) (by decide) hswap]
  cases hr : numberOf "VmRSS:" contents with
  | none => simp
  | some rss =>
    have hlt := hrss rss hr
    by_cases hh : Hidden newline (text "VmRSS:") contents
    · simp [hh]
    · have hzero : 0 < 18014398509481984 := by decide
      have hz := getD_kib_iff (Hidden newline (text "VmSwap:") contents) hzero hswap
      have hw := getD_kib_iff (Hidden newline (text "VmHWM:") contents) hlt hhwm
      rw [if_neg hh, Option.map_some, Option.map_some, Option.map_some, Option.map_some,
        Option.some.injEq, ProcessMemory.reading, StatusReading.mk.injEq]
      simp only [toNat_kib hlt, true_and, Option.mem_some_iff, forall_eq', hh, not_false_iff]
      exact and_congr hw hz

theorem parseProcStatus_iff_three_lines :
    let contents := text "Name:\ttest\nVmHWM:\t4096 kB\nVmRSS:\t2048 kB\nVmSwap:\t16 kB\n"
    (parseProcStatus contents).map ProcessMemory.reading = readByLines contents ↔
      Unhidden contents :=
  parseProcStatus_iff _ (by decide +kernel)

/-- A process named after the key of its own resident size. -/
theorem parseProcStatus_misses :
    let contents := text "Name:\tVmRSS:\nVmRSS:\t4 kB\n"
    SmallNumbers contents ∧ parseProcStatus contents = none ∧
      readByLines contents = some ⟨4096, 4096, 0⟩ := by
  decide +kernel

end Peepbooth
