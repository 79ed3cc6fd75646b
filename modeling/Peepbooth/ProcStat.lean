import Peepbooth.Decimal
import Peepbooth.ProcStatus
import Peepbooth.Tokens

/-! The text of `/proc/<pid>/stat`, as `parse_proc_stat` reads it and as the
kernel writes it. A read past the end of a text or of a list is an error, as is
a loop that outlasts its fuel. -/

namespace Peepbooth

open Tokens

inductive Fault
  | outOfFuel
  | outOfRange
  deriving DecidableEq, Repr

def space : UInt8 := 32

def parenClose : UInt8 := 41

def rfind (b : UInt8) (l : Text) : Option Nat :=
  (l.reverse.idxOf? b).map fun back => l.length - 1 - back

def readAt {α : Type*} (l : List α) (index : Nat) : Except Fault α :=
  match l[index]? with
  | some a => .ok a
  | none => .error .outOfRange

/-- The inner loop: past the spaces from `start` on. -/
def skipSpaces (tail : Text) : Nat → Nat → Except Fault Nat
  | 0, _ => .error .outOfFuel
  | fuel + 1, start =>
    if start < tail.length then
      (readAt tail start).bind fun b =>
        if b = space then skipSpaces tail fuel (start + 1) else .ok start
    else .ok start

/-- `find` from a position on. -/
def findFrom (b : UInt8) (tail : Text) (start : Nat) : Option Nat :=
  ((tail.drop start).idxOf? b).map (start + ·)

/-- The outer loop, with the fields found so far. -/
def splitFields (tail : Text) : Nat → Nat → List Text → Except Fault (List Text)
  | 0, _, _ => .error .outOfFuel
  | fuel + 1, start, fields =>
    if start < tail.length then
      (skipSpaces tail (fuel + 1) start).bind fun start =>
        if tail.length ≤ start then .ok fields
        else
          let stop := findFrom space tail start
          let field := (tail.drop start).take (stop.getD tail.length - start)
          splitFields tail fuel ((stop.map (· + 1)).getD tail.length) (fields ++ [field])
    else .ok fields

/-- `stat_values`, without whose file it was. -/
structure ParsedStat where
  cpuTicks : UInt64 := 0
  startTicks : UInt64 := 0
  deriving DecidableEq, Repr

/-- What the fields are read as. -/
def statValues (fields : List Text) : Except Fault (Option ParsedStat) :=
  if fields.length ≤ 19 then .ok none
  else
    (readAt fields 11).bind fun user =>
      (readAt fields 12).bind fun system =>
        (readAt fields 19).map fun startTicks =>
          (parseUnsigned user).bind fun user =>
            (parseUnsigned system).bind fun system =>
              (parseUnsigned startTicks).map fun startTicks =>
                { cpuTicks := user + system, startTicks }

def parseProcStat (fuel : Nat) (contents : Text) : Except Fault (Option ParsedStat) :=
  match rfind parenClose contents with
  | none => .ok none
  | some close =>
    if contents.length ≤ close + 2 then .ok none
    else (splitFields (contents.drop (close + 2)) fuel 0 []).bind statValues

example :
    parseProcStat 100 (text "7 (a) b) S 4 5 6 7 8 9 10 11 12 13 300 45 16 17 18 19 20 -1 999\n") =
      .ok (some ⟨345, 999⟩) := by decide +kernel

variable {tail : Text} {fuel start : Nat}

theorem skipSpaces_eq (h : tail.length - start < fuel) :
    skipSpaces tail fuel start =
      .ok (start + ((tail.drop start).takeWhile (· = space)).length) := by
  induction fuel generalizing start with
  | zero => omega
  | succ fuel ih =>
    rw [skipSpaces]
    by_cases hs : start < tail.length
    · rw [if_pos hs, readAt, List.getElem?_eq_getElem hs, List.drop_eq_getElem_cons hs]
      by_cases hb : tail[start] = space
      · rw [List.takeWhile_cons_of_pos (by simpa using hb)]
        simp only [Except.bind, hb, if_true, List.length_cons]
        rw [ih (by omega)]
        congr 1
        omega
      · rw [List.takeWhile_cons_of_neg (by simpa using hb)]
        simp only [Except.bind, if_neg hb, List.length_nil, Nat.add_zero]
    · rw [if_neg hs, List.drop_of_length_le (by omega)]
      rfl

theorem drop_skipped (tail : Text) (start : Nat) :
    tail.drop (start + ((tail.drop start).takeWhile (· = space)).length) =
      (tail.drop start).dropWhile (· = space) := by
  rw [← List.drop_drop]
  generalize tail.drop start = l
  have hl := List.takeWhile_append_dropWhile (p := (· = space)) (l := l)
  calc l.drop (l.takeWhile (· = space)).length
      = (l.takeWhile (· = space) ++ l.dropWhile (· = space)).drop
          (l.takeWhile (· = space)).length := by rw [hl]
    _ = l.dropWhile (· = space) := List.drop_left

/-- The loop finds the words of the rest of the text. -/
theorem splitFields_eq (h : tail.length - start < fuel) (fields : List Text) :
    splitFields tail fuel start fields = .ok (fields ++ tokens space (tail.drop start)) := by
  induction fuel generalizing start fields with
  | zero => omega
  | succ fuel ih =>
    rw [splitFields]
    by_cases hs : start < tail.length
    · rw [if_pos hs, skipSpaces_eq h]
      have hd := drop_skipped tail start
      have hle : start ≤ start + ((tail.drop start).takeWhile (· = space)).length := by omega
      generalize start + ((tail.drop start).takeWhile (· = space)).length = begin at hd hle
      simp only [Except.bind]
      rw [← tokens_dropWhile, ← hd]
      by_cases hb : tail.length ≤ begin
      · rw [if_pos hb, List.drop_of_length_le hb, tokens_nil, List.append_nil]
      have hne : tail.drop begin ≠ [] := by simpa using hb
      have hhead : (tail.drop begin).head? ≠ some space := by
        rw [hd]
        intro hc
        have := List.head?_dropWhile_not (· = space) (tail.drop start)
        simp [hc] at this
      rw [if_neg hb, findFrom]
      cases hi : (tail.drop begin).idxOf? space with
      | none =>
        have hfull : (tail.drop begin).take (tail.length - begin) = tail.drop begin :=
          List.take_of_length_le (by simp)
        simp only [Option.map_none, Option.getD_none, hfull]
        rw [ih (by omega), tokens_last hne hi, List.drop_of_length_le (Nat.le_refl _), tokens_nil,
          List.append_nil]
      | some i =>
        simp only [Option.map_some, Option.getD_some, Nat.add_sub_cancel_left]
        rw [ih (by omega), tokens_first hhead hi, List.drop_drop, List.append_assoc,
          List.singleton_append, Nat.add_assoc]
    · rw [if_neg hs, List.drop_of_length_le (by omega), tokens_nil, List.append_nil]

theorem statValues_ok (fields : List Text) : ∃ values, statValues fields = .ok values := by
  rw [statValues]
  split
  · exact ⟨none, rfl⟩
  · next h =>
    have h11 : 11 < fields.length := by omega
    have h12 : 12 < fields.length := by omega
    have h19 : 19 < fields.length := by omega
    simp only [readAt, List.getElem?_eq_getElem h11, List.getElem?_eq_getElem h12,
      List.getElem?_eq_getElem h19]
    exact ⟨_, rfl⟩

/-- Every loop ends and every read is inside its list, whatever the text. -/
theorem parseProcStat_ok {contents : Text} (h : contents.length < fuel) :
    ∃ values, parseProcStat fuel contents = .ok values := by
  rw [parseProcStat]
  cases rfind parenClose contents with
  | none => exact ⟨none, rfl⟩
  | some close =>
    dsimp only
    split
    · exact ⟨none, rfl⟩
    · rw [splitFields_eq (by rw [List.length_drop]; omega)]
      exact statValues_ok _

structure DecimalField where
  negative : Bool
  digits : Digits

def DecimalField.render (f : DecimalField) : Text :=
  (if f.negative then [45] else []) ++ f.digits.bytes

def DecimalField.natural (f : DecimalField) : Option Nat :=
  if f.negative then none else some f.digits.value

/-- The line the kernel writes, with its fields from the fourth on. The fields
14, 15 and 22 are 64-bit numbers. -/
structure StatLine where
  pid : Digits
  comm : Text
  state : UInt8
  fields : List DecimalField
  endsLine : Bool
  utime : Nat
  stime : Nat
  starttime : Nat
  isLetter : (65 ≤ state ∧ state ≤ 90) ∨ (97 ≤ state ∧ state ≤ 122)
  length_fields : 19 ≤ fields.length
  field14 : fields[14 - 4].natural = some utime
  field15 : fields[15 - 4].natural = some stime
  field22 : fields[22 - 4].natural = some starttime
  cpu_lt : utime + stime < 18446744073709551616
  starttime_lt : starttime < 18446744073709551616

def StatLine.words (l : StatLine) : List Text := [l.state] :: l.fields.map DecimalField.render

def StatLine.ending (l : StatLine) : Text := if l.endsLine then [newline] else []

def StatLine.render (l : StatLine) : Text :=
  l.pid.bytes ++ text " (" ++ l.comm ++ text ") " ++ List.intercalate [space] l.words ++ l.ending

theorem rfind_append {b : UInt8} {pre post : Text} (h : b ∉ post) :
    rfind b (pre ++ b :: post) = some pre.length := by
  have hr : (pre ++ b :: post).reverse = post.reverse ++ b :: pre.reverse := by simp
  have hi : (pre ++ b :: post).reverse.idxOf? b = some post.length := by
    rw [hr]
    refine List.idxOf?_eq_some_iff.mpr ⟨by simp, by simp, fun j hj he => ?_⟩
    rw [List.getElem_append_left (by simpa using hj)] at he
    exact h (List.mem_reverse.mp (he ▸ List.getElem_mem _))
  rw [rfind, hi, Option.map_some, List.length_append, List.length_cons]
  congr 1
  omega

theorem isBlank_of_isDigit {b : UInt8} (h : isDigit b = true) : isBlank b = false := by
  by_contra hb
  have hb : b = 32 ∨ b = 9 := by simpa [isBlank, or_iff_not_imp_left] using hb
  rcases hb with rfl | rfl
  · cases h
  · cases h

theorem lineNumber_digits (d : Digits) {t : Text} (ht : ∀ b ∈ t.head?, isDigit b = false) :
    lineNumber (d.bytes ++ t) = some d.value := by
  have hdrop : (d.bytes ++ t).dropWhile isBlank = d.bytes ++ t := by
    obtain ⟨b, bytes, hb⟩ := List.exists_cons_of_ne_nil d.ne_nil
    have hd := isBlank_of_isDigit (d.digit b (by simp [hb]))
    rw [hb, List.cons_append, List.dropWhile_cons_of_neg (by simp [hd])]
  have htake : t.takeWhile isDigit = [] := by
    cases t with
    | nil => rfl
    | cons b t => rw [List.takeWhile_cons_of_neg (by simp [ht b rfl])]
  rw [lineNumber, hdrop, List.takeWhile_append_of_pos d.digit, htake, List.append_nil,
    if_neg d.ne_nil, Digits.value]

theorem DecimalField.parse_natural {f : DecimalField} {n : Nat} {t : Text}
    (h : f.natural = some n) (hn : n < 18446744073709551616)
    (ht : ∀ b ∈ t.head?, isDigit b = false) :
    parseUnsigned (f.render ++ t) = some (UInt64.ofNat n) := by
  unfold natural at h
  split at h
  · cases h
  · next hf =>
    apply parseUnsigned_of_lt hn
    rw [render, if_neg hf, List.nil_append, lineNumber_digits _ ht, h]

theorem DecimalField.mem_render {f : DecimalField} {b : UInt8} (h : b ∈ f.render) :
    b = 45 ∨ isDigit b = true := by
  rcases List.mem_append.mp h with h | h
  · split at h
    · exact .inl (List.mem_singleton.mp h)
    · cases h
  · exact .inr (f.digits.digit b h)

namespace StatLine

variable (l : StatLine)

theorem mem_words {word : Text} (h : word ∈ l.words) :
    word ≠ [] ∧ space ∉ word ∧ parenClose ∉ word := by
  rcases List.mem_cons.mp h with rfl | h
  · have hs := l.isLetter
    refine ⟨List.cons_ne_nil _ _, fun hm => ?_, fun hm => ?_⟩
    · rw [← List.mem_singleton.mp hm] at hs
      revert hs
      decide
    · rw [← List.mem_singleton.mp hm] at hs
      revert hs
      decide
  · obtain ⟨f, -, rfl⟩ := List.mem_map.mp h
    refine ⟨List.append_ne_nil_of_right_ne_nil _ f.digits.ne_nil, fun hm => ?_, fun hm => ?_⟩
    · rcases f.mem_render hm with h | h
      · cases h
      · cases h
    · rcases f.mem_render hm with h | h
      · cases h
      · cases h

theorem mem_ending {b : UInt8} (h : b ∈ l.ending) : b = newline := by
  unfold ending at h
  split at h
  · exact List.mem_singleton.mp h
  · cases h

theorem parenClose_notMem :
    parenClose ∉ space :: (List.intercalate [space] l.words ++ l.ending) := by
  intro h
  rcases List.mem_cons.mp h with h | h
  · cases h
  rcases List.mem_append.mp h with h | h
  · rcases mem_intercalate h with h | ⟨word, hw, h⟩
    · cases h
    · exact (l.mem_words hw).2.2 h
  · cases l.mem_ending h

theorem tokens_tail (l : StatLine) :
    ∃ init last, l.words = init ++ [last] ∧
      tokens space (List.intercalate [space] l.words ++ l.ending) = init ++ [last ++ l.ending] := by
  rcases List.eq_nil_or_concat l.words with h | ⟨init, last, h⟩
  · cases h
  · rw [List.concat_eq_append] at h
    refine ⟨init, last, h, ?_⟩
    rw [h]
    refine tokens_concat (fun word hm => ?_) fun hm => ?_
    · have hw := l.mem_words (h ▸ hm)
      exact ⟨hw.1, hw.2.1⟩
    · cases l.mem_ending hm

theorem getElem?_tail {i : Nat} {f : DecimalField} (hf : l.fields[i]? = some f) :
    ∃ t, (∀ b ∈ t.head?, isDigit b = false) ∧
      (tokens space (List.intercalate [space] l.words ++ l.ending))[i + 1]? =
        some (f.render ++ t) := by
  obtain ⟨init, last, hw, ht⟩ := l.tokens_tail
  have hi : l.words[i + 1]? = some f.render := by
    rw [words, List.getElem?_cons_succ, List.getElem?_map, hf,
      Option.map_some]
  rw [hw] at hi
  rw [ht]
  by_cases hlt : i + 1 < init.length
  · refine ⟨[], by simp, ?_⟩
    rw [List.getElem?_append_left hlt] at hi ⊢
    rw [hi, List.append_nil]
  · have hle := Nat.le_of_not_lt hlt
    have he : i + 1 - init.length = 0 := by
      obtain ⟨hlen, -⟩ := List.getElem?_eq_some_iff.mp hi
      rw [List.length_append, List.length_singleton] at hlen
      omega
    refine ⟨l.ending, fun b hb => ?_, ?_⟩
    · rw [l.mem_ending (List.mem_of_mem_head? hb)]
      rfl
    · rw [List.getElem?_append_right hle, he] at hi ⊢
      have hl : last = f.render := by simpa using hi
      rw [hl]
      rfl

theorem readAt_tail {i n : Nat} {f : DecimalField} (hf : l.fields[i]? = some f)
    (hn : f.natural = some n) (hlt : n < 18446744073709551616) :
    ∃ field,
      readAt (tokens space (List.intercalate [space] l.words ++ l.ending)) (i + 1) = .ok field ∧
        parseUnsigned field = some (UInt64.ofNat n) := by
  obtain ⟨t, ht, hi⟩ := l.getElem?_tail hf
  exact ⟨f.render ++ t, by rw [readAt, hi], f.parse_natural hn hlt ht⟩

theorem length_tail :
    (tokens space (List.intercalate [space] l.words ++ l.ending)).length = l.fields.length + 1 := by
  obtain ⟨init, last, hw, ht⟩ := l.tokens_tail
  have hlen := congrArg List.length hw
  rw [words, List.length_cons, List.length_map, List.length_append] at hlen
  rw [ht, List.length_append, hlen]
  rfl

theorem statValues_tail :
    statValues (tokens space (List.intercalate [space] l.words ++ l.ending)) =
      .ok (some ⟨UInt64.ofNat (l.utime + l.stime), UInt64.ofNat l.starttime⟩) := by
  have hlen := l.length_fields
  have hcpu := l.cpu_lt
  have h14 : l.fields[10]? = some l.fields[14 - 4] := List.getElem?_eq_getElem _
  have h15 : l.fields[11]? = some l.fields[15 - 4] := List.getElem?_eq_getElem _
  have h22 : l.fields[18]? = some l.fields[22 - 4] := List.getElem?_eq_getElem _
  obtain ⟨user, hu, hun⟩ := l.readAt_tail h14 l.field14 (by omega)
  obtain ⟨system, hs, hsn⟩ := l.readAt_tail h15 l.field15 (by omega)
  obtain ⟨start, ht, htn⟩ := l.readAt_tail h22 l.field22 l.starttime_lt
  rw [statValues, if_neg (by rw [l.length_tail]; omega), hu, hs, ht]
  simp only [Except.bind, Except.map, hun, hsn, htn, Option.bind_some, Option.map_some,
    UInt64.ofNat_add]

end StatLine

/-- Parsing inverts the kernel's format for every name of the command, and parsing
any text at all ends without a read outside it. -/
theorem parseProcStat_inverts :
    (∀ (l : StatLine) (fuel : Nat), l.render.length < fuel →
      ∃ values, parseProcStat fuel l.render = .ok (some values) ∧
        values.cpuTicks.toNat = l.utime + l.stime ∧ values.startTicks.toNat = l.starttime) ∧
    ∀ (contents : Text) (fuel : Nat), contents.length < fuel →
      ∃ values, parseProcStat fuel contents = .ok values := by
  refine ⟨fun l fuel h => ?_, fun contents fuel h => parseProcStat_ok h⟩
  refine ⟨⟨UInt64.ofNat (l.utime + l.stime), UInt64.ofNat l.starttime⟩, ?_,
    UInt64.toNat_ofNat_of_lt' l.cpu_lt, UInt64.toNat_ofNat_of_lt' l.starttime_lt⟩
  have hcut : l.render = (l.pid.bytes ++ text " (" ++ l.comm) ++
      parenClose :: space :: (List.intercalate [space] l.words ++ l.ending) := by
    rw [StatLine.render, show text ") " = [parenClose, space] from rfl]
    simp
  have hlen := congrArg List.length hcut
  generalize l.pid.bytes ++ text " (" ++ l.comm = pre at hcut hlen
  have hne : List.intercalate [space] l.words ++ l.ending ≠ [] := by
    intro he
    have := l.length_tail
    rw [he, tokens_nil] at this
    cases this
  have hpos := List.length_pos_of_ne_nil hne
  rw [List.length_append, List.length_cons, List.length_cons] at hlen
  rw [parseProcStat, hcut, rfind_append l.parenClose_notMem]
  dsimp only
  rw [if_neg (by rw [← hcut]; omega), ← List.drop_drop, List.drop_left]
  change (splitFields (List.intercalate [space] l.words ++ l.ending) fuel 0 []).bind statValues = _
  rw [splitFields_eq (by omega), List.drop_zero, List.nil_append]
  exact l.statValues_tail

/-- A command that calls itself `a) S 1`, and exactly the fields that are needed. -/
def StatLine.nested : StatLine where
  pid := .ofNat 7
  comm := text "a) S 1"
  state := 83
  fields := .replicate 10 ⟨true, .ofNat 1⟩ ++ .replicate 9 ⟨false, .ofNat 2⟩
  endsLine := true
  utime := 2
  stime := 2
  starttime := 2
  isLetter := by decide
  length_fields := by decide
  field14 := rfl
  field15 := rfl
  field22 := rfl
  cpu_lt := by decide
  starttime_lt := by decide

theorem parseProcStat_inverts_nested :
    (∃ values, parseProcStat 100 StatLine.nested.render = .ok (some values) ∧
      values.cpuTicks.toNat = 4 ∧ values.startTicks.toNat = 2) ∧
    ∃ values, parseProcStat 2 [parenClose] = .ok values :=
  ⟨parseProcStat_inverts.1 StatLine.nested 100 (by decide),
    parseProcStat_inverts.2 [parenClose] 2 (by decide)⟩

end Peepbooth
