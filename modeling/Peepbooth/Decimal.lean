import Peepbooth.CommandLine
import Mathlib.Data.List.TakeWhile

/-! Decimal numbers as texts, and their reading by `from_chars`. -/

namespace Peepbooth

/-- The digits of a number, leading zeros included. -/
structure Digits where
  bytes : Text
  ne_nil : bytes ≠ []
  digit : ∀ d ∈ bytes, isDigit d = true

namespace Digits

def value (d : Digits) : Nat := decimalValue d.bytes

theorem digitChar_digit {k : Nat} (h : k < 10) :
    isDigit (UInt8.ofNat k.digitChar.toNat) = true ∧
      (UInt8.ofNat k.digitChar.toNat).toNat - 48 = k := by
  have hall : ∀ j : Fin 10, isDigit (UInt8.ofNat j.val.digitChar.toNat) = true ∧
      (UInt8.ofNat j.val.digitChar.toNat).toNat - 48 = j.val := by decide
  exact hall ⟨k, h⟩

/-- The decimal text of a number, one digit longer than that of its tenth. -/
theorem text_toString (n : Nat) :
    text (toString n) =
      (if n < 10 then [] else text (toString (n / 10))) ++
        [UInt8.ofNat (n % 10).digitChar.toNat] := by
  have h (m : Nat) : text (toString m) = (Nat.toDigits 10 m).map fun c => UInt8.ofNat c.toNat := by
    rw [text, Nat.toString_eq_repr, Nat.toList_repr]
  rw [h, h, Nat.toDigits_eq_if (by decide)]
  split
  · next hn => rw [Nat.mod_eq_of_lt hn]; rfl
  · rw [List.map_append]; rfl

theorem decimalValue_concat (l : Text) (d : UInt8) :
    decimalValue (l ++ [d]) = 10 * decimalValue l + (d.toNat - 48) := by
  rw [decimalValue, List.foldl_append]
  rfl

/-- The number written without leading zeros. -/
def ofNat (n : Nat) : Digits where
  bytes := text (toString n)
  ne_nil := by
    rw [text_toString]
    exact List.append_ne_nil_of_right_ne_nil _ (List.cons_ne_nil _ _)
  digit := by
    induction n using Nat.strongRecOn with
    | ind n ih =>
      intro d hd
      rw [text_toString] at hd
      rcases List.mem_append.mp hd with hd | hd
      · split at hd
        · cases hd
        · exact ih (n / 10) (by omega) d hd
      · rw [List.mem_singleton.mp hd]
        exact (digitChar_digit (Nat.mod_lt n (by decide))).1

theorem value_ofNat (n : Nat) : (ofNat n).value = n := by
  change decimalValue (text (toString n)) = n
  induction n using Nat.strongRecOn with
  | ind n ih =>
    rw [text_toString, decimalValue_concat, (digitChar_digit (Nat.mod_lt n (by decide))).2]
    split
    · simp [decimalValue]
      omega
    · rw [ih (n / 10) (by omega)]
      omega

theorem ofNat_inj {m n : Nat} (h : (ofNat m).bytes = (ofNat n).bytes) : m = n := by
  have hv : (ofNat m).value = (ofNat n).value := congrArg decimalValue h
  rwa [value_ofNat, value_ofNat] at hv

theorem notMem_bytes (d : Digits) {c : UInt8} (hc : isDigit c = false) : c ∉ d.bytes := by
  intro h
  rw [d.digit c h] at hc
  cases hc

theorem takeWhile_bytes (d : Digits) : d.bytes.takeWhile isDigit = d.bytes :=
  List.takeWhile_eq_self_iff.mpr d.digit

theorem dropWhile_bytes (d : Digits) : d.bytes.dropWhile isDigit = [] :=
  List.dropWhile_eq_nil_iff.mpr d.digit

theorem head?_bytes (d : Digits) : d.bytes.head? ≠ some 45 := by
  intro h
  cases d.digit 45 (List.mem_of_mem_head? h)

theorem fromChars_bytes (d : Digits) {lo hi : Int} (hl : lo ≤ 0) (hh : d.value ≤ hi) :
    fromChars lo hi d.bytes = (some (d.value : Int), []) := by
  have hn : (decide (lo < 0) && decide (d.bytes.head? = some 45)) = false := by
    simp [d.head?_bytes]
  have hr : lo ≤ (d.value : Int) ∧ (d.value : Int) ≤ hi := by omega
  rw [fromChars]
  simp only [hn, Bool.false_eq_true, if_false, takeWhile_bytes, dropWhile_bytes, if_neg d.ne_nil]
  rw [← value, if_pos hr]

end Digits

/-- A number read to the end of the text without a minus is a text of digits. -/
theorem digits_of_fromChars {lo hi v : Int} {input : Text}
    (h : fromChars lo hi input = (some v, [])) (hv : 0 ≤ lo ∨ 0 < v) :
    ∃ d : Digits, d.bytes = input ∧ (d.value : Int) = v ∧ v ≤ hi := by
  have hle := fromChars_le (congrArg Prod.fst h)
  unfold fromChars at h
  dsimp only at h
  by_cases hm : (decide (lo < 0) && decide (input.head? = some 45)) = true
  · simp only [hm, if_true] at h
    simp only [Bool.and_eq_true, decide_eq_true_eq] at hm
    by_cases hd : input.tail.takeWhile isDigit = []
    · rw [if_pos hd] at h
      cases congrArg Prod.fst h
    · rw [if_neg hd] at h
      have hs := congrArg Prod.fst h
      dsimp only at hs
      split at hs
      · have := Option.some.inj hs
        omega
      · cases hs
  · simp only [hm, Bool.false_eq_true, if_false] at h
    by_cases hd : input.takeWhile isDigit = []
    · rw [if_pos hd] at h
      cases congrArg Prod.fst h
    · rw [if_neg hd] at h
      have hs := congrArg Prod.fst h
      have hall := List.dropWhile_eq_nil_iff.mp (congrArg Prod.snd h)
      have hself := List.takeWhile_eq_self_iff.mpr hall
      rw [hself] at hd hs
      dsimp only at hs
      split at hs
      · exact ⟨⟨input, hd, hall⟩, rfl, Option.some.inj hs, hle.2⟩
      · cases hs

end Peepbooth
