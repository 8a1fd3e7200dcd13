import Mapsto.Decimal.Numeral

/-!
# `Mapsto.Proofs.Decimal.Integer` — integers that are printed and read again

The text of an integer that is not negative is a run of digits (`exists_digits`), and reading it gives the
integer back (`readInteger_repr`). Conversely a run of digits is never read as a negative integer.
-/

namespace Mapsto.Decimal

open Text

/-- The digits of the library are those of the language. -/
theorem isDigit_of_mem_toDigits {n : Nat} {c : Char} (h : c ∈ Nat.toDigits 10 n) : isDigit c = true := by
  have hdigit := Nat.isDigit_of_mem_toDigits (by decide) (by decide) h
  simp only [Char.isDigit, isDigit, Bool.and_eq_true, decide_eq_true_eq] at hdigit ⊢
  exact hdigit

theorem digitsValue_toDigits (n : Nat) : digitsValue (Nat.toDigits 10 n) = n := by
  rw [digitsValue, ← Nat.ofDigitChars_eq_foldl, Nat.ofDigitChars_ten_toDigits]

/-- There is no sign in front of digits. -/
theorem sign_of_isDigit {cs : List Char} (h : ∀ c ∈ cs, isDigit c = true) : sign cs = (false, cs) := by
  unfold sign
  split
  · exact absurd (h '-' List.mem_cons_self) (by decide)
  · exact absurd (h '+' List.mem_cons_self) (by decide)
  · rfl

/-- A run of digits is read as the number it denotes, if that fits. -/
theorem readInteger_ofList {cs : List Char} (hne : cs ≠ []) (h : ∀ c ∈ cs, isDigit c = true) :
    readInteger (String.ofList cs) = integer? (digitsValue cs) := by
  have hdigits : digits? cs = some (digitsValue cs) := if_pos ⟨hne, List.all_eq_true.mpr h⟩
  unfold readInteger
  simp only [String.toList_ofList, sign_of_isDigit h, hdigits]
  rfl

theorem toInt_of_integer? {n : Int} {m : Int64} (h : integer? n = some m) : m.toInt = n := by
  unfold integer? at h
  split at h
  · rename_i hrange
    cases h
    exact Int64.toInt_ofInt_of_le hrange.1 (Int.lt_add_one_of_le hrange.2)
  · cases h

/-- A run of digits is never read as a negative integer. -/
theorem zero_le_toInt_of_readInteger {cs : List Char} {n : Int64} (hne : cs ≠ [])
    (hcs : ∀ c ∈ cs, isDigit c = true) (h : readInteger (String.ofList cs) = some n) : 0 ≤ n.toInt := by
  rw [readInteger_ofList hne hcs] at h
  rw [toInt_of_integer? h]
  exact Int.natCast_nonneg _

/-- The text of an integer that is not negative is a run of digits. -/
theorem exists_digits {n : Int64} (h : 0 ≤ n.toInt) :
    ∃ cs, Int.repr n.toInt = String.ofList cs ∧ cs ≠ [] ∧ (∀ c ∈ cs, isDigit c = true) ∧
      (digitsValue cs : Int) = n.toInt := by
  obtain ⟨m, hm⟩ := Int.eq_ofNat_of_zero_le h
  refine ⟨Nat.toDigits 10 m, ?_, Nat.toDigits_ne_nil, fun c => isDigit_of_mem_toDigits, ?_⟩
  · rw [hm, ← Nat.toList_repr, String.ofList_toList]
    rfl
  · rw [hm, digitsValue_toDigits]

/-- **Printing and reading.** The text of an integer that is not negative is read as the integer. -/
theorem readInteger_repr {n : Int64} (h : 0 ≤ n.toInt) : readInteger (Int.repr n.toInt) = some n := by
  obtain ⟨cs, hcs, hne, hdigits, hvalue⟩ := exists_digits h
  rw [hcs, readInteger_ofList hne hdigits, hvalue]
  have hrange : Int64.minValue.toInt ≤ n.toInt ∧ n.toInt ≤ Int64.maxValue.toInt :=
    ⟨Int64.minValue_le_toInt n, Int64.toInt_le n⟩
  rw [integer?, if_pos hrange, Int64.ofInt_toInt]

end Mapsto.Decimal
