import Mapsto.Proofs.Decimal.Integer
import Mapsto.Proofs.Decimal.Shortest
import Mapsto.Proofs.Lexer.Words

/-!
# `Mapsto.Proofs.Decimal.ReadBack` — doubles that are printed and read again

However its digits are laid out, the text of a positive finite double denotes the decimal that was found for it
(`denotes_write`), if there is a point in it. So reading the text comes upon a decimal that rounds to the double
(`readDecimal_text`). A text without a point, such as `1e16`, is none that `readDecimal` takes.
-/

namespace Mapsto.Decimal

open Text

/-! ## Digits and their value -/

theorem foldl_digits (n : Nat) (cs : List Char) :
    cs.foldl (fun n c => 10 * n + (c.toNat - '0'.toNat)) n = n * 10 ^ cs.length + digitsValue cs := by
  unfold digitsValue
  induction cs generalizing n with
  | nil => simp
  | cons c cs ih =>
      rw [List.foldl_cons, List.foldl_cons, ih, ih (10 * 0 + _), List.length_cons, Nat.pow_succ]
      ring

theorem digitsValue_append (first second : List Char) :
    digitsValue (first ++ second) = digitsValue first * 10 ^ second.length + digitsValue second := by
  rw [digitsValue, List.foldl_append, foldl_digits]
  rfl

theorem digitsValue_zeros (n : Nat) : digitsValue (zeros n) = 0 := by
  induction n with
  | zero => rfl
  | succ n ih => exact ih

theorem digitsValue_zero : digitsValue ['0'] = 0 := rfl

theorem isDigit_of_mem_zeros {n : Nat} {c : Char} (h : c ∈ zeros n) : isDigit c = true := by
  rw [List.eq_of_mem_replicate h]
  rfl

theorem digits?_toDigits (n : Nat) : digits? (Nat.toDigits 10 n) = some n := by
  rw [digits?, if_pos ⟨Nat.toDigits_ne_nil, List.all_eq_true.mpr fun c => isDigit_of_mem_toDigits⟩,
    digitsValue_toDigits]

/-- An integer is written as digits, or as a minus and digits. -/
theorem toList_repr_cases (e : Int) : ∃ n : Nat,
    e = n ∧ (Int.repr e).toList = Nat.toDigits 10 n ∨ e = -n ∧ (Int.repr e).toList = '-' :: Nat.toDigits 10 n := by
  cases e with
  | ofNat n => exact ⟨n, .inl ⟨rfl, Nat.toList_repr⟩⟩
  | negSucc n =>
      refine ⟨n + 1, .inr ⟨rfl, ?_⟩⟩
      rw [Int.repr, String.toList_append, Nat.toList_repr]
      rfl

theorem exponent?_repr (e : Int) : exponent? ('e' :: (Int.repr e).toList) = some e := by
  rw [exponent?, if_pos (.inl rfl)]
  obtain ⟨n, ⟨he, hrepr⟩ | ⟨he, hrepr⟩⟩ := toList_repr_cases e
  · rw [hrepr, sign_of_isDigit fun c => isDigit_of_mem_toDigits, he]
    simp only [digits?_toDigits]
    rfl
  · rw [hrepr, he]
    simp only [sign, digits?_toDigits]
    rfl

theorem point_not_mem_repr (e : Int) : '.' ∉ (Int.repr e).toList := by
  have hdigits : ∀ n, '.' ∉ Nat.toDigits 10 n := fun n hmem => absurd (isDigit_of_mem_toDigits hmem) (by decide)
  obtain ⟨n, ⟨-, hrepr⟩ | ⟨-, hrepr⟩⟩ := toList_repr_cases e
  · rw [hrepr]
    exact hdigits n
  · rw [hrepr]
    exact List.not_mem_cons_of_ne_of_not_mem (by decide) (hdigits n)

/-! ## Texts that denote a decimal -/

/-- The characters are digits and a point among them, maybe with an exponent, that denote `d · 10^k`. -/
def Denotes (cs : List Char) (d : Nat) (k : Int) : Prop :=
  ∃ whole places tail e, cs = whole ++ '.' :: (places ++ tail) ∧ whole ≠ [] ∧
    (∀ c ∈ whole, isDigit c = true) ∧ (∀ c ∈ places, isDigit c = true) ∧ exponent? tail = some e ∧
    (digitsValue (whole ++ places) : ℚ) * 10 ^ (e - places.length) = d * 10 ^ k

theorem zpow_shift (d j : Nat) {e k : Int} (h : j + e = k) : ((d * 10 ^ j : Nat) : ℚ) * 10 ^ e = d * 10 ^ k := by
  rw [← h, zpow_add₀ (by norm_num), zpow_natCast, Nat.cast_mul, Nat.cast_pow, Nat.cast_ofNat, mul_assoc]

section Layout

variable {digits : List Char} (hdigits : ∀ c ∈ digits, isDigit c = true) (hne : digits ≠ [])

include hdigits hne

theorem denotes_positional (k : Int) : Denotes (positional digits k) (digitsValue digits) k := by
  have hzeros : ∀ n, ∀ c ∈ zeros n, isDigit c = true := fun n c => isDigit_of_mem_zeros
  have hzero : ∀ c ∈ ['0'], isDigit c = true := List.forall_mem_singleton.mpr rfl
  unfold positional
  dsimp only
  split
  · -- Zeros between the digits and the point.
    rename_i hk
    refine ⟨digits ++ zeros k.toNat, ['0'], [], 0, by simp, by simp [hne], ?_, hzero, rfl, ?_⟩
    · exact List.forall_mem_append.mpr ⟨hdigits, hzeros _⟩
    · have hvalue : digitsValue (digits ++ zeros k.toNat ++ ['0']) = digitsValue digits * 10 ^ (k.toNat + 1) := by
        rw [digitsValue_append, digitsValue_append, digitsValue_zeros, digitsValue_zero, zeros, List.length_replicate,
          List.length_singleton, Nat.add_zero, Nat.add_zero, Nat.pow_one, Nat.pow_succ, Nat.mul_assoc]
      rw [hvalue]
      exact zpow_shift _ _ (by simp; omega)
  split
  · -- The point among the digits.
    rename_i hk hpoint
    obtain ⟨n, hn⟩ : ∃ n : Nat, n = ((digits.length : Int) + k).toNat := ⟨_, rfl⟩
    rw [← hn]
    have htake : digits.take n ≠ [] := by
      rw [ne_eq, List.take_eq_nil_iff, not_or]
      exact ⟨by omega, hne⟩
    refine ⟨digits.take n, digits.drop n, [], 0, by simp, htake, ?_, ?_, rfl, ?_⟩
    · exact fun c hc => hdigits c (List.mem_of_mem_take hc)
    · exact fun c hc => hdigits c (List.mem_of_mem_drop hc)
    · have hk : (0 : Int) - (digits.drop n).length = k := by
        rw [List.length_drop]
        omega
      rw [List.take_append_drop, hk]
  · -- Zeros between the point and the digits.
    rename_i hk hpoint
    obtain ⟨n, hn⟩ : ∃ n : Nat, n = (-((digits.length : Int) + k)).toNat := ⟨_, rfl⟩
    rw [← hn]
    refine ⟨['0'], zeros n ++ digits, [], 0, by simp, List.cons_ne_nil _ _, hzero, ?_, rfl, ?_⟩
    · exact List.forall_mem_append.mpr ⟨hzeros _, hdigits⟩
    · have hvalue : digitsValue (['0'] ++ (zeros n ++ digits)) = digitsValue digits := by
        rw [digitsValue_append, digitsValue_append, digitsValue_zeros, digitsValue_zero, Nat.zero_mul, Nat.zero_mul,
          Nat.zero_add, Nat.zero_add]
      have hk : (0 : Int) - (zeros n ++ digits).length = k := by
        rw [List.length_append, zeros, List.length_replicate]
        omega
      rw [hvalue, hk]

/-- A single digit is written without a point in front of an exponent. -/
theorem denotes_exponential (k : Int) (hpoint : '.' ∈ exponential digits k) :
    Denotes (exponential digits k) (digitsValue digits) k := by
  obtain ⟨d, rest, rfl⟩ := List.exists_cons_of_ne_nil hne
  obtain ⟨hd, hrest⟩ := List.forall_mem_cons.mp hdigits
  cases rest with
  | nil =>
      have hrepr := point_not_mem_repr (([d].length : Int) + k - 1)
      have hd' : '.' ≠ d := by
        rintro rfl
        exact absurd hd (by decide)
      refine absurd hpoint (List.not_mem_append (mt List.mem_singleton.mp hd') ?_)
      exact List.not_mem_cons_of_ne_of_not_mem (by decide) hrepr
  | cons next rest =>
      refine ⟨[d], next :: rest, _, _, rfl, List.cons_ne_nil _ _, List.forall_mem_singleton.mpr hd, hrest,
        exponent?_repr _, ?_⟩
      have hk : ((d :: next :: rest).length : Int) + k - 1 - (next :: rest).length = k := by
        rw [List.length_cons]
        omega
      rw [hk, List.singleton_append]

end Layout

theorem denotes_write {style : Style} {d : Nat} {k : Int} (hpoint : '.' ∈ style.write d k) :
    Denotes (style.write d k) d k := by
  have hdigits : ∀ c ∈ Nat.toDigits 10 d, isDigit c = true := fun c => isDigit_of_mem_toDigits
  simp only [Style.write, Nat.toList_repr] at hpoint ⊢
  split
  · have hdenotes := denotes_positional hdigits Nat.toDigits_ne_nil k
    rwa [digitsValue_toDigits] at hdenotes
  · rename_i hrange
    rw [if_neg hrange] at hpoint
    have hdenotes := denotes_exponential hdigits Nat.toDigits_ne_nil k hpoint
    rwa [digitsValue_toDigits] at hdenotes

/-! ## Reading -/

theorem sign_cons_of_isDigit {c : Char} (h : isDigit c = true) (cs : List Char) :
    sign (c :: cs) = (false, c :: cs) := by
  unfold sign
  split
  · rename_i heq
    cases heq
    exact absurd h (by decide)
  · rename_i heq
    cases heq
    exact absurd h (by decide)
  · rfl

/-- What follows digits as their exponent does not begin with a digit. -/
theorem head?_of_exponent? {cs : List Char} {e : Int} (h : exponent? cs = some e) :
    ∀ c ∈ cs.head?, isDigit c = false := by
  rintro c hc
  obtain ⟨cs, rfl⟩ := List.head?_eq_some_iff.mp hc
  rw [exponent?] at h
  by_cases hmark : c = 'e' ∨ c = 'E'
  · obtain rfl | rfl := hmark <;> rfl
  · rw [if_neg hmark] at h
    cases h

theorem readDecimal_of_denotes {cs : List Char} {d : Nat} {k : Int} (h : Denotes cs d k) (negative : Bool) :
    ∃ n e, readDecimal ((if negative then "-" else "") ++ String.ofList cs) =
        some (if negative then -nearest n e else nearest n e) ∧ (n : ℚ) * 10 ^ e = d * 10 ^ k := by
  obtain ⟨whole, places, tail, e, rfl, hne, hwhole, hplaces, htail, hvalue⟩ := h
  have hsign : sign (((if negative then "-" else "") ++ String.ofList (whole ++ '.' :: (places ++ tail))).toList) =
      (negative, whole ++ '.' :: (places ++ tail)) := by
    obtain ⟨c, whole, rfl⟩ := List.exists_cons_of_ne_nil hne
    rw [String.toList_append, String.toList_ofList]
    cases negative with
    | false => exact sign_cons_of_isDigit (hwhole c List.mem_cons_self) _
    | true => rfl
  have hpoint : ∀ c ∈ ('.' :: (places ++ tail)).head?, isDigit c = false := by
    rintro c ⟨⟩
    rfl
  obtain ⟨htake, hdrop⟩ := Lexer.takeWhile_append_of_head? hwhole hpoint
  obtain ⟨htake', hdrop'⟩ := Lexer.takeWhile_append_of_head? hplaces (head?_of_exponent? htail)
  refine ⟨digitsValue (whole ++ places), e - places.length, ?_, hvalue⟩
  rw [readDecimal, hsign]
  simp only [htake, hdrop, htake', hdrop', htail, hne, false_and, if_false, Option.map_some]

/-! ## Doubles -/

/-- The exponent field of a double. -/
def exponentField (x : Float) : Nat := x.toBits.toNat / Nat.pow 2 52 % 2048

/-- The fraction field of a double. -/
def fractionField (x : Float) : Nat := x.toBits.toNat % Nat.pow 2 52

/-- Whether the sign of a double is a minus. -/
def isNegative (x : Float) : Bool := x.toBits.toNat / Nat.pow 2 63 == 1

section Text

variable {x : Float} (hfinite : exponentField x < 2047)
  (hpos : ¬(exponentField x = 0 ∧ fractionField x = 0))

include hfinite hpos

/-- **The text of a double** is that of the shortest decimal that rounds to it. -/
theorem text_eq_write (style : Style) :
    ∃ d k, (Rounding.ofFields (exponentField x) (fractionField x)).IsShortest style.tie d k ∧
      style.text x = (if isNegative x then "-" else "") ++ String.ofList (style.write d k) := by
  have hfraction : fractionField x < 2 ^ 52 := Nat.mod_lt _ (by decide)
  obtain ⟨d, k, hfound⟩ : ∃ d k,
      (Rounding.ofFields (exponentField x) (fractionField x)).shortest style.tie = (d, k) := ⟨_, _, rfl⟩
  refine ⟨d, k, (Rounding.ofFields_shortest_eq_iff hfinite hfraction hpos).mp hfound, ?_⟩
  have hnot : exponentField x ≠ 2047 := hfinite.ne
  simp only [exponentField, fractionField] at hfound hnot hpos
  simp only [Style.text, isNegative, if_neg hnot, if_neg hpos, hfound, beq_iff_eq]

/-- **Printing and reading.** A text with a point is read as a decimal that rounds to the double. -/
theorem readDecimal_text {style : Style} (hpoint : '.' ∈ (style.text x).toList) :
    ∃ n e, readDecimal (style.text x) = some (if isNegative x then -nearest n e else nearest n e) ∧
      (n : ℚ) * 10 ^ e ∈ (Rounding.ofFields (exponentField x) (fractionField x)).interval := by
  obtain ⟨d, k, hshortest, htext⟩ := text_eq_write hfinite hpos style
  have hwrite : '.' ∈ style.write d k := by
    rw [htext, String.toList_append, String.toList_ofList, List.mem_append] at hpoint
    refine hpoint.resolve_left ?_
    split <;> decide
  obtain ⟨n, e, hread, hvalue⟩ := readDecimal_of_denotes (denotes_write hwrite) (isNegative x)
  rw [htext]
  exact ⟨n, e, hread, hvalue ▸ hshortest.mem⟩

end Text

end Mapsto.Decimal
