import Mapsto.Decimal.Shortest

/-!
# `Mapsto.Decimal.Layout` — the text of a double

The digits come from `Mapsto.Decimal.Shortest`; a `Style` says how they are laid out. Within its range
of magnitudes a number is written with a point and at least one digit after it; outside it is written
as a digit, maybe a point and more digits, and an exponent.
-/

namespace Mapsto.Decimal

/-- How doubles are laid out. The bounds concern the place of the point: the number of digits in front of
it, or, at or below zero, of zeros behind it. -/
structure Style where
  /-- The least place of the point without an exponent. -/
  least : Int
  /-- The greatest place of the point without an exponent. -/
  greatest : Int
  tie : Tie

/-- `n` zeros. -/
def zeros (n : Nat) : List Char := List.replicate n '0'

/-- The text of `d · 10^k` without an exponent. -/
def positional (digits : List Char) (k : Int) : List Char :=
  let point := (digits.length : Int) + k
  if 0 ≤ k then digits ++ zeros k.toNat ++ ['.', '0']
  else if 0 < point then digits.take point.toNat ++ '.' :: digits.drop point.toNat
  else '0' :: '.' :: zeros (-point).toNat ++ digits

/-- The text of `d · 10^k` with one digit in front of the point and an exponent. -/
def exponential (digits : List Char) (k : Int) : List Char :=
  let exponent := (digits.length : Int) + k - 1
  let mantissa :=
    match digits with
    | [] => []
    | [d] => [d]
    | d :: rest => d :: '.' :: rest
  mantissa ++ 'e' :: (Int.repr exponent).toList

/-- The text of a positive decimal. -/
def Style.write (style : Style) (d : Nat) (k : Int) : List Char :=
  let digits := (Nat.repr d).toList
  let point := (digits.length : Int) + k
  if style.least ≤ point ∧ point ≤ style.greatest then positional digits k
  else exponential digits k

/-- The text of a double. A number that is none has no sign. -/
def Style.text (style : Style) (x : Float) : String :=
  let bits := x.toBits.toNat
  let exponent := bits / Nat.pow 2 52 % 2048
  let fraction := bits % Nat.pow 2 52
  let sign := if bits / Nat.pow 2 63 = 1 then "-" else ""
  if exponent = 2047 then
    if fraction = 0 then sign ++ "inf" else "NaN"
  else if exponent = 0 ∧ fraction = 0 then sign ++ "0.0"
  else
    let (d, k) := (Rounding.ofFields exponent fraction).shortest style.tie
    sign ++ String.ofList (style.write d k)

end Mapsto.Decimal
