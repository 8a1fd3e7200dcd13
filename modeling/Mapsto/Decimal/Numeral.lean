import Mapsto.Text.Numeric

/-!
# `Mapsto.Decimal.Numeral` — numbers read from text

Three kinds of numbers are read: counts, integers and decimals. All are made of ASCII digits, a sign is
written in front, and nothing else may stand before or behind. Counts and integers are read exactly and
then held against the range of the machine word they have to fit into; a decimal becomes the nearest
double, which for a very large one is infinity.
-/

namespace Mapsto.Decimal

open Text

/-- The number that digits denote. -/
def digitsValue (cs : List Char) : Nat :=
  cs.foldl (fun n c => 10 * n + (c.toNat - '0'.toNat)) 0

/-- The number that a text of digits denotes; at least one is needed. -/
def digits? (cs : List Char) : Option Nat :=
  if cs ≠ [] ∧ cs.all isDigit = true then some (digitsValue cs) else none

/-- Takes a sign off: whether it was a minus, and what follows it. -/
def sign : List Char → Bool × List Char
  | '-' :: cs => (true, cs)
  | '+' :: cs => (false, cs)
  | cs => (false, cs)

/-- The 64-bit integer of a value, if the value is in range. -/
def integer? (n : Int) : Option Int64 :=
  if Int64.minValue.toInt ≤ n ∧ n ≤ Int64.maxValue.toInt then some (Int64.ofInt n) else none

/-- Reads an integer: a sign if wanted, then digits. -/
def readInteger (text : String) : Option Int64 :=
  let (negative, cs) := sign text.toList
  match digits? cs with
  | some n => integer? (if negative then -(n : Int) else n)
  | none => none

/-- Reads a count, which fits into 64 bits: a plus if wanted, then digits. -/
def readCount (text : String) : Option Nat :=
  let cs := match text.toList with
    | '+' :: cs => cs
    | cs => cs
  match digits? cs with
  | some n => if n < UInt64.size then some n else none
  | none => none

/-- Reads the exponent of a decimal: nothing, or `e`, a sign if wanted, and digits. -/
def exponent? : List Char → Option Int
  | [] => some 0
  | c :: cs =>
    if c = 'e' ∨ c = 'E' then
      let (negative, ds) := sign cs
      (digits? ds).map fun n => if negative then -(n : Int) else n
    else none

/-- The double nearest to `digits · 10^exponent`. -/
def nearest (digits : Nat) (exponent : Int) : Float :=
  if 0 ≤ exponent then Float.ofScientific digits false exponent.toNat
  else Float.ofScientific digits true (-exponent).toNat

/-- Reads a decimal: a sign if wanted, digits with a point before, among or behind them, an exponent if
wanted. -/
def readDecimal (text : String) : Option Float :=
  let (negative, cs) := sign text.toList
  let whole := cs.takeWhile isDigit
  match cs.dropWhile isDigit with
  | '.' :: rest =>
    let places := rest.takeWhile isDigit
    if whole = [] ∧ places = [] then none
    else
      (exponent? (rest.dropWhile isDigit)).map fun e =>
        let x := nearest (digitsValue (whole ++ places)) (e - places.length)
        if negative then -x else x
  | _ => none

end Mapsto.Decimal
