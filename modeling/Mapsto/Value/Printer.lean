import Mapsto.Value
import Mapsto.Expr.Printer

/-!
# `Mapsto.Value.Printer` — the text of a value

A function is written as in a program, with its parameter and its body; a built-in that waits for more
arguments shows the ones it has.
-/

namespace Mapsto.Value

/-- Doubles are written without an exponent from `0.00001` up to `10^16`; of two equally near digits the
even one is taken. -/
def floatStyle : Decimal.Style := ⟨-4, 16, .toEven⟩

mutual

/-- The text of a value. -/
def text : Value → String
  | integer n => Int.repr n.toInt
  | float x => floatStyle.text x
  | boolean b => if b then "true" else "false"
  | absent => "absent"
  | closure parameter body _ => parameter ++ " " ++ Token.mapsTo.lexeme ++ " " ++ body.text
  | builtin b => b.text
  | applied b arguments => b.text ++ argumentsText arguments

/-- The text of arguments: each in parentheses. -/
def argumentsText : List Value → String
  | [] => ""
  | v :: vs => "(" ++ text v ++ ")" ++ argumentsText vs

end

end Mapsto.Value
