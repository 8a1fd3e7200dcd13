import Mapsto.Expr
import Mapsto.Token
import Mapsto.Decimal.Layout

/-!
# `Mapsto.Expr.Printer` — the text of an expression

Every operator, function and choice is printed in parentheses, so that the text shows the tree without
any rule of precedence. A binding has none around it.
-/

namespace Mapsto

/-- The decimals of a program text are written without an exponent from `0.0001` up to `10^16`; of two
equally near digits the upper one is taken. -/
def Expr.literalStyle : Decimal.Style := ⟨-3, 16, .up⟩

/-- The text of an expression. -/
def Expr.text : Expr → String
  | .integer n => Int.repr n.toInt
  | .float x => literalStyle.text x
  | .var name => name
  | .binding name value => name ++ " " ++ Token.binding.lexeme ++ " " ++ value.text
  | .function parameter body =>
    "(" ++ parameter ++ " " ++ Token.mapsTo.lexeme ++ " " ++ body.text ++ ")"
  | .call callee argument => callee.text ++ "(" ++ argument.text ++ ")"
  | .binary op left right => "(" ++ left.text ++ " " ++ op.symbol ++ " " ++ right.text ++ ")"
  | .ifElse condition consequence alternative =>
    "(if " ++ condition.text ++ " then " ++ consequence.text ++ " else " ++ alternative.text ++ ")"

/-- The text of a program: one expression to a line. -/
def Program.text (program : Program) : String :=
  "\n".intercalate (program.map Expr.text)

end Mapsto
