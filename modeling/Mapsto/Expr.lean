/-!
# `Mapsto.Expr` — expression trees

The language has one syntactic class. A function takes one parameter; several are taken one after the
other, by functions that return functions. A binding is an expression too, and a program is a list of
expressions.
-/

namespace Mapsto

/-- The binary operators. -/
inductive Operator where
  | add
  | subtract
  | multiply
  | divide
  | greater
deriving DecidableEq

/-- The sign an operator is written as, which is also the name of the built-in that carries it out. -/
def Operator.symbol : Operator → String
  | add => "+"
  | subtract => "-"
  | multiply => "*"
  | divide => "/"
  | greater => ">"

/-- An expression. -/
inductive Expr where
  | integer (n : Int64)
  | float (x : Float)
  | var (name : String)
  | binding (name : String) (value : Expr)
  | function (parameter : String) (body : Expr)
  | call (callee argument : Expr)
  | binary (op : Operator) (left right : Expr)
  | ifElse (condition consequence alternative : Expr)

/-- The expressions of a source text, in order. -/
abbrev Program := List Expr

/-- The number of nodes on the longest way down a tree. -/
def Expr.height : Expr → Nat
  | .integer _ => 1
  | .float _ => 1
  | .var _ => 1
  | .binding _ value => value.height + 1
  | .function _ body => body.height + 1
  | .call callee argument => max callee.height argument.height + 1
  | .binary _ left right => max left.height right.height + 1
  | .ifElse condition consequence alternative =>
    max (max condition.height consequence.height) alternative.height + 1

theorem Expr.height_pos (e : Expr) : 0 < e.height := by
  cases e <;> exact Nat.succ_pos _

end Mapsto
