import Mapsto.Expr

/-!
# `Mapsto.Builtin` — the operations every program starts with

A built-in takes a fixed number of arguments, one call at a time, and runs when it has them all. The
operators are built-ins too: an operator sign in a program stands for the built-in of that name.
-/

namespace Mapsto

/-- The functions on reals. -/
inductive MathFunction where
  | exp
  | ln
  | sin
  | cos
deriving DecidableEq

/-- The name of a function on reals. -/
def MathFunction.name : MathFunction → String
  | exp => "exp"
  | ln => "ln"
  | sin => "sin"
  | cos => "cos"

/-- A built-in operation. -/
inductive Builtin where
  | operator (op : Operator)
  /-- Picks the second or the third argument by the first. -/
  | choice
  /-- Writes its argument out. -/
  | print
  | math (f : MathFunction)
deriving DecidableEq

namespace Builtin

/-- The name a built-in is called by. -/
def name : Builtin → String
  | operator op => op.symbol
  | choice => "if"
  | print => "print"
  | math f => f.name

/-- The number of arguments a built-in takes before it runs. -/
def arity : Builtin → Nat
  | operator _ => 2
  | choice => 3
  | print => 1
  | math _ => 1

/-- The text of a built-in as a value. -/
def text (b : Builtin) : String :=
  "<builtin " ++ b.name ++ ">"

/-- All built-ins. -/
def all : List Builtin :=
  [.operator .add, .operator .subtract, .operator .multiply, .operator .divide, .operator .greater,
   .choice, .print, .math .exp, .math .ln, .math .sin, .math .cos]

end Builtin

/-- The built-ins that a program may use. -/
abbrev BuiltinTable := List Builtin

/-- The built-in of a name, if the table has it. -/
def BuiltinTable.lookup? (table : BuiltinTable) (name : String) : Option Builtin :=
  table.find? fun b => b.name == name

end Mapsto
