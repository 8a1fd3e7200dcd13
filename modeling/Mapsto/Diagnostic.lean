import Mapsto.Value.Printer
import Mapsto.Sink

/-!
# `Mapsto.Diagnostic` — what goes wrong while a program runs

No diagnostic stops a program: the expression that failed is absent, and the rest goes on.
-/

namespace Mapsto

/-- What can go wrong while a program runs. -/
inductive Diagnostic where
  /-- A name is bound neither in the environment nor as a built-in. -/
  | unknownVariable (name : String)
  /-- A name that has a value is bound again. -/
  | redeclaration (name : String)
  /-- An operand is not a number. -/
  | operandType (op : Operator) (left right : Value)
  /-- The result of integer arithmetic is out of range. -/
  | integerOverflow (op : Operator) (left right : Int64)
  /-- The argument of a function on reals is not a number. -/
  | argumentType (f : MathFunction) (argument : Value)
  /-- A function on reals is not defined at its argument. -/
  | mathDomain (f : MathFunction) (argument : Value)
  /-- The result of a function on reals is not finite. -/
  | mathRange (f : MathFunction) (argument : Value)
  | divisionByZero (left : Value)
  /-- A built-in runs with a number of arguments that it does not take. -/
  | badArity (b : Builtin) (got : Nat)
  /-- Something that is no function is called. -/
  | notCallable (v : Value)
  /-- The table of built-ins has none for an operator. -/
  | unknownOperator (op : Operator)
  /-- Too many calls are nested. -/
  | callDepthExceeded (limit : Nat)
  | output (e : SinkError)

/-- The wording of a diagnostic. -/
def Diagnostic.message : Diagnostic → String
  | unknownVariable name => "Unknown variable: " ++ name
  | redeclaration name => "Redeclaration of variable: " ++ name
  | operandType op left right =>
    "unsupported operand type(s) for " ++ op.symbol ++ ": `" ++ left.typeName ++ "` (" ++ left.text ++
      ") and `" ++ right.typeName ++ "` (" ++ right.text ++ ")"
  | integerOverflow op left right =>
    "integer overflow in " ++ Int.repr left.toInt ++ " " ++ op.symbol ++ " " ++ Int.repr right.toInt
  | argumentType f argument =>
    "unsupported argument type for " ++ f.name ++ " function: `" ++ argument.typeName ++ "` (" ++
      argument.text ++ ")"
  | mathDomain f argument => "math domain error: " ++ f.name ++ "(" ++ argument.text ++ ")"
  | mathRange f argument => "math range error: " ++ f.name ++ "(" ++ argument.text ++ ")"
  | divisionByZero left => "division by zero: " ++ left.text ++ " / 0"
  | badArity b got =>
    b.name ++ " expected " ++ Nat.repr b.arity ++ " argument(s) but got " ++ Nat.repr got
  | notCallable v => v.text ++ " is not a function"
  | unknownOperator op => "no builtin registered for operator " ++ op.symbol
  | callDepthExceeded limit => "maximum call depth of " ++ Nat.repr limit ++ " exceeded"
  | output e => "could not write output: " ++ e.message

end Mapsto
