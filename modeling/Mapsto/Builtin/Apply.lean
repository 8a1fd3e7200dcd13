import Mapsto.Diagnostic
import Mapsto.Decimal.Numeral

/-!
# `Mapsto.Builtin.Apply` — what the built-ins do

Arithmetic on two integers is exact or fails: the result is computed without bounds and then has to be
in range. As soon as one operand is a double, both are. Division is always that of doubles.
-/

namespace Mapsto.Builtin

/-- Both operands as numbers. -/
def operands (op : Operator) (left right : Value) : Except Diagnostic (Number × Number) :=
  match left.number?, right.number? with
  | some l, some r => .ok (l, r)
  | _, _ => .error (.operandType op left right)

/-- An integer result, if it is in range. -/
def exact (op : Operator) (l r : Int64) (result : Int) : Except Diagnostic Value :=
  match Decimal.integer? result with
  | some n => .ok (.integer n)
  | none => .error (.integerOverflow op l r)

/-- An operator on two integers. -/
def onIntegers (op : Operator) (l r : Int64) : Except Diagnostic Value :=
  match op with
  | .add => exact op l r (l.toInt + r.toInt)
  | .subtract => exact op l r (l.toInt - r.toInt)
  | .multiply => exact op l r (l.toInt * r.toInt)
  | .divide => .ok (.float (l.toFloat / r.toFloat))
  | .greater => .ok (.boolean (decide (r.toInt < l.toInt)))

/-- An operator on two doubles. -/
def onFloats (op : Operator) (l r : Float) : Value :=
  match op with
  | .add => .float (l + r)
  | .subtract => .float (l - r)
  | .multiply => .float (l * r)
  | .divide => .float (l / r)
  | .greater => .boolean (decide (r < l))

/-- An operator on two values. Nothing is divided by zero. -/
def operate (op : Operator) (left right : Value) : Except Diagnostic Value :=
  match operands op left right with
  | .error d => .error d
  | .ok (l, r) =>
    if op = .divide ∧ (r.toFloat == 0) = true then .error (.divisionByZero left)
    else
      match l, r with
      | .integer m, .integer n => onIntegers op m n
      | l, r => .ok (onFloats op l.toFloat r.toFloat)

/-- A function on reals, at a value. -/
def compute (f : MathFunction) (argument : Value) : Except Diagnostic Value :=
  match argument.number? with
  | none => .error (.argumentType f argument)
  | some number =>
    let x := number.toFloat
    match f with
    | .exp => if x.exp.isFinite then .ok (.float x.exp) else .error (.mathRange f argument)
    | .ln => if x ≤ 0 then .error (.mathDomain f argument) else .ok (.float x.log)
    | .sin => .ok (.float x.sin)
    | .cos => .ok (.float x.cos)

variable {σ : Type} [Writable σ]

/-- Writes a value and an end of line. -/
def printLine (v : Value) (sink : σ) : Except Diagnostic Value × σ :=
  let (result, sink) := Writable.write sink (v.text ++ "\n")
  match result with
  | .ok _ => (.ok .absent, sink)
  | .error e => (.error (.output e), sink)

/-- Runs a built-in on all of its arguments. Only printing uses the sink. -/
def apply (b : Builtin) (arguments : List Value) (sink : σ) : Except Diagnostic Value × σ :=
  match b, arguments with
  | .operator op, [left, right] => (operate op left right, sink)
  | .choice, [condition, consequence, alternative] =>
    (.ok (if condition.isTruthy then consequence else alternative), sink)
  | .print, [v] => printLine v sink
  | .math f, [v] => (compute f v, sink)
  | b, arguments => (.error (.badArity b arguments.length), sink)

/-- What does not print does the same to whatever it could write to, namely nothing. -/
theorem apply_of_not_print {b : Builtin} {arguments : List Value} (h : ¬ ∃ v, b = .print ∧ arguments = [v])
    (sink : σ) : b.apply arguments sink = ((b.apply arguments Sink.unlimited).1, sink) := by
  unfold apply
  split
  · rfl
  · rfl
  · exact absurd ⟨_, rfl, rfl⟩ h
  · rfl
  · rfl

end Mapsto.Builtin
