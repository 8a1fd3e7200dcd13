import Mapsto.Builtin

/-!
# `Mapsto.Value` — values and environments

Values and environments refer to each other: a function keeps the environment it was made in, and an
environment is a chain of names with their values, the newest first. Nothing is ever changed in place,
so an environment that a function keeps is not touched by later bindings.
-/

namespace Mapsto

mutual

/-- What an expression stands for. -/
inductive Value where
  | integer (n : Int64)
  | float (x : Float)
  | boolean (b : Bool)
  /-- The value of a binding, of printing, and of whatever failed. -/
  | absent
  /-- A function with the environment it was made in. -/
  | closure (parameter : String) (body : Expr) (env : Environment)
  | builtin (b : Builtin)
  /-- A built-in that has got some of its arguments. -/
  | applied (b : Builtin) (arguments : List Value)

/-- Names with their values, the newest first. -/
inductive Environment where
  | empty
  | extend (env : Environment) (name : String) (value : Value)

end

instance : Inhabited Value := ⟨.absent⟩

instance : Inhabited Environment := ⟨.empty⟩

/-! ## Environments -/

namespace Environment

/-- The newest value of a name. -/
def get? : Environment → String → Option Value
  | empty, _ => none
  | extend env n v, name => if n = name then some v else env.get? name

/-- Whether a name has a value. -/
def contains : Environment → String → Bool
  | empty, _ => false
  | extend env n _, name => n == name || env.contains name

/-- The names, the newest first; a name that was bound again stands here again. -/
def names : Environment → List String
  | empty => []
  | extend env n _ => n :: env.names

/-- How many bindings an environment holds. -/
def depth (env : Environment) : Nat := env.names.length

/-- Whether nothing is bound. -/
def isEmpty : Environment → Bool
  | empty => true
  | extend _ _ _ => false

theorem contains_eq_isSome (env : Environment) (name : String) :
    env.contains name = (env.get? name).isSome := by
  match env with
  | empty => rfl
  | extend env n v =>
    by_cases h : n = name <;> simp [contains, get?, h, contains_eq_isSome env name]

@[simp] theorem get?_extend_self (env : Environment) (name : String) (v : Value) :
    (env.extend name v).get? name = some v := by
  simp [get?]

theorem get?_extend_of_ne (env : Environment) {n name : String} (v : Value) (h : n ≠ name) :
    (env.extend n v).get? name = env.get? name := by
  simp [get?, h]

end Environment

/-! ## Numbers -/

/-- An operand of arithmetic. -/
inductive Number where
  | integer (n : Int64)
  | float (x : Float)

/-- The double nearest to a number. -/
def Number.toFloat : Number → Float
  | integer n => n.toFloat
  | float x => x

namespace Value

/-- A value as an operand of arithmetic. Truth values count as `0` and `1`. -/
def number? : Value → Option Number
  | integer n => some (.integer n)
  | float x => some (.float x)
  | boolean b => some (.integer (if b then 1 else 0))
  | _ => none

/-- Whether a value counts as true. Zero, falsehood and absence do not. -/
def isTruthy : Value → Bool
  | integer n => n != 0
  | float x => x != 0
  | boolean b => b
  | absent => false
  | closure _ _ _ => true
  | builtin _ => true
  | applied _ _ => true

/-- Whether a value is absent. -/
def isAbsent : Value → Bool
  | absent => true
  | _ => false

/-- The name of a value's type. -/
def typeName : Value → String
  | integer _ => "integer"
  | float _ => "float"
  | boolean _ => "boolean"
  | absent => "absent"
  | closure _ _ _ => "function"
  | builtin _ => "builtin"
  | applied _ _ => "builtin"

/-! ## Equality

Values of different kinds are different, also when they are equal as numbers. Doubles are compared as
numbers: the two zeros are equal, and what is not a number differs from itself. Functions are not
compared. -/

mutual

/-- Whether two values are equal. -/
def same : Value → Value → Bool
  | integer m, integer n => m == n
  | float x, float y => x == y
  | boolean a, boolean b => a == b
  | absent, absent => true
  | builtin b, builtin c => b == c
  | applied b xs, applied c ys => b == c && sameAll xs ys
  | _, _ => false

/-- Whether two lists hold equal values in the same order. -/
def sameAll : List Value → List Value → Bool
  | [], [] => true
  | x :: xs, y :: ys => same x y && sameAll xs ys
  | _, _ => false

end

end Value

end Mapsto
