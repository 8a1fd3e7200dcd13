import Mathlib.Data.List.Forall2
import Mapsto.Diagnostic

/-!
# `Mapsto.Proofs.Value.Alike` — values that no program can tell apart

Two functions with the same text can still differ in the environments they keep. `Alike` relates them
when these environments give alike values to the names that the body uses, and leaves everything else
open; it goes through environments and through the arguments of built-ins. What can be seen of a value
(`Value.appearance`) is the same for alike values, and so is everything the built-ins ask of it.
-/

namespace Mapsto

/-! ## Names -/

/-- The names that an expression uses or binds, unless they are parameters around them. -/
def Expr.freeNames : Expr → List String
  | .integer _ => []
  | .float _ => []
  | .var name => [name]
  | .binding name value => name :: value.freeNames
  | .function parameter body => body.freeNames.filter (· ≠ parameter)
  | .call callee argument => callee.freeNames ++ argument.freeNames
  | .binary _ left right => left.freeNames ++ right.freeNames
  | .ifElse condition consequence alternative =>
    condition.freeNames ++ consequence.freeNames ++ alternative.freeNames

/-! ## What can be seen -/

/-- What a program or its user can see of a value: its kind, its text, and whether it counts as true. -/
structure Value.Appearance where
  kind : Nat
  text : String
  truthy : Bool
deriving DecidableEq

/-- What can be seen of a value. The kind is the number of its constructor. -/
def Value.appearance (v : Value) : Value.Appearance := ⟨v.ctorIdx, v.text, v.isTruthy⟩

/-- What can be seen of a diagnostic: its kind and its message. -/
structure Diagnostic.Appearance where
  kind : Nat
  message : String
deriving DecidableEq

/-- What can be seen of a diagnostic. The kind is the number of its constructor. -/
def Diagnostic.appearance (d : Diagnostic) : Diagnostic.Appearance := ⟨d.ctorIdx, d.message⟩

theorem Diagnostic.appearance_eq {d d' : Diagnostic} (hkind : d.ctorIdx = d'.ctorIdx)
    (hmessage : d.message = d'.message) : d.appearance = d'.appearance := by
  rw [appearance, appearance, hkind, hmessage]

/-! ## Alike values -/

/-- Values that differ at most in what functions keep and never use. -/
inductive Value.Alike : Value → Value → Prop where
  | integer (n : Int64) : Alike (.integer n) (.integer n)
  | float (x : Float) : Alike (.float x) (.float x)
  | boolean (b : Bool) : Alike (.boolean b) (.boolean b)
  | absent : Alike .absent .absent
  | closure {parameter : String} {body : Expr} {env env' : Environment}
      (h : ∀ name ∈ (Expr.function parameter body).freeNames,
        Option.Rel Alike (env.get? name) (env'.get? name)) :
      Alike (.closure parameter body env) (.closure parameter body env')
  | builtin (b : Builtin) : Alike (.builtin b) (.builtin b)
  | applied (b : Builtin) {arguments arguments' : List Value}
      (h : List.Forall₂ Alike arguments arguments') : Alike (.applied b arguments) (.applied b arguments')

/-- Two environments give alike values to some names, or none. -/
def Environment.AgreeOn (names : List String) (env env' : Environment) : Prop :=
  ∀ name ∈ names, Option.Rel Value.Alike (env.get? name) (env'.get? name)

namespace Value

mutual

theorem Alike.refl : (v : Value) → Alike v v
  | .integer n => .integer n
  | .float x => .float x
  | .boolean b => .boolean b
  | .absent => .absent
  | .closure _ _ env => .closure fun name _ => get?_alike env name
  | .builtin b => .builtin b
  | .applied b arguments => .applied b (forall₂_alike arguments)

theorem get?_alike : (env : Environment) → (name : String) → Option.Rel Alike (env.get? name)
    (env.get? name)
  | .empty, _ => .none
  | .extend env n v, name => by
      unfold Environment.get?
      split
      · exact .some (Alike.refl v)
      · exact get?_alike env name

theorem forall₂_alike : (vs : List Value) → List.Forall₂ Alike vs vs
  | [] => .nil
  | v :: vs => .cons (Alike.refl v) (forall₂_alike vs)

end

mutual

theorem Alike.text_eq : {v v' : Value} → Alike v v' → v.text = v'.text
  | _, _, .integer _ => rfl
  | _, _, .float _ => rfl
  | _, _, .boolean _ => rfl
  | _, _, .absent => rfl
  | _, _, .closure _ => rfl
  | _, _, .builtin _ => rfl
  | _, _, .applied b h => congrArg (b.text ++ ·) (argumentsText_eq h)

theorem argumentsText_eq : {vs vs' : List Value} → List.Forall₂ Alike vs vs' →
    argumentsText vs = argumentsText vs'
  | _, _, .nil => rfl
  | _, _, .cons h hs => by
      simp only [argumentsText]
      rw [Alike.text_eq h, argumentsText_eq hs]

end

theorem Alike.isTruthy_eq {v v' : Value} (h : Alike v v') : v.isTruthy = v'.isTruthy := by
  cases h <;> rfl

theorem Alike.typeName_eq {v v' : Value} (h : Alike v v') : v.typeName = v'.typeName := by
  cases h <;> rfl

theorem Alike.number?_eq {v v' : Value} (h : Alike v v') : v.number? = v'.number? := by
  cases h <;> rfl

/-- Alike conditions pick alike values. -/
theorem Alike.ite {c c' t t' e e' : Value} (hc : Alike c c') (ht : Alike t t') (he : Alike e e') :
    Alike (if c.isTruthy then t else e) (if c'.isTruthy then t' else e') := by
  rw [hc.isTruthy_eq]
  split
  · exact ht
  · exact he

/-- Nothing that can be seen tells alike values apart. -/
theorem Alike.appearance_eq {v v' : Value} (h : Alike v v') : v.appearance = v'.appearance := by
  unfold appearance
  have hkind : v.ctorIdx = v'.ctorIdx := by cases h <;> rfl
  rw [hkind, h.text_eq, h.isTruthy_eq]

end Value

/-! ## Environments -/

namespace Environment

variable {names names' : List String} {env env' : Environment}

theorem AgreeOn.mono (h : AgreeOn names env env') (hsub : names' ⊆ names) : AgreeOn names' env env' :=
  fun name hname => h name (hsub hname)

theorem agreeOn_of_get?_eq (h : ∀ name ∈ names, env.get? name = env'.get? name) :
    AgreeOn names env env' := by
  intro name hname
  rw [h name hname]
  exact Value.get?_alike env' name

theorem isSome_eq_of_rel {v v' : Option Value} (h : Option.Rel Value.Alike v v') :
    v.isSome = v'.isSome := by
  cases h <;> rfl

theorem AgreeOn.contains_eq (h : AgreeOn names env env') {name : String} (hname : name ∈ names) :
    env.contains name = env'.contains name := by
  rw [contains_eq_isSome, contains_eq_isSome]
  exact isSome_eq_of_rel (h name hname)

/-- A call binds the parameter; the other names of the body are those the function keeps. -/
theorem AgreeOn.extend_parameter {parameter : String} {body : Expr} {v v' : Value}
    (h : AgreeOn (Expr.function parameter body).freeNames env env') (hv : v.Alike v') :
    AgreeOn body.freeNames (env.extend parameter v) (env'.extend parameter v') := by
  intro name hname
  by_cases heq : parameter = name
  · subst heq
    rw [get?_extend_self, get?_extend_self]
    exact .some hv
  -- Another name of the body is a free name of the function.
  · rw [get?_extend_of_ne env v heq, get?_extend_of_ne env' v' heq]
    refine h name (List.mem_filter.mpr ⟨hname, ?_⟩)
    simpa using fun hname => heq hname.symm

/-- A new name gets alike values; the others keep theirs. -/
theorem AgreeOn.extend {n : String} {v v' : Value} (h : AgreeOn names env env') (hv : v.Alike v') :
    AgreeOn names (env.extend n v) (env'.extend n v') := by
  intro name hname
  by_cases heq : n = name
  · subst heq
    rw [get?_extend_self, get?_extend_self]
    exact .some hv
  · rw [get?_extend_of_ne env v heq, get?_extend_of_ne env' v' heq]
    exact h name hname

end Environment

end Mapsto
