import Mapsto.Builtin.Apply

/-!
# `Mapsto.Eval` — running programs

An expression is evaluated in an environment; on the way output is written and diagnostics are
recorded. All parts of an expression are evaluated, from left to right, also both branches of a choice.
Names are looked for in the environment first and among the built-ins then.

**Calls.** Functions can call themselves, by being handed to themselves, so evaluation is not recursion
on expressions alone. What bounds it is the number of calls that may be nested: `enter n` evaluates the
body of a function when `n` calls may be open, and hands `enter (n - 1)` to the evaluation of the body,
which is recursion on the body. With no call left, a call fails and its body is not looked at.

**Scope.** Only a binding that is a statement of the program adds a name for what follows. A binding
inside an expression is evaluated and checked, and then forgotten.
-/

namespace Mapsto

/-- The built-ins a program may use, and how many calls it may nest. -/
structure Config where
  builtins : BuiltinTable
  maxCallDepth : Nat

/-- The usual bound on nested calls. -/
def Config.defaultCallDepth : Nat := 256

/-- All built-ins and the usual bound. -/
def Config.standard : Config := ⟨Builtin.all, Config.defaultCallDepth⟩

/-- What running has done so far: what was written, and what went wrong. -/
structure Effects (σ : Type) where
  sink : σ
  diagnostics : Array Diagnostic

/-- A step of running. -/
abbrev Run (σ : Type) := StateM (Effects σ)

variable {σ : Type} [Writable σ]

namespace Eval

/-- How the body of a function is evaluated in the environment of a call. -/
abbrev Enter (σ : Type) := Expr → Environment → Run σ Value

/-- Records a diagnostic; what failed is absent. -/
def report (d : Diagnostic) : Run σ Value := fun s =>
  (.absent, { s with diagnostics := s.diagnostics.push d })

/-- Runs a built-in and records its failure. -/
def callBuiltin (b : Builtin) (arguments : List Value) : Run σ Value := fun s =>
  match b.apply arguments s.sink with
  | (.ok v, sink) => (v, { s with sink := sink })
  | (.error d, sink) => (.absent, { sink := sink, diagnostics := s.diagnostics.push d })

/-- Hands a built-in one more argument, and runs it when that was the last. -/
def collect (b : Builtin) (arguments : List Value) (argument : Value) : Run σ Value :=
  let arguments := arguments ++ [argument]
  if arguments.length < b.arity then pure (.applied b arguments) else callBuiltin b arguments

/-- Calls a value. The parameter is bound for the body only. -/
def apply (enter : Enter σ) (callee argument : Value) : Run σ Value :=
  match callee with
  | .closure parameter body env => enter body (env.extend parameter argument)
  | .builtin b => collect b [] argument
  | .applied b arguments => collect b arguments argument
  | other => report (.notCallable other)

/-- The value of a name. -/
def valueOf (config : Config) (env : Environment) (name : String) : Run σ Value :=
  match env.get? name with
  | some v => pure v
  | none =>
    match config.builtins.lookup? name with
    | some b => pure (.builtin b)
    | none => report (.unknownVariable name)

/-- Applies an operator to two values. -/
def operator (config : Config) (op : Operator) (left right : Value) : Run σ Value :=
  match config.builtins.lookup? op.symbol with
  | some b => callBuiltin b [left, right]
  | none => report (.unknownOperator op)

/-- The value of an expression, given how calls are entered. -/
def expression (config : Config) (enter : Enter σ) : Expr → Environment → Run σ Value
  | .integer n, _ => pure (.integer n)
  | .float x, _ => pure (.float x)
  | .var name, env => valueOf config env name
  | .binding name value, env => do
    let _ ← expression config enter value env
    if env.contains name then report (.redeclaration name) else pure .absent
  | .function parameter body, env => pure (.closure parameter body env)
  | .call callee argument, env => do
    let f ← expression config enter callee env
    let a ← expression config enter argument env
    apply enter f a
  | .binary op left right, env => do
    let l ← expression config enter left env
    let r ← expression config enter right env
    operator config op l r
  | .ifElse condition consequence alternative, env => do
    let c ← expression config enter condition env
    let t ← expression config enter consequence env
    let e ← expression config enter alternative env
    pure (if c.isTruthy then t else e)

/-- Evaluates the body of a function when `n` calls may be nested, this one included. -/
def enter (config : Config) : Nat → Enter σ
  | 0, _, _ => report (.callDepthExceeded config.maxCallDepth)
  | n + 1, body, env => expression config (enter config n) body env

/-- The value of an expression outside of any call. -/
def topLevel (config : Config) (e : Expr) (env : Environment) : Run σ Value :=
  expression config (enter config config.maxCallDepth) e env

/-- Runs one expression of a program: the environment for the next one, and the value. -/
def statement (config : Config) (env : Environment) : Expr → Run σ (Environment × Value)
  | .binding name value => do
    let v ← topLevel config value env
    if env.contains name then
      let failed ← report (.redeclaration name)
      pure (env, failed)
    else pure (env.extend name v, .absent)
  | e => do
    let v ← topLevel config e env
    pure (env, v)

/-- Runs the expressions of a program. The value is that of the last one, or the given one if there is
none. -/
def statements (config : Config) : List Expr → Environment → Value → Run σ (Environment × Value)
  | [], env, v => pure (env, v)
  | e :: rest, env, _ => do
    let (env, v) ← statement config env e
    statements config rest env v

/-- Flushes the output and records a failure. -/
def flush : Run σ Unit := fun s =>
  match Writable.flush s.sink with
  | (.ok _, sink) => ((), { s with sink := sink })
  | (.error e, sink) => ((), { sink := sink, diagnostics := s.diagnostics.push (.output e) })

end Eval

/-- What a program comes to. -/
structure Evaluation where
  /-- The value of the last expression. -/
  value : Value
  /-- The environment after all bindings. -/
  env : Environment
  diagnostics : List Diagnostic

/-- Runs a program in an environment, writing to a sink of any kind. -/
def Program.run (config : Config) (program : Program) (env : Environment) (sink : σ) :
    Evaluation × σ :=
  let run : Run σ (Environment × Value) := do
    let result ← Eval.statements config program env .absent
    Eval.flush
    pure result
  let (result, effects) := run ⟨sink, #[]⟩
  (⟨result.2, result.1, effects.diagnostics.toList⟩, effects.sink)

end Mapsto
