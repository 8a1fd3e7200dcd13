import Mapsto.Proofs.Eval.Growth

/-!
# `Mapsto.Proofs.Eval.Curried` — operators and choices as calls

An operator sign stands for a built-in, and so does a choice; both can be called by names that are bound to
these built-ins, one argument at a time. `Expr.curried` writes an expression in this way, functions apart,
whose bodies are evaluated in other environments. Both ways of writing it come to the same
(`Eval.expression_eq_curried`): the calls evaluate the same operands in the same order, a built-in that waits
for more arguments does nothing, and none of these calls counts as an open one.

In a program the environment grows from one statement to the next. The names of the built-ins keep their
values in it, because no statement binds a name again; so whole programs may be written in this way as well
(`Program.run_curried`).
-/

namespace Mapsto

/-- Names to call operators and choices by. -/
structure Naming where
  operator : Operator → String
  choice : String

/-- The names are bound to the built-ins of operators and of choices. -/
structure Environment.Binds (env : Environment) (names : Naming) : Prop where
  operator (op : Operator) : env.get? (names.operator op) = some (.builtin (.operator op))
  choice : env.get? names.choice = some (.builtin .choice)

/-- The expression with calls in the place of operators and choices, but for those in functions. -/
def Expr.curried (names : Naming) : Expr → Expr
  | .binding name value => .binding name (value.curried names)
  | .call callee argument => .call (callee.curried names) (argument.curried names)
  | .binary op left right =>
    .call (.call (.var (names.operator op)) (left.curried names)) (right.curried names)
  | .ifElse condition consequence alternative =>
    .call (.call (.call (.var names.choice) (condition.curried names)) (consequence.curried names))
      (alternative.curried names)
  | e => e

/-- A new name is none of those that are bound to built-ins. -/
theorem Environment.Binds.extend {env : Environment} {names : Naming} (h : env.Binds names) {name : String}
    (hname : name ∉ env.names) (v : Value) : (env.extend name v).Binds names := by
  have hne : ∀ {bound : String} {b : Value}, env.get? bound = some b → name ≠ bound := by
    rintro bound b hbound rfl
    refine hname (contains_iff_mem_names.mp ?_)
    rw [contains_eq_isSome, hbound]
    rfl
  constructor
  · intro op
    rw [get?_extend_of_ne env v (hne (h.operator op)), h.operator op]
  · rw [get?_extend_of_ne env v (hne h.choice), h.choice]

namespace Eval

open Run

variable {σ : Type} [Writable σ] {config : Config} {env : Environment} {names : Naming}

/-! ## Calls of built-ins -/

/-- A call of an operator by its name runs it on its operands, when they have been evaluated. -/
theorem call_operator (enter : Enter σ) {op : Operator} {name : String}
    (hname : env.get? name = some (.builtin (.operator op))) (hop : .operator op ∈ config.builtins)
    (left right : Expr) :
    expression config enter (.call (.call (.var name) left) right) env =
      expression config enter (.binary op left right) env := by
  have hvalue : valueOf config env name = (pure (.builtin (.operator op)) : Run σ Value) := by
    rw [valueOf, hname]
  have hrun : ∀ l r, (operator config op l r : Run σ Value) = callBuiltin (.operator op) [l, r] := by
    intro l r
    rw [operator, BuiltinTable.lookup?_symbol hop]
  funext s
  simp only [expression, hvalue, hrun, bind_apply]
  rfl

/-- A call of a choice by its name picks one of two values, when its three parts have been evaluated. -/
theorem call_choice (enter : Enter σ) {name : String} (hname : env.get? name = some (.builtin .choice))
    (condition consequence alternative : Expr) :
    expression config enter (.call (.call (.call (.var name) condition) consequence) alternative) env =
      expression config enter (.ifElse condition consequence alternative) env := by
  have hvalue : valueOf config env name = (pure (.builtin .choice) : Run σ Value) := by
    rw [valueOf, hname]
  funext s
  simp only [expression, hvalue, bind_apply]
  rfl

/-! ## Expressions -/

/-- Where the names are bound, an expression that is written with calls does the same. -/
theorem expression_eq_curried (htable : ∀ op : Operator, .operator op ∈ config.builtins)
    (h : env.Binds names) (enter : Enter σ) (e : Expr) :
    expression config enter (e.curried names) env = expression config enter e env := by
  induction e with
  | integer n => rfl
  | float x => rfl
  | var name => rfl
  | binding name value ih => rw [Expr.curried, expression, expression, ih]
  | function parameter body => rfl
  | call callee argument ihf iha => rw [Expr.curried, expression, expression, ihf, iha]
  | binary op left right ihl ihr =>
      rw [Expr.curried, call_operator enter (h.operator op) (htable op), expression, expression, ihl, ihr]
  | ifElse condition consequence alternative ihc iht ihe =>
      rw [Expr.curried, call_choice enter h.choice, expression, expression, ihc, iht, ihe]

/-! ## Programs -/

theorem boundName?_curried (e : Expr) : (e.curried names).boundName? = e.boundName? := by
  cases e <;> rfl

/-- A statement that is no binding leaves the environment, and its value is that of the expression. -/
theorem statement_of_boundName?_eq_none (config : Config) (env : Environment) {e : Expr}
    (h : e.boundName? = none) :
    statement config env e = (do let v ← topLevel config e env; pure (env, v) : Run σ _) := by
  cases e with
  | binding name value => cases h
  | _ => rfl

theorem statement_eq_curried (htable : ∀ op : Operator, .operator op ∈ config.builtins)
    (h : env.Binds names) (e : Expr) :
    (statement config env (e.curried names) : Run σ _) = statement config env e := by
  have htop : ∀ e : Expr, (topLevel config (e.curried names) env : Run σ Value) = topLevel config e env :=
    expression_eq_curried htable h (enter config config.maxCallDepth)
  cases hname : e.boundName? with
  | none =>
      rw [statement_of_boundName?_eq_none config env hname,
        statement_of_boundName?_eq_none config env ((boundName?_curried e).trans hname), htop]
  | some name =>
      cases e with
      | binding name value => rw [Expr.curried, statement, statement, htop]
      | _ => cases hname

/-- A statement keeps the names bound. -/
theorem binds_statement (h : env.Binds names) (config : Config) (e : Expr) (s : Effects σ) :
    (statement config env e s).1.1.Binds names := by
  obtain ⟨-, henv⟩ | ⟨name, -, ⟨-, henv⟩ | ⟨hname, v, henv⟩⟩ := statement_env_eq config env e s
  · rwa [henv]
  · rwa [henv]
  · rw [henv]
    exact h.extend hname v

theorem statements_eq_curried (htable : ∀ op : Operator, .operator op ∈ config.builtins)
    (h : env.Binds names) (p : Program) (v : Value) :
    (statements config (p.map (Expr.curried names)) env v : Run σ _) = statements config p env v := by
  induction p generalizing env v with
  | nil => rfl
  | cons e rest ih =>
      funext s
      rw [List.map_cons, statements_cons, statements_cons, statement_eq_curried htable h,
        ih (binds_statement h config e s)]

end Eval

/-- **Operators and choices are calls.** Let the table have the five operators, and let names be bound to the
built-ins of operators and choices. An expression with calls through these names in the place of operators and
choices does the same, from whatever effects it starts and however many calls may still be nested; and so does
a program. -/
theorem Program.run_curried {σ : Type} [Writable σ] {config : Config}
    (htable : ∀ op : Operator, .operator op ∈ config.builtins) {env : Environment} {names : Naming} (h : env.Binds names) :
    (∀ (e : Expr) (enter : Eval.Enter σ),
      Eval.expression config enter (e.curried names) env = Eval.expression config enter e env) ∧
    ∀ (p : Program) (sink : σ),
      run config (p.map (Expr.curried names)) env sink = run config p env sink := by
  refine ⟨fun e enter => Eval.expression_eq_curried htable h enter e, ?_⟩
  intro p sink
  unfold run
  rw [Eval.statements_eq_curried htable h]

/-- Names as words. A choice between a sum and a function, in which the operator stays, and a print that
fails as an operand. -/
theorem Program.run_curried_words :
    let names : Naming :=
      ⟨fun
        | .add => "plus"
        | .subtract => "minus"
        | .multiply => "times"
        | .divide => "over"
        | .greater => "more",
        "pick"⟩
    let env : Environment := ((((((Environment.empty.extend "plus" (.builtin (.operator .add))).extend "minus"
      (.builtin (.operator .subtract))).extend "times" (.builtin (.operator .multiply))).extend "over"
      (.builtin (.operator .divide))).extend "more" (.builtin (.operator .greater))).extend "pick"
      (.builtin .choice))
    let e : Expr := .ifElse (.binary .greater (.integer 2) (.integer 1))
      (.binary .add (.call (.var "print") (.integer 3)) (.integer 4))
      (.function "x" (.binary .divide (.var "x") (.integer 2)))
    (∀ op : Operator, .operator op ∈ Config.standard.builtins) ∧ env.Binds names ∧
      e.curried names = .call (.call (.call (.var "pick")
          (.call (.call (.var "more") (.integer 2)) (.integer 1)))
          (.call (.call (.var "plus") (.call (.var "print") (.integer 3))) (.integer 4)))
          (.function "x" (.binary .divide (.var "x") (.integer 2))) ∧
      (∀ enter : Eval.Enter Sink, Eval.expression .standard enter (e.curried names) env =
        Eval.expression .standard enter e env) ∧
      ∀ sink : Sink, run .standard [e.curried names] env sink = run .standard [e] env sink := by
  intro names env e
  have htable : ∀ op : Operator, .operator op ∈ Config.standard.builtins := by
    intro op
    cases op <;> decide
  have hbinds : env.Binds names := by
    constructor
    · intro op
      cases op <;> rfl
    · rfl
  exact ⟨htable, hbinds, rfl, (run_curried htable hbinds).1 e, (run_curried htable hbinds).2 [e]⟩

end Mapsto
