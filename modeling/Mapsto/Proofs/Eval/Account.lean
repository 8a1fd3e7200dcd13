import Mapsto.Proofs.Eval.Lockstep

/-!
# `Mapsto.Proofs.Eval.Account` — what a run does, one thing after the other

Running a program means two things to the world outside: built-ins run, and the evaluator complains where
it cannot go on. Which of these events there are, and in which order, does not depend on the sink, because
no built-in returns a value that does. So a run can be told in two parts. An `Account` holds the result and
the list of all events, and is made without any effects; `performAll` carries the events out.

`Account.expression` and the functions around it follow the evaluator rule by rule. `Tells` says that an
account is the account of a run: from whatever effects the run starts, it comes to the result of the
account, and to the effects that the events lead to. It holds of every expression and of every program
(`tells_expression`, `tells_statements`), and of programs one behind the other
(`Program.runAll_eq_evaluations`). Statements about all the calls of built-ins in a run, and about the same
run on two sinks, are statements about one list of events then.
-/

namespace Mapsto

/-! ## Events -/

/-- What the evaluator complains about itself, without a built-in. -/
inductive Complaint where
  | unknownVariable (name : String)
  | redeclaration (name : String)
  | notCallable (v : Value)
  | unknownOperator (op : Operator)
  | callDepthExceeded (limit : Nat)

/-- The diagnostic that is recorded for a complaint. -/
def Complaint.diagnostic : Complaint → Diagnostic
  | unknownVariable name => .unknownVariable name
  | redeclaration name => .redeclaration name
  | notCallable v => .notCallable v
  | unknownOperator op => .unknownOperator op
  | callDepthExceeded limit => .callDepthExceeded limit

/-- One thing that a run does. -/
inductive Event where
  | ran (b : Builtin) (arguments : List Value)
  | complained (c : Complaint)

variable {σ : Type} [Writable σ]

/-- Carries an event out. -/
def Event.perform : Event → Effects σ → Effects σ
  | ran b arguments, s => (Eval.callBuiltin b arguments s).2
  | complained c, s => (Eval.report c.diagnostic s).2

/-- Carries events out, one after the other. -/
def performAll (events : List Event) (s : Effects σ) : Effects σ :=
  events.foldl (fun s event => event.perform s) s

theorem performAll_append (first second : List Event) (s : Effects σ) :
    performAll (first ++ second) s = performAll second (performAll first s) :=
  List.foldl_append

/-! ## Accounts -/

/-- A result, and what was done on the way to it. -/
structure Account (α : Type) where
  result : α
  events : List Event

namespace Account

instance : Monad Account where
  pure a := ⟨a, []⟩
  bind m f := ⟨(f m.result).result, m.events ++ (f m.result).events⟩

/-- How the body of a function is told in the environment of a call. -/
abbrev Enter := Expr → Environment → Account Value

def complain (c : Complaint) : Account Value := ⟨.absent, [.complained c]⟩

/-- A built-in returns the same whatever the sink is; so it is asked with one that takes everything. -/
def callBuiltin (b : Builtin) (arguments : List Value) : Account Value :=
  match (b.apply arguments Sink.unlimited).1 with
  | .ok v => ⟨v, [.ran b arguments]⟩
  | .error _ => ⟨.absent, [.ran b arguments]⟩

def collect (b : Builtin) (arguments : List Value) (argument : Value) : Account Value :=
  let arguments := arguments ++ [argument]
  if arguments.length < b.arity then pure (.applied b arguments) else callBuiltin b arguments

def apply (enter : Enter) (callee argument : Value) : Account Value :=
  match callee with
  | .closure parameter body env => enter body (env.extend parameter argument)
  | .builtin b => collect b [] argument
  | .applied b arguments => collect b arguments argument
  | other => complain (.notCallable other)

def valueOf (config : Config) (env : Environment) (name : String) : Account Value :=
  match env.get? name with
  | some v => pure v
  | none =>
    match config.builtins.lookup? name with
    | some b => pure (.builtin b)
    | none => complain (.unknownVariable name)

def operator (config : Config) (op : Operator) (left right : Value) : Account Value :=
  match config.builtins.lookup? op.symbol with
  | some b => callBuiltin b [left, right]
  | none => complain (.unknownOperator op)

/-- The account of an expression, given that of calls. -/
def expression (config : Config) (enter : Enter) : Expr → Environment → Account Value
  | .integer n, _ => pure (.integer n)
  | .float x, _ => pure (.float x)
  | .var name, env => valueOf config env name
  | .binding name value, env => do
    let _ ← expression config enter value env
    if env.contains name then complain (.redeclaration name) else pure .absent
  | .function parameter body, env => pure (.closure parameter body env)
  | .call callee argument, env => do
    let f ← expression config enter callee env
    let a ← expression config enter argument env
    apply enter f a
  | .binary op left right, env => do
    let l ← expression config enter left env
    let r ← expression config enter right env
    operator config op l r
  | .ifElse condition consequence alternative, env => do
    let c ← expression config enter condition env
    let t ← expression config enter consequence env
    let e ← expression config enter alternative env
    pure (if c.isTruthy then t else e)

/-- The account of the body of a function when `n` calls may be nested, this one included. -/
def enter (config : Config) : Nat → Enter
  | 0, _, _ => complain (.callDepthExceeded config.maxCallDepth)
  | n + 1, body, env => expression config (enter config n) body env

/-- The account of an expression outside of any call. -/
def topLevel (config : Config) (e : Expr) (env : Environment) : Account Value :=
  expression config (enter config config.maxCallDepth) e env

/-- The account of one expression of a program. -/
def statement (config : Config) (env : Environment) : Expr → Account (Environment × Value)
  | .binding name value => do
    let v ← topLevel config value env
    if env.contains name then
      let failed ← complain (.redeclaration name)
      pure (env, failed)
    else pure (env.extend name v, .absent)
  | e => do
    let v ← topLevel config e env
    pure (env, v)

/-- The account of the expressions of a program. -/
def statements (config : Config) : List Expr → Environment → Value → Account (Environment × Value)
  | [], env, v => pure (env, v)
  | e :: rest, env, _ => do
    let (env, v) ← statement config env e
    statements config rest env v

end Account

/-! ## Accounts of runs -/

/-- From any effects a run comes to the result of the account, by the events of the account. -/
def Tells {α : Type} (account : Account α) (run : Run σ α) : Prop :=
  ∀ s, run s = (account.result, performAll account.events s)

namespace Account

variable {α β : Type}

theorem tells_pure (a : α) : Tells (pure a) (pure a : Run σ α) := fun _ => rfl

theorem tells_bind {m : Account α} {r : Run σ α} {f : α → Account β} {g : α → Run σ β} (h : Tells m r)
    (hf : ∀ a, Tells (f a) (g a)) : Tells (m >>= f) (r >>= g) := by
  intro s
  rw [Run.bind_apply, h s, hf m.result]
  exact congrArg (Prod.mk (f m.result).result) (performAll_append m.events (f m.result).events s).symm

theorem tells_complain (c : Complaint) : Tells (complain c) (Eval.report c.diagnostic : Run σ Value) := fun _ => rfl

/-- What a built-in returns does not depend on the sink. Only printing uses it, and its value is absent also
when it fails. -/
theorem fst_callBuiltin_eq (b : Builtin) (arguments : List Value) (s : Effects σ) :
    (Eval.callBuiltin b arguments s).1 = (callBuiltin b arguments).result := by
  by_cases hprint : ∃ v, b = .print ∧ arguments = [v]
  · obtain ⟨v, rfl, rfl⟩ := hprint
    have hall : (callBuiltin .print [v]).result = .absent := rfl
    rw [hall]
    simp only [Eval.callBuiltin, Builtin.apply, Builtin.printLine]
    split <;> rename_i heq
    · split at heq <;> cases heq
      rfl
    · rfl
  · unfold Eval.callBuiltin callBuiltin
    rw [Builtin.apply_of_not_print hprint s.sink]
    cases (b.apply arguments Sink.unlimited).1 <;> rfl

theorem events_callBuiltin (b : Builtin) (arguments : List Value) :
    (callBuiltin b arguments).events = [.ran b arguments] := by
  unfold callBuiltin
  split <;> rfl

theorem tells_callBuiltin (b : Builtin) (arguments : List Value) :
    Tells (callBuiltin b arguments) (Eval.callBuiltin b arguments : Run σ Value) := by
  intro s
  rw [events_callBuiltin, ← fst_callBuiltin_eq b arguments s]
  rfl

theorem tells_collect (b : Builtin) (arguments : List Value) (argument : Value) :
    Tells (collect b arguments argument) (Eval.collect b arguments argument : Run σ Value) := by
  simp only [collect, Eval.collect]
  split
  · exact tells_pure _
  · exact tells_callBuiltin b _

theorem tells_apply {enter : Enter} {enter' : Eval.Enter σ}
    (henter : ∀ body env, Tells (enter body env) (enter' body env)) (callee argument : Value) :
    Tells (apply enter callee argument) (Eval.apply enter' callee argument) := by
  cases callee with
  | closure parameter body env => exact henter body _
  | builtin b => exact tells_collect b [] argument
  | applied b arguments => exact tells_collect b arguments argument
  | integer n => exact tells_complain (.notCallable (.integer n))
  | float x => exact tells_complain (.notCallable (.float x))
  | boolean b => exact tells_complain (.notCallable (.boolean b))
  | absent => exact tells_complain (.notCallable .absent)

variable (config : Config)

theorem tells_valueOf (env : Environment) (name : String) :
    Tells (valueOf config env name) (Eval.valueOf config env name : Run σ Value) := by
  unfold valueOf Eval.valueOf
  cases env.get? name with
  | some v => exact tells_pure v
  | none =>
      cases config.builtins.lookup? name with
      | some b => exact tells_pure _
      | none => exact tells_complain (.unknownVariable name)

theorem tells_operator (op : Operator) (left right : Value) :
    Tells (operator config op left right) (Eval.operator config op left right : Run σ Value) := by
  unfold operator Eval.operator
  cases config.builtins.lookup? op.symbol with
  | some b => exact tells_callBuiltin b [left, right]
  | none => exact tells_complain (.unknownOperator op)

/-- **Step lemma.** If the accounts of calls are true, so is that of every expression. -/
theorem tells_expression {enter : Enter} {enter' : Eval.Enter σ}
    (henter : ∀ body env, Tells (enter body env) (enter' body env)) (e : Expr) (env : Environment) :
    Tells (expression config enter e env) (Eval.expression config enter' e env) := by
  induction e with
  | integer n => exact tells_pure _
  | float x => exact tells_pure _
  | var name => exact tells_valueOf config env name
  | binding name value ih =>
      refine tells_bind ih fun _ => ?_
      split
      · exact tells_complain (.redeclaration name)
      · exact tells_pure _
  | function parameter body => exact tells_pure _
  | call callee argument ihf iha =>
      exact tells_bind ihf fun f => tells_bind iha fun a => tells_apply henter f a
  | binary op left right ihl ihr =>
      exact tells_bind ihl fun l => tells_bind ihr fun r => tells_operator config op l r
  | ifElse condition consequence alternative ihc iht ihe =>
      exact tells_bind ihc fun _ => tells_bind iht fun _ => tells_bind ihe fun _ => tells_pure _

/-- **Run lemma.** The accounts of calls are true, however many may be nested. -/
theorem tells_enter (n : Nat) (body : Expr) (env : Environment) :
    Tells (enter config n body env) (Eval.enter config n body env : Run σ Value) := by
  induction n generalizing body env with
  | zero => exact tells_complain (.callDepthExceeded config.maxCallDepth)
  | succ n ih => exact tells_expression config ih body env

theorem tells_topLevel (e : Expr) (env : Environment) :
    Tells (topLevel config e env) (Eval.topLevel config e env : Run σ Value) :=
  tells_expression config (tells_enter config config.maxCallDepth) e env

theorem tells_statement (env : Environment) (e : Expr) :
    Tells (statement config env e) (Eval.statement config env e : Run σ _) := by
  cases e with
  | binding name value =>
      refine tells_bind (tells_topLevel config value env) fun _ => ?_
      split
      · exact tells_bind (tells_complain (.redeclaration name)) fun _ => tells_pure _
      · exact tells_pure _
  | _ => exact tells_bind (tells_topLevel config _ env) fun _ => tells_pure _

theorem tells_statements (p : Program) (env : Environment) (v : Value) :
    Tells (statements config p env v) (Eval.statements config p env v : Run σ _) := by
  induction p generalizing env v with
  | nil => exact tells_pure _
  | cons e rest ih => exact tells_bind (tells_statement config env e) fun r => ih r.1 r.2

end Account

/-! ## Programs one behind the other -/

namespace Account

/-- Carries out the account of a program and flushes the output. -/
def evaluation (account : Account (Environment × Value)) (sink : σ) : Evaluation × σ :=
  let effects := (Eval.flush (performAll account.events ⟨sink, #[]⟩)).2
  (⟨account.result.2, account.result.1, effects.diagnostics.toList⟩, effects.sink)

/-- Carries out the accounts of programs, one after the other. -/
def evaluations : List (Account (Environment × Value)) → σ → List Evaluation × σ
  | [], sink => ([], sink)
  | account :: rest, sink =>
    let (evaluation, sink) := account.evaluation sink
    let (others, sink) := evaluations rest sink
    (evaluation :: others, sink)

end Account

namespace Program

variable (config : Config)

/-- Runs programs one after the other with one evaluator, each in the environment that the one before it
has left. -/
def runAll : List Program → Environment → σ → List Evaluation × σ
  | [], _, sink => ([], sink)
  | p :: rest, env, sink =>
    let (evaluation, sink) := p.run config env sink
    let (others, sink) := runAll rest evaluation.env sink
    (evaluation :: others, sink)

/-- The accounts of programs, one behind the other. -/
def accounts : List Program → Environment → List (Account (Environment × Value))
  | [], _ => []
  | p :: rest, env =>
    let account := Account.statements config p env .absent
    account :: accounts rest account.result.1

theorem run_eq_evaluation (p : Program) (env : Environment) (sink : σ) :
    p.run config env sink = (Account.statements config p env .absent).evaluation sink := by
  have htells := Account.tells_statements config p env .absent ⟨sink, #[]⟩
  have hrun : p.run config env sink =
      let ran := Eval.statements config p env .absent ⟨sink, #[]⟩
      (⟨ran.1.2, ran.1.1, (Eval.flush ran.2).2.diagnostics.toList⟩, (Eval.flush ran.2).2.sink) := rfl
  rw [hrun, htells]
  rfl

/-- **Accounts.** Running programs is carrying out their accounts. -/
theorem runAll_eq_evaluations (programs : List Program) (env : Environment) (sink : σ) :
    runAll config programs env sink = Account.evaluations (accounts config programs env) sink := by
  induction programs generalizing env sink with
  | nil => rfl
  | cons p rest ih => simp only [runAll, accounts, Account.evaluations, run_eq_evaluation, ih, Account.evaluation]

end Program

end Mapsto
