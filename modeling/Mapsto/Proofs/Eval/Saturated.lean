import Mapsto.Proofs.Builtin.Failure
import Mapsto.Proofs.Eval.Account
import Mapsto.Proofs.Eval.Hereditary
import Mapsto.Proofs.Eval.Monotone

/-!
# `Mapsto.Proofs.Eval.Saturated` — built-ins run on as many arguments as they take

A built-in gets its arguments one call at a time, and waits as a value until it has them all. If every
built-in that waits has at least one argument and not all of them (`Value.Proper`), then the one that comes
with the next call leads to another such value or completes the arguments exactly; and operators go to
built-ins that take two. So a run neither makes a value that breaks the rule, nor quotes one in a
diagnostic, nor runs a built-in on a wrong number of arguments.

That all values of a run are proper is a hereditary condition (`hereditary_proper`). What the run does with
them is in its account: all events are proper, for every expression (`Account.expression_proper`), for every
depth of calls (`Account.enter_proper`), and for programs one behind the other
(`Program.runAll_proper`).
-/

namespace Mapsto

/-- A built-in that waits has got an argument, but not as many as it takes. -/
def Value.Proper : Value → Prop
  | .applied b arguments => 0 < arguments.length ∧ arguments.length < b.arity
  | _ => True

/-- All expressions lead from proper values to proper values. -/
theorem hereditary_proper : Hereditary (fun _ => True) Value.Proper where
  operand _ _ := trivial
  simple {v} hv := by
    cases v with
    | applied b arguments => cases hv
    | _ => trivial
  closure _ _ := trivial
  body _ := trivial
  applied hne hlength := ⟨List.length_pos_iff.mpr hne, hlength⟩

/-- Whether a diagnostic is one that a run may come to: it quotes proper values, it is not about a number of
arguments, and an operator is missing only if the table does not have it. -/
structure Diagnostic.Proper (config : Config) (d : Diagnostic) : Prop where
  values : ∀ v ∈ d.values, v.Everywhere Value.Proper
  ne_badArity : ∀ b got, d ≠ .badArity b got
  ne_unknownOperator : ∀ op, .operator op ∈ config.builtins → d ≠ .unknownOperator op

/-- A built-in runs on as many arguments as it takes, all of them proper; a complaint is proper too. -/
def Event.Proper (config : Config) : Event → Prop
  | ran b arguments => arguments.length = b.arity ∧ ∀ v ∈ arguments, v.Everywhere Value.Proper
  | complained c => c.diagnostic.Proper config

variable {config : Config}

/-- The result of a run is that of its account. -/
theorem Tells.result {α : Type} {Q : α → Prop} {account : Account α} {run : Run Sink α} (h : Tells account run)
    (hrun : run.Returns Q) : Q account.result := by
  have hresult := hrun ⟨.unlimited, #[]⟩
  rwa [h] at hresult

namespace Account

/-- All that is done is proper. -/
def Proper {α : Type} (config : Config) (account : Account α) : Prop :=
  ∀ event ∈ account.events, event.Proper config

theorem pure_proper {α : Type} (a : α) : (pure a : Account α).Proper config := nofun

theorem bind_proper {α β : Type} {m : Account α} {f : α → Account β} (hm : m.Proper config)
    (hf : (f m.result).Proper config) : (m >>= f).Proper config :=
  List.forall_mem_append.mpr ⟨hm, hf⟩

theorem complain_proper {c : Complaint} (h : c.diagnostic.Proper config) : (complain c).Proper config :=
  List.forall_mem_singleton.mpr h

theorem callBuiltin_proper {b : Builtin} {arguments : List Value} (hlength : arguments.length = b.arity)
    (harguments : ∀ v ∈ arguments, v.Everywhere Value.Proper) :
    (callBuiltin b arguments).Proper config := by
  unfold Proper
  rw [events_callBuiltin]
  exact List.forall_mem_singleton.mpr ⟨hlength, harguments⟩

/-- One more argument makes a built-in wait on, or completes its arguments. -/
theorem collect_proper {b : Builtin} {arguments : List Value} {argument : Value}
    (hlength : arguments.length < b.arity) (harguments : ∀ v ∈ arguments, v.Everywhere Value.Proper)
    (hargument : argument.Everywhere Value.Proper) :
    (collect b arguments argument).Proper config := by
  have hall : ∀ v ∈ arguments ++ [argument], v.Everywhere Value.Proper :=
    List.forall_mem_append.mpr ⟨harguments, List.forall_mem_singleton.mpr hargument⟩
  simp only [collect]
  split
  · exact pure_proper _
  · rename_i hmore
    refine callBuiltin_proper ?_ hall
    simp only [List.length_append, List.length_singleton] at hmore ⊢
    omega

theorem apply_proper {enter : Enter}
    (henter : ∀ body env, env.Everywhere Value.Proper → (enter body env).Proper config)
    {callee argument : Value} (hcallee : callee.Everywhere Value.Proper)
    (hargument : argument.Everywhere Value.Proper) :
    (apply enter callee argument).Proper config := by
  obtain ⟨hself, hparts⟩ := Value.everywhere_iff.mp hcallee
  have hno : ∀ v : Value, v.Everywhere Value.Proper → (complain (.notCallable v)).Proper config :=
    fun v hv => complain_proper ⟨List.forall_mem_singleton.mpr hv, nofun, nofun⟩
  cases callee with
  | closure parameter body env =>
      exact henter _ _ (Environment.everywhere_extend_iff.mpr ⟨hargument, hparts⟩)
  | builtin b =>
      -- Every built-in takes an argument.
      refine collect_proper ?_ nofun hargument
      cases b <;> exact Nat.succ_pos _
  | applied b arguments => exact collect_proper hself.2 hparts hargument
  | integer n => exact hno _ hcallee
  | float x => exact hno _ hcallee
  | boolean b => exact hno _ hcallee
  | absent => exact hno _ hcallee

theorem valueOf_proper (env : Environment) (name : String) : (valueOf config env name).Proper config := by
  unfold valueOf
  split
  · exact pure_proper _
  · split
    · exact pure_proper _
    · exact complain_proper ⟨nofun, nofun, nofun⟩

/-- The built-in of an operator sign is found under this sign, and takes two arguments. -/
theorem arity_of_lookup? {table : BuiltinTable} {op : Operator} {b : Builtin}
    (h : table.lookup? op.symbol = some b) : b.arity = 2 := by
  obtain ⟨-, hname⟩ := BuiltinTable.lookup?_eq_some_iff.mp h
  have hb : b = .operator op := Builtin.name_injective hname
  rw [hb]
  rfl

theorem operator_proper (op : Operator) {left right : Value} (hleft : left.Everywhere Value.Proper)
    (hright : right.Everywhere Value.Proper) : (operator config op left right).Proper config := by
  unfold operator
  split
  · rename_i b hb
    refine callBuiltin_proper (arity_of_lookup? hb).symm ?_
    exact List.forall_mem_cons.mpr ⟨hleft, List.forall_mem_singleton.mpr hright⟩
  · rename_i hmissing
    refine complain_proper ⟨nofun, nofun, ?_⟩
    rintro op' hmem heq
    cases heq
    rw [BuiltinTable.lookup?_symbol hmem] at hmissing
    cases hmissing

/-- **Step lemma.** If everything in calls is proper, so is everything in an expression. -/
theorem expression_proper {n : Nat}
    (henter : ∀ body env, env.Everywhere Value.Proper → (enter config n body env).Proper config) (e : Expr)
    {env : Environment} (henv : env.Everywhere Value.Proper) :
    (expression config (enter config n) e env).Proper config := by
  have hvalue : ∀ e, (expression config (enter config n) e env).result.Everywhere Value.Proper := by
    intro e
    have htells : Tells _ (Eval.expression config (Eval.enter config n : Eval.Enter Sink) e env) :=
      tells_expression config (tells_enter config n) e env
    exact htells.result (hereditary_proper.expression config (hereditary_proper.enter config n) e env trivial henv)
  induction e with
  | integer n => exact pure_proper _
  | float x => exact pure_proper _
  | var name => exact valueOf_proper env name
  | binding name value ih =>
      refine bind_proper ih ?_
      split
      · exact complain_proper ⟨nofun, nofun, nofun⟩
      · exact pure_proper _
  | function parameter body => exact pure_proper _
  | call callee argument ihf iha =>
      refine bind_proper ihf (bind_proper iha ?_)
      exact apply_proper henter (hvalue callee) (hvalue argument)
  | binary op left right ihl ihr =>
      refine bind_proper ihl (bind_proper ihr ?_)
      exact operator_proper op (hvalue left) (hvalue right)
  | ifElse condition consequence alternative ihc iht ihe =>
      exact bind_proper ihc (bind_proper iht (bind_proper ihe (pure_proper _)))

/-- **Run lemma.** Everything in calls is proper, however many may be nested. -/
theorem enter_proper (n : Nat) (body : Expr) {env : Environment} (henv : env.Everywhere Value.Proper) :
    (enter config n body env).Proper config := by
  induction n generalizing body env with
  | zero => exact complain_proper ⟨nofun, nofun, nofun⟩
  | succ n ih => exact expression_proper (fun body env henv => ih body henv) body henv

theorem topLevel_proper (e : Expr) {env : Environment} (henv : env.Everywhere Value.Proper) :
    (topLevel config e env).Proper config :=
  expression_proper (fun body _ henv => enter_proper config.maxCallDepth body henv) e henv

theorem statement_proper {env : Environment} (henv : env.Everywhere Value.Proper) (e : Expr) :
    (statement config env e).Proper config := by
  cases e with
  | binding name value =>
      refine bind_proper (topLevel_proper value henv) ?_
      split
      · exact bind_proper (complain_proper ⟨nofun, nofun, nofun⟩) (pure_proper _)
      · exact pure_proper _
  | _ => exact bind_proper (topLevel_proper _ henv) (pure_proper _)

theorem statements_proper {env : Environment} (henv : env.Everywhere Value.Proper) (p : Program) (v : Value) :
    (statements config p env v).Proper config := by
  induction p generalizing env v with
  | nil => exact pure_proper _
  | cons e rest ih =>
      have henv' := (tells_statement config env e).result (hereditary_proper.statement config henv trivial)
      exact bind_proper (statement_proper henv e) (ih henv'.1 _)

end Account

/-! ## Diagnostics -/

variable {σ : Type} [Writable σ]

/-- A proper event records proper diagnostics. -/
theorem Event.perform_proper {event : Event} (h : event.Proper config) {s : Effects σ}
    (hs : ∀ d ∈ s.diagnostics.toList, d.Proper config) :
    ∀ d ∈ (event.perform s).diagnostics.toList, d.Proper config := by
  have hpush : ∀ d : Diagnostic, d.Proper config →
      ∀ d' ∈ (s.diagnostics.push d).toList, d'.Proper config := by
    intro d hd
    rw [Array.toList_push]
    exact List.forall_mem_append.mpr ⟨hs, List.forall_mem_singleton.mpr hd⟩
  cases event with
  | complained c => exact hpush _ h
  | ran b arguments =>
      obtain ⟨hlength, harguments⟩ := h
      show ∀ d ∈ (Eval.callBuiltin b arguments s).2.diagnostics.toList, d.Proper config
      unfold Eval.callBuiltin
      split
      · exact hs
      · rename_i d sink happly
        have hresult : (b.apply arguments s.sink).1 = .error d := by rw [happly]
        have hfailure := Builtin.failure_of_apply hresult
        refine hpush d ⟨?_, hfailure.ne_badArity hlength, fun op _ => hfailure.ne_unknownOperator op⟩
        exact fun v hv => harguments v (hfailure.mem_arguments hv)

theorem performAll_proper {events : List Event} (h : ∀ event ∈ events, event.Proper config) {s : Effects σ}
    (hs : ∀ d ∈ s.diagnostics.toList, d.Proper config) :
    ∀ d ∈ (performAll events s).diagnostics.toList, d.Proper config := by
  induction events generalizing s with
  | nil => exact hs
  | cons event rest ih =>
      obtain ⟨hevent, hrest⟩ := List.forall_mem_cons.mp h
      exact ih hrest (Event.perform_proper hevent hs)

/-- A proper account leads to proper diagnostics, also if the output cannot be flushed. -/
theorem Account.evaluation_proper {account : Account (Environment × Value)} (h : account.Proper config)
    (sink : σ) : ∀ d ∈ (account.evaluation sink).1.diagnostics, d.Proper config := by
  have hall : ∀ d ∈ (performAll account.events ⟨sink, #[]⟩).diagnostics.toList, d.Proper config :=
    performAll_proper h nofun
  show ∀ d ∈ (Eval.flush (performAll account.events ⟨sink, #[]⟩)).2.diagnostics.toList, d.Proper config
  unfold Eval.flush
  split
  · exact hall
  · rw [Array.toList_push]
    exact List.forall_mem_append.mpr ⟨hall, List.forall_mem_singleton.mpr ⟨nofun, nofun, nofun⟩⟩

/-! ## Programs -/

/-- Everything that a program comes to is proper. -/
structure Evaluation.Proper (config : Config) (evaluation : Evaluation) : Prop where
  value : evaluation.value.Everywhere Value.Proper
  env : evaluation.env.Everywhere Value.Proper
  diagnostics : ∀ d ∈ evaluation.diagnostics, d.Proper config

namespace Program

theorem run_proper (p : Program) {env : Environment} (henv : env.Everywhere Value.Proper) (sink : σ) :
    (p.run config env sink).1.Proper config := by
  obtain ⟨henv', hvalue⟩ := hereditary_proper.run config sink henv fun _ _ => trivial
  refine ⟨hvalue, henv', ?_⟩
  rw [run_eq_evaluation]
  exact Account.evaluation_proper (Account.statements_proper henv p .absent) sink

/-- What programs one behind the other come to is proper, and so is what they do. -/
theorem runAll_proper (programs : List Program) {env : Environment} (henv : env.Everywhere Value.Proper)
    (sink : σ) :
    (∀ evaluation ∈ (runAll config programs env sink).1, evaluation.Proper config) ∧
      ∀ account ∈ accounts config programs env, account.Proper config := by
  induction programs generalizing env sink with
  | nil => exact ⟨nofun, nofun⟩
  | cons p rest ih =>
      have hrun : (p.run config env sink).1.Proper config := run_proper p henv sink
      have haccount : (Account.statements config p env .absent).Proper config :=
        Account.statements_proper henv p .absent
      have henv' : (p.run config env sink).1.env = (Account.statements config p env .absent).result.1 := by
        rw [run_eq_evaluation]
        rfl
      obtain ⟨hrest, haccounts⟩ := ih hrun.env (p.run config env sink).2
      rw [henv'] at haccounts
      exact ⟨List.forall_mem_cons.mpr ⟨hrun, hrest⟩, List.forall_mem_cons.mpr ⟨haccount, haccounts⟩⟩

/-- **Arities.** Take any table of built-ins, and an environment in which every built-in that waits, also deep
inside other values, has an argument but not all that it takes. Programs that are run one after the other from
there leave it so, in their values, in their environments, and in what their diagnostics quote. Every
built-in that runs on the way has as many arguments as it takes, so that no diagnostic is about their
number; and with all built-ins in the table no operator is missing. -/
theorem runAll_never_badArity (config : Config) (programs : List Program) {env : Environment}
    (henv : env.Everywhere Value.Proper) (sink : σ) :
    let ran := runAll config programs env sink
    let told := accounts config programs env
    ran = Account.evaluations told sink ∧
      (∀ evaluation ∈ ran.1,
        evaluation.value.Everywhere Value.Proper ∧ evaluation.env.Everywhere Value.Proper ∧
          ∀ d ∈ evaluation.diagnostics,
            (∀ v ∈ d.values, v.Everywhere Value.Proper) ∧ (∀ b got, d ≠ .badArity b got) ∧
              (config.builtins = Builtin.all → ∀ op, d ≠ .unknownOperator op)) ∧
      ∀ account ∈ told, ∀ b arguments, .ran b arguments ∈ account.events → arguments.length = b.arity := by
  intro ran told
  obtain ⟨hevaluations, haccounts⟩ : (∀ evaluation ∈ ran.1, evaluation.Proper config) ∧
      ∀ account ∈ told, account.Proper config := runAll_proper programs henv sink
  refine ⟨runAll_eq_evaluations config programs env sink, ?_, ?_⟩
  · intro evaluation hevaluation
    have hproper := hevaluations evaluation hevaluation
    refine ⟨hproper.value, hproper.env, fun d hd => ?_⟩
    obtain ⟨hvalues, hbadArity, hunknown⟩ := hproper.diagnostics d hd
    refine ⟨hvalues, hbadArity, fun hbuiltins op => hunknown op ?_⟩
    rw [hbuiltins]
    exact Builtin.mem_all _
  · intro account haccount b arguments hran
    exact (haccounts account haccount _ hran).1

/-- An addition that waits for its second argument is bound, and gets it in the second of two programs; the
first binds a function that hands over the first of three arguments. -/
theorem runAll_waiting_addition :
    let env := Environment.empty.extend "inc" (.applied (.operator .add) [.integer 1])
    let programs : List Program :=
      [[.binding "pick" (.function "c" (.call (.var "if") (.var "c")))],
        [.call (.var "inc") (.integer 41), .call (.call (.var "pick") (.var "inc")) (.var "inc")]]
    env.Everywhere Value.Proper ∧
      ∀ evaluation ∈ (runAll .standard programs env Sink.unlimited).1,
        evaluation.value.Everywhere Value.Proper ∧
          ∀ d ∈ evaluation.diagnostics, ∀ b got, d ≠ .badArity b got := by
  intro env programs
  have hone : (Value.integer 1).Everywhere Value.Proper := hereditary_proper.everywhere_of_isSimple rfl
  have hinc : (Value.applied (.operator .add) [.integer 1]).Everywhere Value.Proper :=
    Value.everywhere_iff.mpr ⟨⟨by decide, by decide⟩, List.forall_mem_singleton.mpr hone⟩
  have henv : env.Everywhere Value.Proper :=
    Environment.everywhere_extend_iff.mpr ⟨hinc, Environment.everywhere_empty⟩
  obtain ⟨-, hall, -⟩ := runAll_never_badArity .standard programs henv Sink.unlimited
  refine ⟨henv, fun evaluation hevaluation => ?_⟩
  obtain ⟨hvalue, -, hdiagnostics⟩ := hall evaluation hevaluation
  exact ⟨hvalue, fun d hd => (hdiagnostics d hd).2.1⟩

end Program

end Mapsto
