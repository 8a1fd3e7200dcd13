import Mapsto.Proofs.Eval.Lockstep

/-!
# `Mapsto.Proofs.Eval.Monotone` — more calls and more built-ins

A configuration limits a program in two ways: in how many calls may be nested, and in which built-ins
there are. A run that meets such a limit says so, by one of three kinds of diagnostics
(`Diagnostic.isLimit`). A run that records none of them goes the same way under every configuration that
allows at least as much.

**The end tells about the way.** The condition is on the diagnostics that a run ends with, and it is
needed at every step. It is there, because no step takes back what was recorded (`Uncut.grows`): so a
limit that is not on the final list was not met at any time. `Uncut` carries this through the evaluator,
together with what follows from it, by one lemma for every function of `Mapsto.Eval`.
-/

namespace Mapsto

/-! ## Configurations -/

theorem Builtin.mem_all (b : Builtin) : b ∈ Builtin.all := by
  cases b with
  | operator op => cases op <;> decide
  | choice => decide
  | print => decide
  | math f => cases f <;> decide

theorem Builtin.name_injective {b c : Builtin} (h : b.name = c.name) : b = c := by
  have hall : ∀ b ∈ Builtin.all, ∀ c ∈ Builtin.all, b.name = c.name → b = c := by decide
  exact hall b b.mem_all c c.mem_all h

/-- A table finds a built-in under its own name, and only if it has it. -/
theorem BuiltinTable.lookup?_eq_some_iff {table : BuiltinTable} {name : String} {b : Builtin} :
    table.lookup? name = some b ↔ b ∈ table ∧ b.name = name := by
  unfold lookup?
  constructor
  · intro h
    exact ⟨List.mem_of_find?_eq_some h, by simpa using List.find?_some h⟩
  · rintro ⟨hmem, rfl⟩
    obtain ⟨c, hc⟩ : ∃ c, table.find? (fun c => c.name == b.name) = some c := by
      rw [← Option.isSome_iff_exists, List.find?_isSome]
      exact ⟨b, hmem, beq_self_eq_true _⟩
    have hname : c.name = b.name := by simpa using List.find?_some hc
    rw [hc, Builtin.name_injective hname]

/-- A table that has an operator finds it under its sign. -/
theorem BuiltinTable.lookup?_symbol {table : BuiltinTable} {op : Operator} (h : .operator op ∈ table) :
    table.lookup? op.symbol = some (.operator op) :=
  lookup?_eq_some_iff.mpr ⟨h, rfl⟩

/-- A configuration allows as many calls as another one, or more, and has all of its built-ins. -/
structure Config.AtMost (config config' : Config) : Prop where
  maxCallDepth_le : config.maxCallDepth ≤ config'.maxCallDepth
  builtins_subset : config.builtins ⊆ config'.builtins

theorem Config.AtMost.lookup? {config config' : Config} (h : config.AtMost config') {name : String}
    {b : Builtin} (hb : config.builtins.lookup? name = some b) :
    config'.builtins.lookup? name = some b := by
  obtain ⟨hmem, hname⟩ := BuiltinTable.lookup?_eq_some_iff.mp hb
  exact BuiltinTable.lookup?_eq_some_iff.mpr ⟨h.builtins_subset hmem, hname⟩

/-! ## Runs that meet no limit -/

variable {σ : Type}

/-- Whether a diagnostic says that the configuration did not allow something: a call too many, or a name
or an operator without a built-in. -/
def Diagnostic.isLimit : Diagnostic → Bool
  | .callDepthExceeded _ => true
  | .unknownVariable _ => true
  | .unknownOperator _ => true
  | _ => false

/-- Nothing was recorded that comes from a limit. -/
def Effects.Unhindered (s : Effects σ) : Prop := ∀ d ∈ s.diagnostics.toList, d.isLimit = false

/-- A run forgets nothing that was recorded before, and if it is not hindered, the other run does exactly
the same. -/
structure Run.Uncut {α : Type} (m m' : Run σ α) : Prop where
  grows : ∀ s, s.diagnostics.toList <+: (m s).2.diagnostics.toList
  eq_of_unhindered : ∀ s, (m s).2.Unhindered → m' s = m s

namespace Run.Uncut

variable {α β : Type}

theorem pure (a : α) : Uncut (Pure.pure a : Run σ α) (Pure.pure a) where
  grows _ := List.prefix_rfl
  eq_of_unhindered _ _ := rfl

theorem bind {m m' : Run σ α} {f f' : α → Run σ β} (hm : Uncut m m') (hf : ∀ a, Uncut (f a) (f' a)) :
    Uncut (m >>= f) (m' >>= f') where
  grows s := (hm.grows s).trans ((hf (m s).1).grows (m s).2)
  eq_of_unhindered s hs := by
    -- What the first run recorded is still there at the end.
    have hfirst : (m s).2.Unhindered := fun d hd => hs d (((hf (m s).1).grows (m s).2).subset hd)
    rw [bind_apply, bind_apply, hm.eq_of_unhindered s hfirst]
    exact (hf (m s).1).eq_of_unhindered (m s).2 hs

end Run.Uncut

namespace Eval

open Run

theorem report_grows (d : Diagnostic) (s : Effects σ) :
    s.diagnostics.toList <+: (report d s).2.diagnostics.toList := by
  simp only [report, Array.toList_push]
  exact List.prefix_append _ _

theorem report_uncut (d : Diagnostic) : Uncut (report d : Run σ Value) (report d) where
  grows := report_grows d
  eq_of_unhindered _ _ := rfl

/-- Where a limit is met, the other run may do anything. -/
theorem report_limit_uncut {d : Diagnostic} (hd : d.isLimit = true) (m' : Run σ Value) :
    Uncut (report d) m' where
  grows := report_grows d
  eq_of_unhindered s hs := by
    have hmem : d ∈ (report d s).2.diagnostics.toList := by simp [report]
    rw [hs d hmem] at hd
    cases hd

variable {config config' : Config}

theorem valueOf_uncut (h : config.AtMost config') (env : Environment) (name : String) :
    Uncut (valueOf config env name : Run σ Value) (valueOf config' env name) := by
  unfold valueOf
  cases env.get? name with
  | some v => exact Uncut.pure v
  | none =>
      cases hb : config.builtins.lookup? name with
      | some b =>
          simp only [h.lookup? hb]
          exact Uncut.pure _
      | none => exact report_limit_uncut rfl _

variable [Writable σ]

theorem callBuiltin_uncut (b : Builtin) (arguments : List Value) :
    Uncut (callBuiltin b arguments : Run σ Value) (callBuiltin b arguments) where
  grows s := by
    unfold callBuiltin
    split
    · exact List.prefix_rfl
    · simp only [Array.toList_push]
      exact List.prefix_append _ _
  eq_of_unhindered _ _ := rfl

theorem collect_uncut (b : Builtin) (arguments : List Value) (argument : Value) :
    Uncut (collect b arguments argument : Run σ Value) (collect b arguments argument) := by
  simp only [collect]
  split
  · exact Uncut.pure _
  · exact callBuiltin_uncut b _

theorem apply_uncut {enter enter' : Enter σ}
    (henter : ∀ body env, Uncut (enter body env) (enter' body env))
    (callee argument : Value) : Uncut (apply enter callee argument) (apply enter' callee argument) := by
  cases callee with
  | closure parameter body env => exact henter body _
  | builtin b => exact collect_uncut b [] argument
  | applied b arguments => exact collect_uncut b arguments argument
  | integer n => exact report_uncut _
  | float x => exact report_uncut _
  | boolean b => exact report_uncut _
  | absent => exact report_uncut _

theorem operator_uncut (h : config.AtMost config') (op : Operator) (left right : Value) :
    Uncut (operator config op left right : Run σ Value) (operator config' op left right) := by
  unfold operator
  cases hb : config.builtins.lookup? op.symbol with
  | some b =>
      simp only [h.lookup? hb]
      exact callBuiltin_uncut b _
  | none => exact report_limit_uncut rfl _

/-- **Step lemma.** If calls do the same unless they are hindered, so does every expression. -/
theorem expression_uncut (h : config.AtMost config') {enter enter' : Enter σ}
    (henter : ∀ body env, Uncut (enter body env) (enter' body env)) (e : Expr) (env : Environment) :
    Uncut (expression config enter e env) (expression config' enter' e env) := by
  induction e with
  | integer n => exact Uncut.pure _
  | float x => exact Uncut.pure _
  | var name => exact valueOf_uncut h env name
  | binding name value ih =>
      refine ih.bind fun _ => ?_
      split
      · exact report_uncut _
      · exact Uncut.pure _
  | function parameter body => exact Uncut.pure _
  | call callee argument ihf iha =>
      exact ihf.bind fun f => iha.bind fun a => apply_uncut henter f a
  | binary op left right ihl ihr =>
      exact ihl.bind fun l => ihr.bind fun r => operator_uncut h op l r
  | ifElse condition consequence alternative ihc iht ihe =>
      exact ihc.bind fun _ => iht.bind fun _ => ihe.bind fun _ => Uncut.pure _

/-- **Run lemma.** With more calls left, a call does the same unless it is hindered. -/
theorem enter_uncut (h : config.AtMost config') {n n' : Nat} (hn : n ≤ n') (body : Expr)
    (env : Environment) : Uncut (enter config n body env : Run σ Value) (enter config' n' body env) := by
  induction n generalizing n' body env with
  | zero => exact report_limit_uncut rfl _
  | succ n ih =>
      cases n' with
      | zero => exact absurd hn (Nat.not_succ_le_zero n)
      | succ n' => exact expression_uncut h (ih (Nat.le_of_succ_le_succ hn)) body env

theorem topLevel_uncut (h : config.AtMost config') (e : Expr) (env : Environment) :
    Uncut (topLevel config e env : Run σ Value) (topLevel config' e env) :=
  expression_uncut h (enter_uncut h h.maxCallDepth_le) e env

theorem statement_uncut (h : config.AtMost config') (env : Environment) (e : Expr) :
    Uncut (statement config env e : Run σ _) (statement config' env e) := by
  unfold statement
  split
  · refine (topLevel_uncut h _ env).bind fun _ => ?_
    split
    · exact (report_uncut _).bind fun _ => Uncut.pure _
    · exact Uncut.pure _
  · exact (topLevel_uncut h _ env).bind fun _ => Uncut.pure _

theorem statements_uncut (h : config.AtMost config') (program : Program) (env : Environment) (v : Value) :
    Uncut (statements config program env v : Run σ _) (statements config' program env v) := by
  induction program generalizing env v with
  | nil => exact Uncut.pure _
  | cons e rest ih => exact (statement_uncut h env e).bind fun r => ih r.1 r.2

theorem flush_uncut : Uncut (flush : Run σ Unit) flush where
  grows s := by
    unfold flush
    split
    · exact List.prefix_rfl
    · simp only [Array.toList_push]
      exact List.prefix_append _ _
  eq_of_unhindered _ _ := rfl

end Eval

variable [Writable σ]

/-- **More changes nothing.** A program that meets no limit of a configuration comes to the same value and
the same environment, with the same diagnostics and the same output, under every configuration that
allows at least as many calls and has at least the same built-ins. -/
theorem run_eq_of_atMost (config config' : Config) (hcalls : config.maxCallDepth ≤ config'.maxCallDepth)
    (hbuiltins : ∀ b ∈ config.builtins, b ∈ config'.builtins) (program : Program) (env : Environment)
    (sink : σ)
    (hclean : ∀ d ∈ (program.run config env sink).1.diagnostics, d.isLimit = false) :
    program.run config' env sink = program.run config env sink := by
  have h : config.AtMost config' := ⟨hcalls, fun b hb => hbuiltins b hb⟩
  have huncut : Run.Uncut
      (do let result ← Eval.statements config program env .absent; Eval.flush; pure result : Run σ _)
      (do let result ← Eval.statements config' program env .absent; Eval.flush; pure result) := by
    refine (Eval.statements_uncut h program env .absent).bind fun r => ?_
    exact Eval.flush_uncut.bind fun _ => Run.Uncut.pure r
  have heq := huncut.eq_of_unhindered ⟨sink, #[]⟩ hclean
  simp only [Program.run]
  rw [heq]

/-- A function that is called once, with one call allowed and with the built-in that it uses; the call of
a number is reported in both runs. -/
theorem run_eq_of_atMost_standard :
    let config : Config := ⟨[.operator .add], 1⟩
    let program : Program := [.binding "f" (.function "n" (.binary .add (.var "n") (.integer 1))),
      .call (.var "f") (.integer 41), .call (.integer 1) (.call (.var "f") (.integer 1))]
    config.maxCallDepth ≤ Config.standard.maxCallDepth ∧
      (∀ b ∈ config.builtins, b ∈ Config.standard.builtins) ∧
      (∀ d ∈ (program.run config .empty Sink.unlimited).1.diagnostics, d.isLimit = false) ∧
      program.run .standard .empty Sink.unlimited = program.run config .empty Sink.unlimited := by
  intro config program
  have hcalls : config.maxCallDepth ≤ Config.standard.maxCallDepth := by decide
  have hbuiltins : ∀ b ∈ config.builtins, b ∈ Config.standard.builtins := by decide
  have hclean : ∀ d ∈ (program.run config .empty Sink.unlimited).1.diagnostics, d.isLimit = false := by
    have hrun : (program.run config .empty Sink.unlimited).1.diagnostics = [.notCallable (.integer 1)] := rfl
    rw [hrun]
    intro d hd
    rw [List.mem_singleton.mp hd]
    rfl
  exact ⟨hcalls, hbuiltins, hclean,
    run_eq_of_atMost config .standard hcalls hbuiltins program .empty Sink.unlimited hclean⟩

end Mapsto
