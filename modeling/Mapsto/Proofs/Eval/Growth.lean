import Mapsto.Proofs.Eval.Monotone

/-!
# `Mapsto.Proofs.Eval.Growth` — what programs add to their environment

Bindings stand in many places: as statements, in the middle of expressions, in the bodies of functions
that are called. Calls extend environments too, by their parameters. The environment that a program
leaves comes from the statements alone, and which names it has can be read off the text: those of the
environment that the program started in, and then the names of the bindings among the statements, each
where it stands for the first time (`Program.newNames`). Neither values nor mistakes have a say in it.

`Eval.statement_extends` is the step, one statement, and `Eval.statements_extends` the run.
-/

namespace Mapsto

/-! ## Environments -/

namespace Environment

/-- Adds names with their values, one after the other. -/
def extendAll (env : Environment) : List (String × Value) → Environment
  | [] => env
  | added :: rest => (env.extend added.1 added.2).extendAll rest

theorem extendAll_append (env : Environment) (first second : List (String × Value)) :
    env.extendAll (first ++ second) = (env.extendAll first).extendAll second := by
  induction first generalizing env with
  | nil => rfl
  | cons added rest ih => exact ih (env.extend added.1 added.2)

theorem contains_iff_mem_names {env : Environment} {name : String} :
    env.contains name = true ↔ name ∈ env.names := by
  match env with
  | empty => exact ⟨nofun, nofun⟩
  | extend env n v =>
      rw [contains, names, Bool.or_eq_true, beq_iff_eq, contains_iff_mem_names, List.mem_cons, eq_comm]

theorem names_extendAll (env : Environment) (added : List (String × Value)) :
    (env.extendAll added).names = (added.map Prod.fst).reverse ++ env.names := by
  induction added generalizing env with
  | nil => rfl
  | cons first rest ih =>
      rw [extendAll, ih, names, List.map_cons, List.reverse_cons, List.append_assoc, List.singleton_append]

/-- Names that are not among those added keep their values. -/
theorem get?_extendAll_of_not_mem {added : List (String × Value)} {name : String}
    (h : name ∉ added.map Prod.fst) (env : Environment) :
    (env.extendAll added).get? name = env.get? name := by
  induction added generalizing env with
  | nil => rfl
  | cons first rest ih =>
      rw [List.map_cons, List.mem_cons, not_or] at h
      rw [extendAll, ih h.2, get?_extend_of_ne env first.2 (Ne.symm h.1)]

end Environment

/-! ## Names in the text of a program -/

/-- The name that an expression binds where it is a statement. -/
def Expr.boundName? : Expr → Option String
  | .binding name _ => some name
  | _ => none

namespace Program

/-- The names of the bindings among the statements of a program, in order. -/
def boundNames (p : Program) : List String := p.filterMap Expr.boundName?

/-- The names of the bindings that are new where they stand: those that the environment does not have,
each where it is bound for the first time. -/
def newNames (p : Program) (env : Environment) : List String :=
  (p.boundNames.filter fun name => !env.contains name).eraseDups

theorem mem_newNames_iff {p : Program} {env : Environment} {name : String} :
    name ∈ p.newNames env ↔ name ∈ p.boundNames ∧ name ∉ env.names := by
  rw [newNames, List.mem_eraseDups, List.mem_filter, Bool.not_eq_true', ← Bool.not_eq_true,
    Environment.contains_iff_mem_names]

variable {env : Environment}

/-- An expression that is no binding adds no name. -/
theorem newNames_of_boundName?_eq_none {e : Expr} (h : e.boundName? = none) (rest : Program) :
    newNames (e :: rest) env = newNames rest env := by
  rw [newNames, boundNames, List.filterMap_cons_none h]
  rfl

/-- A binding of a name that is known adds none either. -/
theorem newNames_of_mem {e : Expr} {name : String} (h : e.boundName? = some name) (hname : name ∈ env.names)
    (rest : Program) : newNames (e :: rest) env = newNames rest env := by
  have hknown : (!env.contains name) = false := by
    rw [Environment.contains_iff_mem_names.mpr hname, Bool.not_true]
  rw [newNames, boundNames, List.filterMap_cons_some h, List.filter_cons_of_neg (by rw [hknown]; nofun)]
  rfl

/-- Any other binding adds its name, which is known from then on. -/
theorem newNames_of_not_mem {e : Expr} {name : String} (h : e.boundName? = some name)
    (hname : name ∉ env.names) (v : Value) (rest : Program) :
    newNames (e :: rest) env = name :: newNames rest (env.extend name v) := by
  have hnew : (!env.contains name) = true := by
    rw [Bool.not_eq_true', ← Bool.not_eq_true, Environment.contains_iff_mem_names]
    exact hname
  have hfirst : (name :: boundNames rest).filter (fun n => !env.contains n) =
      name :: (boundNames rest).filter fun n => !env.contains n := List.filter_cons_of_pos hnew
  rw [newNames, boundNames, List.filterMap_cons_some h, ← boundNames, hfirst, List.eraseDups_cons,
    List.filter_filter]
  refine congrArg (fun names => name :: List.eraseDups names) (List.filter_congr fun n _ => ?_)
  rw [Environment.contains, Bool.not_or, BEq.comm]

end Program

/-! ## Running statements -/

namespace Eval

open Run

variable {σ : Type} [Writable σ] (config : Config)

/-- What a binding does that is a statement. -/
theorem statement_binding (env : Environment) (name : String) (value : Expr) (s : Effects σ) :
    statement config env (.binding name value) s =
      let evaluated := topLevel config value env s
      if name ∈ env.names then ((env, .absent), (report (.redeclaration name) evaluated.2).2)
      else ((env.extend name evaluated.1, .absent), evaluated.2) := by
  have hstatement : statement config env (.binding name value) s =
      (if env.contains name = true then do
        let failed ← report (.redeclaration name)
        pure (env, failed)
      else pure (env.extend name (topLevel config value env s).1, .absent) : Run σ (Environment × Value))
        (topLevel config value env s).2 := rfl
  rw [hstatement]
  simp only [Environment.contains_iff_mem_names]
  by_cases hname : name ∈ env.names
  · rw [if_pos hname, if_pos hname]
    rfl
  · rw [if_neg hname, if_neg hname]
    rfl

/-- The environment that a statement leaves, by the name that it binds. -/
theorem statement_env_eq (env : Environment) (e : Expr) (s : Effects σ) :
    (e.boundName? = none ∧ (statement config env e s).1.1 = env) ∨
      ∃ name, e.boundName? = some name ∧
        (name ∈ env.names ∧ (statement config env e s).1.1 = env ∨
          name ∉ env.names ∧ ∃ v, (statement config env e s).1.1 = env.extend name v) := by
  cases e with
  | binding name value =>
      right
      refine ⟨name, rfl, ?_⟩
      rw [statement_binding]
      by_cases hname : name ∈ env.names
      · exact .inl ⟨hname, by rw [if_pos hname]⟩
      · exact .inr ⟨hname, _, by rw [if_neg hname]⟩
  | integer n => exact .inl ⟨rfl, rfl⟩
  | float x => exact .inl ⟨rfl, rfl⟩
  | var name => exact .inl ⟨rfl, rfl⟩
  | function parameter body => exact .inl ⟨rfl, rfl⟩
  | call callee argument => exact .inl ⟨rfl, rfl⟩
  | binary op left right => exact .inl ⟨rfl, rfl⟩
  | ifElse condition consequence alternative => exact .inl ⟨rfl, rfl⟩

/-- **Step lemma.** A statement adds the name that is new in it, if there is one, and whatever stands behind
it adds what is new after that. -/
theorem statement_extends (env : Environment) (e : Expr) (s : Effects σ) :
    ∃ added : List (String × Value), (statement config env e s).1.1 = env.extendAll added ∧
      ∀ rest : Program, Program.newNames (e :: rest) env =
        added.map Prod.fst ++ rest.newNames (env.extendAll added) := by
  obtain ⟨hnone, henv⟩ | ⟨name, hsome, ⟨hname, henv⟩ | ⟨hname, v, henv⟩⟩ := statement_env_eq config env e s
  · exact ⟨[], henv, Program.newNames_of_boundName?_eq_none hnone⟩
  · exact ⟨[], henv, Program.newNames_of_mem hsome hname⟩
  · exact ⟨[(name, v)], henv, Program.newNames_of_not_mem hsome hname v⟩

/-- **Run lemma.** The statements of a program add the names that are new in it, in order. -/
theorem statements_extends (p : Program) (env : Environment) (v : Value) (s : Effects σ) :
    ∃ added : List (String × Value), (statements config p env v s).1.1 = env.extendAll added ∧
      added.map Prod.fst = p.newNames env := by
  induction p generalizing env v s with
  | nil => exact ⟨[], rfl, rfl⟩
  | cons e rest ih =>
      obtain ⟨first, henv, hnames⟩ := statement_extends config env e s
      obtain ⟨behind, henv', hnames'⟩ :=
        ih (statement config env e s).1.1 (statement config env e s).1.2 (statement config env e s).2
      refine ⟨first ++ behind, ?_, ?_⟩
      · rw [Environment.extendAll_append, ← henv, ← henv']
        rfl
      · rw [List.map_append, hnames', henv, hnames]

/-- What is known behind the statements of a program: what was known before, and what they bind. -/
theorem mem_names_statements_iff {p : Program} {env : Environment} {v : Value} {s : Effects σ} {name : String} :
    name ∈ (statements config p env v s).1.1.names ↔ name ∈ env.names ++ p.boundNames := by
  obtain ⟨added, henv, hnames⟩ := statements_extends config p env v s
  rw [henv, Environment.names_extendAll, hnames, List.mem_append, List.mem_append, List.mem_reverse,
    Program.mem_newNames_iff]
  by_cases hknown : name ∈ env.names
  · exact iff_of_true (.inr hknown) (.inl hknown)
  · simp only [hknown, not_false_eq_true, and_true, or_false, false_or]

/-- Statements give no name a second value. -/
theorem nodup_names_statements {env : Environment} (henv : env.names.Nodup) (p : Program) (v : Value)
    (s : Effects σ) : (statements config p env v s).1.1.names.Nodup := by
  induction p generalizing env v s with
  | nil => exact henv
  | cons e rest ih =>
      have hstep : (statement config env e s).1.1.names.Nodup := by
        obtain ⟨-, h⟩ | ⟨name, -, ⟨-, h⟩ | ⟨hname, v, h⟩⟩ := statement_env_eq config env e s
        · rwa [h]
        · rwa [h]
        · rw [h]
          exact List.nodup_cons.mpr ⟨hname, henv⟩
      exact ih hstep _ _

/-! ## Bindings that come too late -/

/-- Evaluates the value of a binding that stands behind other statements. -/
def valueBehind (before : Program) (value : Expr) (env : Environment) : Run σ Value := do
  let reached ← statements config before env .absent
  topLevel config value reached.1

/-- Diagnostics that were recorded stay. -/
theorem statements_grows (p : Program) (env : Environment) (v : Value) (s : Effects σ) :
    s.diagnostics.toList <+: (statements config p env v s).2.diagnostics.toList :=
  (statements_uncut ⟨Nat.le_refl _, List.Subset.refl _⟩ p env v).grows s

/-- A binding of a name that is known where it stands records a redeclaration, right behind what its value
records. -/
theorem statements_redeclaration (before : Program) (name : String) (value : Expr) (after : Program)
    (env : Environment) (s : Effects σ) :
    (valueBehind config before value env s).2.diagnostics.toList ++
        (if name ∈ env.names ++ before.boundNames then [.redeclaration name] else []) <+:
      (statements config (before ++ .binding name value :: after) env .absent s).2.diagnostics.toList := by
  have hknown : name ∈ (statements config before env .absent s).1.1.names ↔
      name ∈ env.names ++ before.boundNames := mem_names_statements_iff config
  rw [statements_append, bind_apply, statements_cons, statement_binding, valueBehind, bind_apply]
  simp only [← hknown]
  generalize statements config before env .absent s = reached
  generalize topLevel config value reached.1.1 reached.2 = evaluated
  split
  · rw [← Array.toList_push]
    exact statements_grows config after reached.1.1 .absent (report (.redeclaration name) evaluated.2).2
  · rw [List.append_nil]
    exact statements_grows config after (reached.1.1.extend name evaluated.1) .absent evaluated.2

end Eval

end Mapsto
