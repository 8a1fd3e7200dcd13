import Mapsto.Proofs.Eval.Growth
import Mapsto.Proofs.Session.Sequence

/-!
# `Mapsto.Proofs.Session.Growth` — the environment of a session only grows

A text that does not pass the front end leaves the environment of a session alone; a program puts new
names in front of it, and only names that are not there yet. So the environments of a session are parts
of one another, the older of the newer, and no name is ever in one of them twice
(`Session.environment_grows`).
-/

namespace Mapsto

variable {σ : Type} [Writable σ]

namespace Program

variable (config : Config)

theorem run_env_eq (p : Program) (env : Environment) (sink : σ) :
    (p.run config env sink).1.env = (Eval.statements config p env .absent ⟨sink, #[]⟩).1.1 := rfl

/-- A program adds the names that are new in it, in order, and no name gets another value. -/
theorem run_extends (p : Program) (env : Environment) (sink : σ) :
    ∃ added : List (String × Value), (p.run config env sink).1.env = env.extendAll added ∧
      added.map Prod.fst = p.newNames env ∧
      ∀ name ∈ env.names, (p.run config env sink).1.env.get? name = env.get? name := by
  obtain ⟨added, henv, hnames⟩ := Eval.statements_extends config p env .absent ⟨sink, #[]⟩
  refine ⟨added, henv, hnames, ?_⟩
  intro name hname
  rw [run_env_eq, henv, Environment.get?_extendAll_of_not_mem]
  rw [hnames, mem_newNames_iff]
  exact fun h => h.2 hname

/-- A binding of a name that is known where it stands records a redeclaration. -/
theorem run_redeclaration (before : Program) (name : String) (value : Expr) (after : Program)
    (env : Environment) (sink : σ) :
    (Eval.valueBehind config before value env ⟨sink, #[]⟩).2.diagnostics.toList ++
        (if name ∈ env.names ++ before.boundNames then [.redeclaration name] else []) <+:
      ((before ++ .binding name value :: after).run config env sink).1.diagnostics :=
  -- What the statements recorded is still there when the output has been flushed.
  (Eval.statements_redeclaration config before name value after env ⟨sink, #[]⟩).trans
    (Eval.flush_uncut.grows _)

theorem nodup_names_run {env : Environment} (henv : env.names.Nodup) (p : Program) (sink : σ) :
    (p.run config env sink).1.env.names.Nodup :=
  Eval.nodup_names_statements config henv p .absent ⟨sink, #[]⟩

end Program

namespace Session

variable (config : Config)

/-- A later environment is an earlier one with names in front of it, and if the earlier one has no name
twice, the later one has none twice. -/
structure Grown (earlier later : Environment) : Prop where
  exists_extendAll : ∃ added, later = earlier.extendAll added
  nodup : earlier.names.Nodup → later.names.Nodup

theorem Grown.refl (env : Environment) : Grown env env := ⟨⟨[], rfl⟩, id⟩

theorem Grown.trans {first second third : Environment} (h : Grown first second) (h' : Grown second third) :
    Grown first third := by
  obtain ⟨added, rfl⟩ := h.exists_extendAll
  obtain ⟨added', rfl⟩ := h'.exists_extendAll
  exact ⟨⟨added ++ added', (first.extendAll_append added added').symm⟩, fun hnodup => h'.nodup (h.nodup hnodup)⟩

/-- **Step lemma.** A text lets the environment grow. -/
theorem run_grown (session : Session) (sink : σ) (disk : Disk) (text origin : String) :
    Grown session.env (session.run config disk sink text origin).2.1.env := by
  cases h : Program.ofSource disk text origin with
  | error e =>
      rw [run_of_error config h]
      exact Grown.refl session.env
  | ok p =>
      rw [run_of_ofSource config h]
      obtain ⟨added, henv, -⟩ := p.run_extends config session.env sink
      exact ⟨⟨added, henv⟩, fun hnodup => p.nodup_names_run config hnodup sink⟩

/-- **Run lemma.** So do any number of texts. -/
theorem runAll_grown (sources : List Source) (session : Session) (sink : σ) :
    Grown session.env (session.runAll config sources sink).2.1.env := by
  induction sources generalizing session sink with
  | nil => exact Grown.refl session.env
  | cons source rest ih =>
      exact (run_grown config session sink source.disk source.text source.origin).trans (ih _ _)

/-- **Environments only grow.** Whatever the values are and whatever goes wrong, a program extends its
environment by the names of its statements that are new, in the order of the text, and the names that
were there keep their values; every other binding among the statements records a redeclaration of its
name, behind what its value records. So in a session that starts with nothing no name is bound twice, and
what is left of the session after some texts is there, unchanged, below what is left after more. -/
theorem environment_grows :
    (∀ (p : Program) (env : Environment) (sink : σ),
      ∃ added : List (String × Value), (p.run config env sink).1.env = env.extendAll added ∧
        added.map Prod.fst = p.newNames env ∧
        ∀ name ∈ env.names, (p.run config env sink).1.env.get? name = env.get? name) ∧
    (∀ (before : Program) (name : String) (value : Expr) (after : Program) (env : Environment) (sink : σ),
      (Eval.valueBehind config before value env ⟨sink, #[]⟩).2.diagnostics.toList ++
          (if name ∈ env.names ++ before.boundNames then [.redeclaration name] else []) <+:
        ((before ++ .binding name value :: after).run config env sink).1.diagnostics) ∧
    ∀ (sources more : List Source) (sink : σ),
      let earlier := (initial.runAll config sources sink).2.1.env
      let later := (initial.runAll config (sources ++ more) sink).2.1.env
      later.names.Nodup ∧ (∃ added, later = earlier.extendAll added) ∧
        ∀ name ∈ earlier.names, later.get? name = earlier.get? name := by
  refine ⟨Program.run_extends config, Program.run_redeclaration config, ?_⟩
  intro sources more sink earlier later
  have hnodup : later.names.Nodup :=
    (runAll_grown config (sources ++ more) initial sink).nodup List.nodup_nil
  have hgrown : Grown earlier later := by
    have happend := runAll_append config sources more initial sink
    rw [show later = _ from congrArg (fun ran => ran.2.1.env) happend]
    exact runAll_grown config more _ _
  obtain ⟨added, hadded⟩ := hgrown.exists_extendAll
  refine ⟨hnodup, ⟨added, hadded⟩, ?_⟩
  -- No name is there twice, so none of those that were added hides an older one.
  intro name hname
  rw [hadded, Environment.names_extendAll] at hnodup
  rw [hadded, Environment.get?_extendAll_of_not_mem]
  exact fun hmem => (List.nodup_append.mp hnodup).2.2 name (List.mem_reverse.mpr hmem) name hname rfl

end Session

end Mapsto
