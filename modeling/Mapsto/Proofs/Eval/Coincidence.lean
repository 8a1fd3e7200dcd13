import Mapsto.Proofs.Eval.Lockstep
import Mapsto.Proofs.Value.Alike

/-!
# `Mapsto.Proofs.Eval.Coincidence` — evaluation depends on the free names only

Two environments that give the same values to the free names of an expression give runs that cannot be
told apart: the same output, the same diagnostics, results of the same appearance. The results
themselves may differ, because functions keep the whole environment they are made in; they are alike
(`Mapsto.Proofs.Value.Alike`), and alike values in alike environments lead to alike results. The proof
goes step by step through the evaluator: one lemma for every function of `Mapsto.Eval`, and induction on
the expression and on the number of calls that may be open.
-/

namespace Mapsto

open Run

variable {σ : Type}

/-- Effects that look the same: the same output, and diagnostics of the same appearance. -/
def Effects.Alike (s s' : Effects σ) : Prop :=
  s.sink = s'.sink ∧
    s.diagnostics.toList.map Diagnostic.appearance = s'.diagnostics.toList.map Diagnostic.appearance

theorem Effects.Alike.refl (s : Effects σ) : Effects.Alike s s := ⟨rfl, rfl⟩

/-- Runs that look the same, with alike values. -/
abbrev RunAlike (m m' : Run σ Value) : Prop := Lockstep Effects.Alike Value.Alike m m'

namespace Builtin

/-- Results of built-ins that look the same: alike values, or failures of the same appearance. -/
inductive ResultAlike : Except Diagnostic Value → Except Diagnostic Value → Prop where
  | ok {v v' : Value} (h : v.Alike v') : ResultAlike (.ok v) (.ok v')
  | error {d d' : Diagnostic} (h : d.appearance = d'.appearance) : ResultAlike (.error d) (.error d')

theorem ResultAlike.refl (r : Except Diagnostic Value) : ResultAlike r r := by
  cases r with
  | error d => exact .error rfl
  | ok v => exact .ok (Value.Alike.refl v)

variable [Writable σ] {v v' l l' r r' : Value}

theorem operate_alike (op : Operator) (hl : l.Alike l') (hr : r.Alike r') :
    ResultAlike (operate op l r) (operate op l' r') := by
  have htype : (Diagnostic.operandType op l r).appearance = (Diagnostic.operandType op l' r').appearance := by
    refine Diagnostic.appearance_eq rfl ?_
    show "unsupported operand type(s) for " ++ op.symbol ++ ": `" ++ l.typeName ++ "` (" ++ l.text ++
      ") and `" ++ r.typeName ++ "` (" ++ r.text ++ ")" = _
    rw [hl.typeName_eq, hl.text_eq, hr.typeName_eq, hr.text_eq]
    rfl
  have hzero : (Diagnostic.divisionByZero l).appearance = (Diagnostic.divisionByZero l').appearance := by
    refine Diagnostic.appearance_eq rfl ?_
    show "division by zero: " ++ l.text ++ " / 0" = _
    rw [hl.text_eq]
    rfl
  -- From here on the two sides differ in the failures only, which quote the operands.
  unfold operate operands
  rw [hl.number?_eq, hr.number?_eq]
  cases l'.number? with
  | none => exact .error htype
  | some a =>
      cases r'.number? with
      | none => exact .error htype
      | some b =>
          simp only
          split
          · exact .error hzero
          · exact ResultAlike.refl _

theorem compute_alike (f : MathFunction) (h : v.Alike v') : ResultAlike (compute f v) (compute f v') := by
  have htype : (Diagnostic.argumentType f v).appearance = (Diagnostic.argumentType f v').appearance := by
    refine Diagnostic.appearance_eq rfl ?_
    show "unsupported argument type for " ++ f.name ++ " function: `" ++ v.typeName ++ "` (" ++ v.text ++ ")" = _
    rw [h.typeName_eq, h.text_eq]
    rfl
  have hrange : (Diagnostic.mathRange f v).appearance = (Diagnostic.mathRange f v').appearance := by
    refine Diagnostic.appearance_eq rfl ?_
    show "math range error: " ++ f.name ++ "(" ++ v.text ++ ")" = _
    rw [h.text_eq]
    rfl
  have hdomain : (Diagnostic.mathDomain f v).appearance = (Diagnostic.mathDomain f v').appearance := by
    refine Diagnostic.appearance_eq rfl ?_
    show "math domain error: " ++ f.name ++ "(" ++ v.text ++ ")" = _
    rw [h.text_eq]
    rfl
  unfold compute
  rw [h.number?_eq]
  cases v'.number? with
  | none => exact .error htype
  | some x =>
      cases f with
      | exp =>
          simp only
          split
          · exact ResultAlike.refl _
          · exact .error hrange
      | ln =>
          simp only
          split
          · exact .error hdomain
          · exact ResultAlike.refl _
      | sin => exact ResultAlike.refl _
      | cos => exact ResultAlike.refl _

theorem printLine_alike (h : v.Alike v') (sink : σ) :
    ResultAlike (printLine v sink).1 (printLine v' sink).1 ∧
      (printLine v sink).2 = (printLine v' sink).2 := by
  unfold printLine
  rw [h.text_eq]
  exact ⟨ResultAlike.refl _, rfl⟩

theorem badArity_alike (b : Builtin) {vs vs' : List Value} (h : List.Forall₂ Value.Alike vs vs') :
    ResultAlike (.error (.badArity b vs.length)) (.error (.badArity b vs'.length)) := by
  rw [h.length_eq]
  exact ResultAlike.refl _

/-- A built-in does not tell alike arguments apart. -/
theorem apply_alike (b : Builtin) {vs vs' : List Value} (h : List.Forall₂ Value.Alike vs vs')
    (sink : σ) :
    ResultAlike (b.apply vs sink).1 (b.apply vs' sink).1 ∧ (b.apply vs sink).2 = (b.apply vs' sink).2 := by
  -- Alike lists are equally long, so both sides have the right number of arguments or neither has.
  have harity := badArity_alike b h
  cases b with
  | operator op =>
      rcases h with _ | ⟨hl, _ | ⟨hr, _ | ⟨_, _⟩⟩⟩
      · exact ⟨harity, rfl⟩
      · exact ⟨harity, rfl⟩
      · exact ⟨operate_alike op hl hr, rfl⟩
      · exact ⟨harity, rfl⟩
  | choice =>
      rcases h with _ | ⟨hc, _ | ⟨ht, _ | ⟨he, _ | ⟨_, _⟩⟩⟩⟩
      · exact ⟨harity, rfl⟩
      · exact ⟨harity, rfl⟩
      · exact ⟨harity, rfl⟩
      · exact ⟨.ok (hc.ite ht he), rfl⟩
      · exact ⟨harity, rfl⟩
  | print =>
      rcases h with _ | ⟨hv, _ | ⟨_, _⟩⟩
      · exact ⟨harity, rfl⟩
      · exact printLine_alike hv sink
      · exact ⟨harity, rfl⟩
  | math f =>
      rcases h with _ | ⟨hv, _ | ⟨_, _⟩⟩
      · exact ⟨harity, rfl⟩
      · exact ⟨compute_alike f hv, rfl⟩
      · exact ⟨harity, rfl⟩

end Builtin

namespace Eval

variable {v v' f f' : Value}

theorem report_alike {d d' : Diagnostic} (h : d.appearance = d'.appearance) :
    RunAlike (report d : Run σ Value) (report d') := by
  intro s s' hs
  refine ⟨.absent, hs.1, ?_⟩
  simp only [report, Array.toList_push, List.map_append, List.map_cons, List.map_nil]
  rw [hs.2, h]

theorem valueOf_alike (config : Config) {env env' : Environment} {name : String}
    (h : Option.Rel Value.Alike (env.get? name) (env'.get? name)) :
    RunAlike (valueOf config env name : Run σ Value) (valueOf config env' name) := by
  unfold valueOf
  -- A name is bound on both sides or on neither, and then the same built-in is found.
  generalize env.get? name = found, env'.get? name = found' at h
  cases h with
  | some hv => exact Lockstep.pure hv
  | none =>
      simp only
      split
      · exact Lockstep.pure (.builtin _)
      · exact report_alike rfl

variable [Writable σ]

theorem callBuiltin_alike (b : Builtin) {vs vs' : List Value} (h : List.Forall₂ Value.Alike vs vs') :
    RunAlike (callBuiltin b vs : Run σ Value) (callBuiltin b vs') := by
  intro s s' hs
  have happly := b.apply_alike h s.sink
  unfold callBuiltin
  rw [← hs.1]
  -- Both sides write to the same sink, so they leave the same one.
  generalize b.apply vs s.sink = result, b.apply vs' s.sink = result' at happly
  obtain ⟨r, sink⟩ := result
  obtain ⟨r', sink'⟩ := result'
  obtain ⟨hr, rfl⟩ := happly
  cases hr with
  | ok hv => exact ⟨hv, rfl, hs.2⟩
  | error hd =>
      refine ⟨.absent, rfl, ?_⟩
      simp only [Array.toList_push, List.map_append, List.map_cons, List.map_nil]
      rw [hs.2, hd]

theorem collect_alike (b : Builtin) {vs vs' : List Value} (h : List.Forall₂ Value.Alike vs vs')
    (hv : v.Alike v') : RunAlike (collect b vs v : Run σ Value) (collect b vs' v') := by
  have hall : List.Forall₂ Value.Alike (vs ++ [v]) (vs' ++ [v']) := List.rel_append h (.cons hv .nil)
  unfold collect
  simp only [hall.length_eq]
  split
  · exact Lockstep.pure (.applied b hall)
  · exact callBuiltin_alike b hall

/-- How calls are entered does not depend on what the body does not name. -/
def EnterAlike (enter : Enter σ) : Prop :=
  ∀ body env env', Environment.AgreeOn body.freeNames env env' → RunAlike (enter body env) (enter body env')

theorem apply_alike {enter : Enter σ} (henter : EnterAlike enter) (hf : f.Alike f') (hv : v.Alike v') :
    RunAlike (apply enter f v) (apply enter f' v') := by
  have hno : ∀ {g g' : Value}, g.Alike g' →
      RunAlike (report (.notCallable g) : Run σ Value) (report (.notCallable g')) := by
    intro g g' hg
    refine report_alike (Diagnostic.appearance_eq rfl ?_)
    show g.text ++ " is not a function" = _
    rw [hg.text_eq]
    rfl
  cases hf with
  | closure h => exact henter _ _ _ (Environment.AgreeOn.extend_parameter h hv)
  | builtin b => exact collect_alike b .nil hv
  | applied b h => exact collect_alike b h hv
  | integer n => exact hno (.integer n)
  | float x => exact hno (.float x)
  | boolean b => exact hno (.boolean b)
  | absent => exact hno .absent

theorem operator_alike (config : Config) (op : Operator) {l l' r r' : Value} (hl : l.Alike l')
    (hr : r.Alike r') :
    RunAlike (operator config op l r : Run σ Value) (operator config op l' r') := by
  unfold operator
  split
  · exact callBuiltin_alike _ (.cons hl (.cons hr .nil))
  · exact report_alike rfl

/-- **Step lemma.** If calls do not depend on what bodies do not name, no expression depends on what it
does not name. -/
theorem expression_alike (config : Config) {enter : Enter σ} (henter : EnterAlike enter) :
    EnterAlike (expression config enter) := by
  intro e
  induction e with
  | integer n => exact fun _ _ _ => Lockstep.pure (.integer n)
  | float x => exact fun _ _ _ => Lockstep.pure (.float x)
  | var name =>
      intro env env' h
      exact valueOf_alike config (h name (List.mem_singleton.mpr rfl))
  | binding name value ih =>
      intro env env' h
      -- The name of a binding counts as free: whether it is bound already is looked at.
      have hcontains := h.contains_eq List.mem_cons_self
      refine (ih env env' (h.mono (List.subset_cons_self _ _))).bind fun _ _ _ => ?_
      rw [hcontains]
      split
      · exact report_alike rfl
      · exact Lockstep.pure .absent
  | function parameter body ih => exact fun env env' h => Lockstep.pure (.closure h)
  | call callee argument ihf iha =>
      intro env env' h
      refine (ihf env env' (h.mono (List.subset_append_left _ _))).bind fun f f' hf => ?_
      refine (iha env env' (h.mono (List.subset_append_right _ _))).bind fun a a' ha => ?_
      exact apply_alike henter hf ha
  | binary op left right ihl ihr =>
      intro env env' h
      refine (ihl env env' (h.mono (List.subset_append_left _ _))).bind fun l l' hl => ?_
      refine (ihr env env' (h.mono (List.subset_append_right _ _))).bind fun r r' hr => ?_
      exact operator_alike config op hl hr
  | ifElse condition consequence alternative ihc iht ihe =>
      intro env env' h
      have hct := h.mono (List.subset_append_left _ _)
      refine (ihc env env' (hct.mono (List.subset_append_left _ _))).bind fun c c' hc => ?_
      refine (iht env env' (hct.mono (List.subset_append_right _ _))).bind fun t t' ht => ?_
      refine (ihe env env' (h.mono (List.subset_append_right _ _))).bind fun e e' he => ?_
      exact Lockstep.pure (hc.ite ht he)

/-- **Run lemma.** However many calls may be open, a body is evaluated alike in environments that agree
on its names. -/
theorem enter_alike (config : Config) (n : Nat) : EnterAlike (enter config n : Enter σ) := by
  induction n with
  | zero => exact fun _ _ _ _ => report_alike rfl
  | succ n ih => exact expression_alike config ih

theorem topLevel_alike (config : Config) : EnterAlike (topLevel config : Enter σ) :=
  expression_alike config (enter_alike config config.maxCallDepth)

/-- The environments behind two runs of a statement agree on the same names as before, and the values
are alike. -/
def StatementAlike (names : List String) (r r' : Environment × Value) : Prop :=
  Environment.AgreeOn names r.1 r'.1 ∧ r.2.Alike r'.2

theorem statement_alike (config : Config) {names : List String} {env env' : Environment} {e : Expr}
    (h : Environment.AgreeOn names env env') (he : e.freeNames ⊆ names) :
    Lockstep Effects.Alike (StatementAlike names) (statement config env e : Run σ _)
      (statement config env' e) := by
  unfold statement
  split
  · rename_i name value
    have hcontains := h.contains_eq (he List.mem_cons_self)
    refine (topLevel_alike config value env env' (h.mono (List.subset_of_cons_subset he))).bind fun v v' hv => ?_
    rw [hcontains]
    split
    · exact (report_alike rfl).bind fun _ _ hfailed => Lockstep.pure ⟨h, hfailed⟩
    · exact Lockstep.pure ⟨h.extend hv, .absent⟩
  · exact (topLevel_alike config _ env env' (h.mono he)).bind fun v v' hv => Lockstep.pure ⟨h, hv⟩

theorem statements_alike (config : Config) {names : List String} {program : Program}
    {env env' : Environment} {v v' : Value} (h : Environment.AgreeOn names env env') (hv : v.Alike v')
    (hnames : ∀ e ∈ program, e.freeNames ⊆ names) :
    Lockstep Effects.Alike (StatementAlike names) (statements config program env v : Run σ _)
      (statements config program env' v') := by
  induction program generalizing env env' v v' with
  | nil => exact Lockstep.pure ⟨h, hv⟩
  | cons e rest ih =>
      obtain ⟨he, hrest⟩ := List.forall_mem_cons.mp hnames
      refine (statement_alike config h he).bind fun r r' hr => ?_
      exact ih hr.1 hr.2 hrest

theorem flush_alike : Lockstep Effects.Alike (fun _ _ => True) (flush : Run σ Unit) flush := by
  intro s s' hs
  refine ⟨trivial, ?_⟩
  unfold flush
  rw [← hs.1]
  generalize Writable.flush s.sink = flushed
  obtain ⟨result, sink⟩ := flushed
  cases result with
  | ok u => exact ⟨rfl, hs.2⟩
  | error e =>
      refine ⟨rfl, ?_⟩
      simp only [Array.toList_push, List.map_append, List.map_cons, List.map_nil]
      rw [hs.2]

end Eval

/-! ## Whole runs -/

variable [Writable σ]

/-- **Coincidence.** An expression, at any call depth, and a program write the same output, report the
same diagnostics and come to the same result, as far as can be seen, in two environments that give the
same values to their free names. -/
theorem run_eq_of_get?_eq_on_freeNames (config : Config) (env env' : Environment) :
    (∀ (e : Expr) (callsLeft : Nat) (s : Effects σ),
      (∀ name ∈ e.freeNames, env.get? name = env'.get? name) →
      let run := Eval.expression config (Eval.enter config callsLeft) e env s
      let run' := Eval.expression config (Eval.enter config callsLeft) e env' s
      run.2.sink = run'.2.sink ∧
        run.2.diagnostics.toList.map Diagnostic.appearance =
          run'.2.diagnostics.toList.map Diagnostic.appearance ∧
        run.1.appearance = run'.1.appearance) ∧
    ∀ (program : Program) (sink : σ),
      (∀ e ∈ program, ∀ name ∈ e.freeNames, env.get? name = env'.get? name) →
      let run := program.run config env sink
      let run' := program.run config env' sink
      run.2 = run'.2 ∧
        run.1.diagnostics.map Diagnostic.appearance = run'.1.diagnostics.map Diagnostic.appearance ∧
        run.1.value.appearance = run'.1.value.appearance := by
  constructor
  · intro e n s h
    obtain ⟨hv, hs⟩ := Eval.expression_alike config (Eval.enter_alike config n) e env env'
      (Environment.agreeOn_of_get?_eq h) s s (Effects.Alike.refl s)
    exact ⟨hs.1, hs.2, hv.appearance_eq⟩
  · intro program sink h
    -- All statements of a program see environments that agree on the names of the whole program.
    have hagree : Environment.AgreeOn (program.flatMap Expr.freeNames) env env' := by
      apply Environment.agreeOn_of_get?_eq
      intro name hname
      obtain ⟨e, he, hmem⟩ := List.mem_flatMap.mp hname
      exact h e he name hmem
    have hnames : ∀ e ∈ program, e.freeNames ⊆ program.flatMap Expr.freeNames := by
      intro e he name hname
      exact List.mem_flatMap.mpr ⟨e, he, hname⟩
    have hrun : Lockstep Effects.Alike (Eval.StatementAlike (program.flatMap Expr.freeNames))
        (do let result ← Eval.statements config program env .absent; Eval.flush; pure result : Run σ _)
        (do let result ← Eval.statements config program env' .absent; Eval.flush; pure result) := by
      refine (Eval.statements_alike config hagree .absent hnames).bind fun r r' hr => ?_
      exact Eval.flush_alike.bind fun _ _ _ => Lockstep.pure hr
    obtain ⟨hr, hs⟩ := hrun ⟨sink, #[]⟩ ⟨sink, #[]⟩ (Effects.Alike.refl _)
    exact ⟨hs.1, hs.2, hr.2.appearance_eq⟩

/-- A function that uses `x`, called with and without an older binding of `y` around. -/
theorem run_eq_of_unused_name :
    let e : Expr := .call (.function "n" (.binary .add (.var "n") (.var "x"))) (.var "x")
    let env := Environment.empty.extend "x" (.integer 20)
    let env' := (Environment.empty.extend "y" (.integer 1)).extend "x" (.integer 20)
    (∀ name ∈ e.freeNames, env.get? name = env'.get? name) ∧
      ((Program.run .standard [e] env Sink.unlimited).1.value.appearance =
        (Program.run .standard [e] env' Sink.unlimited).1.value.appearance) := by
  intro e env env'
  have h : ∀ name ∈ e.freeNames, env.get? name = env'.get? name := by
    intro name hname
    obtain rfl : name = "x" := by simpa [e, Expr.freeNames] using hname
    rfl
  refine ⟨h, ?_⟩
  have hprogram : ∀ e' ∈ [e], ∀ name ∈ e'.freeNames, env.get? name = env'.get? name := by
    intro e' he'
    rw [List.mem_singleton.mp he']
    exact h
  exact ((run_eq_of_get?_eq_on_freeNames .standard env env').2 [e] Sink.unlimited hprogram).2.2

end Mapsto
