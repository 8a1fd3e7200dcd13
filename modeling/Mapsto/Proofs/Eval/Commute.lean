import Mapsto.Proofs.Eval.Additions
import Mapsto.Proofs.Eval.Coincidence
import Mapsto.Proofs.Eval.Growth

/-!
# `Mapsto.Proofs.Eval.Commute` — bindings that do not know each other

Two bindings of new names, neither of which uses the name of the other, may be run in either order
(`Program.run_bindings_comm`). The environments that the two orders leave are never equal: their names are
in a different order, and functions keep environments with one name more or less. But every name has alike
values in both (`Eval.agreeOn_either_order`), and that is all that a program can find out about an
environment (`Mapsto.Proofs.Eval.Coincidence`).

What a binding prints and reports does not depend on its turn either: it is what the bound expression
prints and reports on its own, where neither name is bound.
-/

namespace Mapsto

open Effects

namespace Eval

variable (config : Config)

/-! ## A binding of a new name -/

/-- A binding of a new name adds it, and does besides what its value does. -/
theorem statement_of_new {env : Environment} {name : String} (hname : name ∉ env.names) (value : Expr)
    {s : Effects Sink} (hs : s.sink.TakesAll) :
    let alone := topLevel config value env nothing
    statement config env (.binding name value) s =
      ((env.extend name alone.1, .absent), s.followedBy alone.2) := by
  intro alone
  obtain ⟨hvalue, -⟩ := topLevel_eq_followedBy config value env hs
  rw [statement_binding, hvalue]
  exact if_neg hname

/-! ## Two orders -/

/-- A new name that an expression does not use changes nothing about the names that it uses. -/
theorem get?_extend_of_not_mem {e : Expr} {name : String} (h : name ∉ e.freeNames) (env : Environment)
    (v : Value) : ∀ used ∈ e.freeNames, (env.extend name v).get? used = env.get? used := by
  intro used hused
  refine Environment.get?_extend_of_ne env v ?_
  rintro rfl
  exact h hused

/-- In whichever order two names get alike values, all names have alike values then. -/
theorem agreeOn_either_order {names : List String} {a b : String} (hab : a ≠ b) (env : Environment)
    {v v' w w' : Value} (hv : v.Alike v') (hw : w.Alike w') :
    Environment.AgreeOn names ((env.extend a v).extend b w) ((env.extend b w').extend a v') := by
  intro name _
  by_cases hb : b = name
  · subst hb
    rw [Environment.get?_extend_self, Environment.get?_extend_of_ne _ v' hab, Environment.get?_extend_self]
    exact .some hw
  · rw [Environment.get?_extend_of_ne _ w hb]
    by_cases ha : a = name
    · subst ha
      rw [Environment.get?_extend_self, Environment.get?_extend_self]
      exact .some hv
    · rw [Environment.get?_extend_of_ne _ v ha, Environment.get?_extend_of_ne _ v' ha,
        Environment.get?_extend_of_ne _ w' hb]
      exact Value.get?_alike env name

end Eval

/-! ## Programs behind -/

namespace Program

variable (config : Config)

/-- Two bindings of new names, one behind the other. The second one sees the first. -/
theorem run_bindings (env : Environment) {sink : Sink} (hsink : sink.TakesAll) {a b : String} (hab : a ≠ b)
    (ha : a ∉ env.names) (hb : b ∉ env.names) (e₁ e₂ : Expr) :
    let first := Eval.topLevel config e₁ env nothing
    let second := Eval.topLevel config e₂ (env.extend a first.1) nothing
    run config [.binding a e₁, .binding b e₂] env sink =
      (⟨.absent, (env.extend a first.1).extend b second.1,
          first.2.diagnostics.toList ++ second.2.diagnostics.toList⟩,
        sink.wrote (first.2.sink.written ++ second.2.sink.written)) := by
  intro first second
  obtain ⟨-, htakes⟩ := Eval.topLevel_eq_followedBy config e₁ env takesAll_nothing
  have hb' : b ∉ (env.extend a first.1).names := by
    rw [Environment.names, List.mem_cons, not_or]
    exact ⟨hab.symm, hb⟩
  rw [run_eq_wrote config _ env hsink, Eval.statements_cons,
    Eval.statement_of_new config ha e₁ takesAll_nothing, nothing_followedBy htakes, Eval.statements_cons,
    Eval.statement_of_new config hb' e₂ htakes, ← Array.toList_append]
  rfl

/-- On its own a program cannot tell environments apart in which all names have alike values. -/
theorem statements_alone_alike (p : Program) {env env' : Environment}
    (h : ∀ names, Environment.AgreeOn names env env') :
    let alone := Eval.statements config p env .absent nothing
    let alone' := Eval.statements config p env' .absent nothing
    alone.1.2.Alike alone'.1.2 ∧ Effects.Alike alone.2 alone'.2 := by
  intro alone alone'
  have hnames : ∀ e ∈ p, e.freeNames ⊆ p.flatMap Expr.freeNames := by
    intro e he name hname
    exact List.mem_flatMap.mpr ⟨e, he, hname⟩
  obtain ⟨⟨-, hvalue⟩, heffects⟩ := Eval.statements_alike config (h (p.flatMap Expr.freeNames)) .absent hnames
    nothing nothing (Effects.Alike.refl nothing)
  exact ⟨hvalue, heffects⟩

/-- **Independent bindings commute.** Let `a` and `b` be different names that are not bound, `e₁` an
expression that does not use `b`, and `e₂` one that does not use `a`. Binding `a` to `e₁` and then `b` to
`e₂` prints and reports what `e₁` does and then what `e₂` does; binding them the other way round, what `e₂`
does and then what `e₁` does. No program that is run behind can tell in which order it was. -/
theorem run_bindings_comm (env : Environment) {sink : Sink} (hsink : sink.TakesAll) {a b : String}
    (hab : a ≠ b) (ha : a ∉ env.names) (hb : b ∉ env.names) {e₁ e₂ : Expr} (h₁ : b ∉ e₁.freeNames)
    (h₂ : a ∉ e₂.freeNames) :
    let piece₁ := (Eval.topLevel config e₁ env nothing).2
    let piece₂ := (Eval.topLevel config e₂ env nothing).2
    let forth := run config [.binding a e₁, .binding b e₂] env sink
    let back := run config [.binding b e₂, .binding a e₁] env sink
    forth.2 = sink.wrote (piece₁.sink.written ++ piece₂.sink.written) ∧
      forth.1.diagnostics.map Diagnostic.appearance =
        piece₁.diagnostics.toList.map Diagnostic.appearance ++
          piece₂.diagnostics.toList.map Diagnostic.appearance ∧
      back.2 = sink.wrote (piece₂.sink.written ++ piece₁.sink.written) ∧
      back.1.diagnostics.map Diagnostic.appearance =
        piece₂.diagnostics.toList.map Diagnostic.appearance ++
          piece₁.diagnostics.toList.map Diagnostic.appearance ∧
      ∀ q : Program,
        let behind := q.run config forth.1.env forth.2
        let behind' := q.run config back.1.env back.2
        ∃ printed, behind.2 = forth.2.wrote printed ∧ behind'.2 = back.2.wrote printed ∧
          behind.1.diagnostics.map Diagnostic.appearance = behind'.1.diagnostics.map Diagnostic.appearance ∧
          behind.1.value.appearance = behind'.1.value.appearance := by
  intro piece₁ piece₂ forth back
  let v := (Eval.topLevel config e₁ env nothing).1
  let w := (Eval.topLevel config e₂ env nothing).1
  let second := Eval.topLevel config e₂ (env.extend a v) nothing
  let second' := Eval.topLevel config e₁ (env.extend b w) nothing
  -- Whichever is second sees one name more, which it does not use.
  obtain ⟨hv, heffects₁⟩ : v.Alike second'.1 ∧ Effects.Alike piece₁ second'.2 :=
    Eval.topLevel_alike config e₁ env (env.extend b w)
      (Environment.agreeOn_of_get?_eq fun name hname => (Eval.get?_extend_of_not_mem h₁ env w name hname).symm)
      nothing nothing (Effects.Alike.refl nothing)
  obtain ⟨hw, heffects₂⟩ : second.1.Alike w ∧ Effects.Alike second.2 piece₂ :=
    Eval.topLevel_alike config e₂ (env.extend a v) env
      (Environment.agreeOn_of_get?_eq (Eval.get?_extend_of_not_mem h₂ env v))
      nothing nothing (Effects.Alike.refl nothing)
  have hforth : forth = _ := run_bindings config env hsink hab ha hb e₁ e₂
  have hback : back = _ := run_bindings config env hsink hab.symm hb ha e₂ e₁
  have hagree : ∀ names, Environment.AgreeOn names forth.1.env back.1.env := by
    intro names
    rw [hforth, hback]
    exact Eval.agreeOn_either_order hab env hv hw
  refine ⟨?_, ?_, ?_, ?_, ?_⟩
  · rw [hforth, show piece₂.sink = second.2.sink from heffects₂.1.symm]
  · rw [hforth, ← heffects₂.2, List.map_append]
  · rw [hback, show piece₁.sink = second'.2.sink from heffects₁.1]
  · rw [hback, heffects₁.2, List.map_append]
  · intro q behind behind'
    obtain ⟨hvalue, hprinted, hreported⟩ := statements_alone_alike config q hagree
    have hforthTakes : forth.2.TakesAll := by
      rw [hforth]
      exact hsink.wrote _
    have hbackTakes : back.2.TakesAll := by
      rw [hback]
      exact hsink.wrote _
    have hbehind : behind = _ := run_eq_wrote config q forth.1.env hforthTakes
    have hbehind' : behind' = _ := run_eq_wrote config q back.1.env hbackTakes
    refine ⟨(Eval.statements config q forth.1.env .absent nothing).2.sink.written, ?_, ?_, ?_, ?_⟩
    · rw [hbehind]
    · rw [hbehind', hprinted]
    · rw [hbehind, hbehind']
      exact hreported
    · rw [hbehind, hbehind']
      exact hvalue.appearance_eq

/-- A function and what is printed when a name is bound, around a name that both use; the program behind
calls the function. -/
theorem run_function_and_print_comm :
    let env := Environment.empty.extend "x" (.integer 20)
    let e₁ : Expr := .function "n" (.binary .add (.var "n") (.var "x"))
    let e₂ : Expr := .call (.var "print") (.var "x")
    let forth := run .standard [.binding "f" e₁, .binding "p" e₂] env Sink.unlimited
    let back := run .standard [.binding "p" e₂, .binding "f" e₁] env Sink.unlimited
    let q : Program := [.call (.var "print") (.var "f"), .call (.var "f") (.integer 22)]
    Sink.unlimited.TakesAll ∧ "f" ≠ "p" ∧ "f" ∉ env.names ∧ "p" ∉ env.names ∧ "p" ∉ e₁.freeNames ∧
      "f" ∉ e₂.freeNames ∧
      ∃ printed, (q.run .standard forth.1.env forth.2).2 = forth.2.wrote printed ∧
        (q.run .standard back.1.env back.2).2 = back.2.wrote printed ∧
        (q.run .standard forth.1.env forth.2).1.value.appearance =
          (q.run .standard back.1.env back.2).1.value.appearance := by
  intro env e₁ e₂ forth back q
  have hnames : "f" ≠ "p" ∧ "f" ∉ env.names ∧ "p" ∉ env.names ∧ "p" ∉ e₁.freeNames ∧ "f" ∉ e₂.freeNames := by
    decide
  obtain ⟨hfp, hf, hp, h₁, h₂⟩ := hnames
  obtain ⟨-, -, -, -, hbehind⟩ :=
    run_bindings_comm .standard env Sink.takesAll_unlimited hfp hf hp h₁ h₂
  obtain ⟨printed, hforth, hback, -, hvalue⟩ := hbehind q
  exact ⟨Sink.takesAll_unlimited, hfp, hf, hp, h₁, h₂, printed, hforth, hback, hvalue⟩

end Program

end Mapsto
