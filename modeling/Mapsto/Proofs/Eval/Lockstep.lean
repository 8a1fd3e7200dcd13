import Mapsto.Eval

/-!
# `Mapsto.Proofs.Eval.Lockstep` — two runs side by side

Statements about two runs (in two environments, with two sinks of whatever kinds, under two configurations)
all have the same form: the effects start out related and stay so, and the results are related. `Lockstep S R` is
this form, and it is kept by running one step after the other; a statement about all programs is then a
matter of the single steps.

**Effects are not looked at.** Evaluation records diagnostics and runs built-ins, and does nothing else
to the effects. So a relation between effects that these two keep is kept by every expression and every
program, with the same results (`Oblivious.expression`, `Oblivious.statements`).
-/

namespace Mapsto

variable {σ τ : Type}

namespace Run

variable {α β γ δ : Type} {S : Effects σ → Effects τ → Prop} {R : α → β → Prop}

theorem bind_apply (m : Run σ α) (f : α → Run σ β) (s : Effects σ) : (m >>= f) s = f (m s).1 (m s).2 := rfl

/-- From effects related by `S` two runs lead to effects related by `S` and results related by `R`. -/
def Lockstep (S : Effects σ → Effects τ → Prop) (R : α → β → Prop) (m : Run σ α) (m' : Run τ β) : Prop :=
  ∀ s s', S s s' → R (m s).1 (m' s').1 ∧ S (m s).2 (m' s').2

theorem Lockstep.pure {a : α} {b : β} (h : R a b) : Lockstep S R (Pure.pure a) (Pure.pure b) :=
  fun _ _ hs => ⟨h, hs⟩

theorem Lockstep.bind {Q : γ → δ → Prop} {m : Run σ α} {m' : Run τ β} {f : α → Run σ γ}
    {f' : β → Run τ δ}
    (h : Lockstep S R m m') (hf : ∀ a b, R a b → Lockstep S Q (f a) (f' b)) :
    Lockstep S Q (m >>= f) (m' >>= f') := by
  intro s s' hs
  obtain ⟨hr, hs'⟩ := h s s' hs
  exact hf _ _ hr _ _ hs'

end Run

open Run

variable [Writable σ] [Writable τ]

/-! ## Statements one behind the other -/

namespace Eval

theorem statements_cons (config : Config) (e : Expr) (rest : Program) (env : Environment) (v : Value)
    (s : Effects σ) :
    statements config (e :: rest) env v s =
      statements config rest (statement config env e s).1.1 (statement config env e s).1.2
        (statement config env e s).2 := rfl

theorem statements_append (config : Config) (p q : Program) (env : Environment) (v : Value) :
    statements (σ := σ) config (p ++ q) env v =
      (do let r ← statements config p env v; statements config q r.1 r.2) := by
  induction p generalizing env v with
  | nil => rfl
  | cons e rest ih =>
      funext s
      rw [List.cons_append, statements_cons, ih]
      rfl

end Eval

/-! ## The same run on related effects -/

/-- Recording a diagnostic and running a built-in keep a relation between effects, and come to the same
results. -/
structure Oblivious (S : Effects σ → Effects τ → Prop) : Prop where
  report (d : Diagnostic) : Lockstep S Eq (Eval.report d) (Eval.report d)
  callBuiltin (b : Builtin) (arguments : List Value) :
    Lockstep S Eq (Eval.callBuiltin b arguments) (Eval.callBuiltin b arguments)

namespace Oblivious

open Eval

variable {S : Effects σ → Effects τ → Prop}

omit [Writable σ] [Writable τ] in
/-- To go on from equal results is to go on from one of them. -/
theorem bind {α β : Type} {m : Run σ α} {m' : Run τ α} {f : α → Run σ β} {f' : α → Run τ β}
    (hm : Lockstep S Eq m m') (hf : ∀ a, Lockstep S Eq (f a) (f' a)) :
    Lockstep S Eq (m >>= f) (m' >>= f') := by
  refine Lockstep.bind hm ?_
  rintro a _ rfl
  exact hf a

omit [Writable σ] [Writable τ] in
theorem pure {α : Type} (a : α) : Lockstep S Eq (Pure.pure a) (Pure.pure a) :=
  Lockstep.pure rfl

theorem collect (h : Oblivious S) (b : Builtin) (arguments : List Value) (argument : Value) :
    Lockstep S Eq (collect b arguments argument) (collect b arguments argument) := by
  simp only [Eval.collect]
  split
  · exact pure _
  · exact h.callBuiltin b _

theorem apply (h : Oblivious S) {enter : Enter σ} {enter' : Enter τ}
    (henter : ∀ body env, Lockstep S Eq (enter body env) (enter' body env))
    (callee argument : Value) :
    Lockstep S Eq (apply enter callee argument) (apply enter' callee argument) := by
  unfold Eval.apply
  split
  · exact henter _ _
  · exact h.collect _ _ _
  · exact h.collect _ _ _
  · exact h.report _

theorem valueOf (h : Oblivious S) (config : Config) (env : Environment) (name : String) :
    Lockstep S Eq (valueOf config env name) (valueOf config env name) := by
  unfold Eval.valueOf
  split
  · exact pure _
  · split
    · exact pure _
    · exact h.report _

theorem operator (h : Oblivious S) (config : Config) (op : Operator) (left right : Value) :
    Lockstep S Eq (operator config op left right) (operator config op left right) := by
  unfold Eval.operator
  split
  · exact h.callBuiltin _ _
  · exact h.report _

theorem expression (h : Oblivious S) (config : Config) {enter : Enter σ} {enter' : Enter τ}
    (henter : ∀ body env, Lockstep S Eq (enter body env) (enter' body env)) (e : Expr) (env : Environment) :
    Lockstep S Eq (expression config enter e env) (expression config enter' e env) := by
  induction e with
  | integer n => exact pure _
  | float x => exact pure _
  | var name => exact h.valueOf config env name
  | binding name value ih =>
      refine bind ih fun _ => ?_
      split
      · exact h.report _
      · exact pure _
  | function parameter body => exact pure _
  | call callee argument ihf iha => exact bind ihf fun f => bind iha fun a => h.apply henter f a
  | binary op left right ihl ihr => exact bind ihl fun l => bind ihr fun r => h.operator config op l r
  | ifElse condition consequence alternative ihc iht ihe =>
      exact bind ihc fun _ => bind iht fun _ => bind ihe fun _ => pure _

theorem enter (h : Oblivious S) (config : Config) (n : Nat) (body : Expr) (env : Environment) :
    Lockstep S Eq (enter config n body env) (enter config n body env) := by
  induction n generalizing body env with
  | zero => exact h.report _
  | succ n ih => exact h.expression config ih body env

theorem topLevel (h : Oblivious S) (config : Config) (e : Expr) (env : Environment) :
    Lockstep S Eq (topLevel config e env) (topLevel config e env) :=
  h.expression config (h.enter config config.maxCallDepth) e env

theorem statement (h : Oblivious S) (config : Config) (env : Environment) (e : Expr) :
    Lockstep S Eq (statement config env e) (statement config env e) := by
  unfold Eval.statement
  split
  · refine bind (h.topLevel config _ env) fun _ => ?_
    split
    · exact bind (h.report _) fun _ => pure _
    · exact pure _
  · exact bind (h.topLevel config _ env) fun _ => pure _

/-- **Programs.** What the single steps keep, whole programs keep. -/
theorem statements (h : Oblivious S) (config : Config) (program : Program) (env : Environment) (v : Value) :
    Lockstep S Eq (statements config program env v) (statements config program env v) := by
  induction program generalizing env v with
  | nil => exact pure _
  | cons e rest ih => exact bind (h.statement config env e) fun r => ih r.1 r.2

end Oblivious

end Mapsto
