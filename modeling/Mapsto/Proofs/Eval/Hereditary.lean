import Mapsto.Eval
import Mapsto.Proofs.Value.Reach

/-!
# `Mapsto.Proofs.Eval.Hereditary` — conditions on all values of a run

A function that was made in one place is called in another, and is stored, handed on and captured in
between. So a condition on the functions of a run has to be one on everything inside every value and
every environment (`Everywhere`), and what evaluation needs for it are two conditions: one on the
expressions that are evaluated and one on single values, such that a function made from a fine
expression is in order, and the body of a function in order is fine (`Hereditary`).
-/

namespace Mapsto

/-- The parts of an expression that are evaluated along with it. The body of a function is not. -/
def Expr.operands : Expr → List Expr
  | .binding _ value => [value]
  | .call callee argument => [callee, argument]
  | .binary _ left right => [left, right]
  | .ifElse condition consequence alternative => [condition, consequence, alternative]
  | _ => []

/-- Whether a value holds no other values and is no function of the program. -/
def Value.isSimple : Value → Bool
  | .closure _ _ _ => false
  | .applied _ _ => false
  | _ => true

/-- A condition on expressions and one on single values that agree with how expressions are taken apart
and how values are made. -/
structure Hereditary (fine : Expr → Prop) (P : Value → Prop) : Prop where
  operand {e part : Expr} : fine e → part ∈ e.operands → fine part
  simple {v : Value} : v.isSimple = true → P v
  closure {parameter : String} {body : Expr} (env : Environment) :
    fine (.function parameter body) → P (.closure parameter body env)
  body {parameter : String} {body : Expr} {env : Environment} : P (.closure parameter body env) → fine body
  applied {b : Builtin} {arguments : List Value} :
    arguments ≠ [] → arguments.length < b.arity → P (.applied b arguments)

variable {σ : Type}

/-- Whatever the effects are that a run starts from, its result satisfies a condition. -/
def Run.Returns {α : Type} (Q : α → Prop) (m : Run σ α) : Prop := ∀ s, Q (m s).1

namespace Run.Returns

variable {α β : Type} {Q : α → Prop} {Q' : β → Prop}

theorem pure {a : α} (h : Q a) : Returns Q (Pure.pure a : Run σ α) := fun _ => h

theorem bind {m : Run σ α} {f : α → Run σ β} (hm : Returns Q m) (hf : ∀ a, Q a → Returns Q' (f a)) :
    Returns Q' (m >>= f) :=
  fun s => hf (m s).1 (hm s) (m s).2

end Run.Returns

open Run

/-! ## Built-ins -/

namespace Builtin

theorem isSimple_of_exact {op : Operator} {l r : Int64} {result : Int} {v : Value}
    (h : exact op l r result = .ok v) : v.isSimple = true := by
  unfold exact at h
  split at h <;> cases h
  rfl

theorem isSimple_of_operate {op : Operator} {left right v : Value} (h : operate op left right = .ok v) :
    v.isSimple = true := by
  have hfloats : ∀ (op : Operator) (x y : Float), (onFloats op x y).isSimple = true := by
    intro op x y
    cases op <;> rfl
  unfold operate at h
  split at h
  · cases h
  split at h
  · cases h
  split at h
  · unfold onIntegers at h
    split at h
    · exact isSimple_of_exact h
    · exact isSimple_of_exact h
    · exact isSimple_of_exact h
    · cases h
      rfl
    · cases h
      rfl
  · cases h
    exact hfloats _ _ _

theorem isSimple_of_compute {f : MathFunction} {argument v : Value} (h : compute f argument = .ok v) :
    v.isSimple = true := by
  unfold compute at h
  split at h
  · cases h
  · simp only at h
    split at h
    · split at h <;> cases h
      rfl
    · split at h <;> cases h
      rfl
    · cases h
      rfl
    · cases h
      rfl

variable [Writable σ]

/-- A built-in returns one of its arguments or a value that holds no others. -/
theorem isSimple_or_mem_of_apply {b : Builtin} {arguments : List Value} {sink : σ}
    {v : Value}
    (h : (b.apply arguments sink).1 = .ok v) : v.isSimple = true ∨ v ∈ arguments := by
  unfold apply at h
  split at h
  · exact .inl (isSimple_of_operate h)
  · rename_i condition consequence alternative
    right
    obtain rfl := Except.ok.inj h
    split
    · simp
    · simp
  · left
    simp only [printLine] at h
    split at h <;> cases h
    rfl
  · exact .inl (isSimple_of_compute h)
  · cases h

end Builtin

/-! ## Evaluation -/

namespace Hereditary

open Eval

variable {fine : Expr → Prop} {P : Value → Prop}

theorem everywhere_of_isSimple (h : Hereditary fine P) {v : Value} (hv : v.isSimple = true) :
    v.Everywhere P := by
  refine Value.everywhere_iff.mpr ⟨h.simple hv, ?_⟩
  cases v with
  | closure parameter body env => cases hv
  | applied b arguments => cases hv
  | _ => nofun

theorem report (h : Hereditary fine P) (d : Diagnostic) :
    Returns (Value.Everywhere P) (report d : Run σ Value) :=
  fun _ => h.everywhere_of_isSimple rfl

theorem valueOf (h : Hereditary fine P) (config : Config) {env : Environment} (henv : env.Everywhere P)
    (name : String) : Returns (Value.Everywhere P) (valueOf config env name : Run σ Value) := by
  unfold Eval.valueOf
  split
  · rename_i v hget
    exact Returns.pure (henv.of_get? hget)
  · split
    · exact Returns.pure (h.everywhere_of_isSimple rfl)
    · exact h.report _

variable [Writable σ]

theorem callBuiltin (h : Hereditary fine P) (b : Builtin) {arguments : List Value}
    (harguments : ∀ a ∈ arguments, a.Everywhere P) :
    Returns (Value.Everywhere P) (callBuiltin b arguments : Run σ Value) := by
  intro s
  unfold Eval.callBuiltin
  split
  · rename_i v sink happly
    -- A built-in makes nothing new that holds other values.
    have hv : (b.apply arguments s.sink).1 = .ok v := by rw [happly]
    obtain hsimple | hmem := Builtin.isSimple_or_mem_of_apply hv
    · exact h.everywhere_of_isSimple hsimple
    · exact harguments v hmem
  · exact h.everywhere_of_isSimple rfl

theorem collect (h : Hereditary fine P) (b : Builtin) {arguments : List Value} {argument : Value}
    (harguments : ∀ a ∈ arguments, a.Everywhere P) (hargument : argument.Everywhere P) :
    Returns (Value.Everywhere P) (collect b arguments argument : Run σ Value) := by
  have hall : ∀ a ∈ arguments ++ [argument], a.Everywhere P :=
    List.forall_mem_append.mpr ⟨harguments, List.forall_mem_singleton.mpr hargument⟩
  simp only [Eval.collect]
  split
  · rename_i hlength
    refine Returns.pure (Value.everywhere_iff.mpr ⟨h.applied ?_ hlength, hall⟩)
    exact List.concat_ne_nil argument arguments
  · exact h.callBuiltin b hall

/-- Calls are entered in order: fine bodies come to values in order, in environments in order. -/
def Enters (fine : Expr → Prop) (P : Value → Prop) (enter : Enter σ) : Prop :=
  ∀ body env, fine body → env.Everywhere P → Returns (Value.Everywhere P) (enter body env)

theorem apply (h : Hereditary fine P) {enter : Enter σ} (henter : Enters fine P enter)
    {callee argument : Value} (hcallee : callee.Everywhere P) (hargument : argument.Everywhere P) :
    Returns (Value.Everywhere P) (apply enter callee argument) := by
  obtain ⟨hself, hparts⟩ := Value.everywhere_iff.mp hcallee
  unfold Eval.apply
  split
  · exact henter _ _ (h.body hself) (Environment.everywhere_extend_iff.mpr ⟨hargument, hparts⟩)
  · exact h.collect _ nofun hargument
  · exact h.collect _ hparts hargument
  · exact h.report _

theorem operator (h : Hereditary fine P) (config : Config) (op : Operator) {left right : Value}
    (hleft : left.Everywhere P) (hright : right.Everywhere P) :
    Returns (Value.Everywhere P) (operator config op left right : Run σ Value) := by
  unfold Eval.operator
  split
  · refine h.callBuiltin _ ?_
    exact List.forall_mem_cons.mpr ⟨hleft, List.forall_mem_singleton.mpr hright⟩
  · exact h.report _

/-- **Step lemma.** If calls are entered in order, fine expressions come to values in order. -/
theorem expression (h : Hereditary fine P) (config : Config) {enter : Enter σ}
    (henter : Enters fine P enter) :
    Enters fine P (expression config enter) := by
  intro e env he henv
  induction e with
  | integer n => exact Returns.pure (h.everywhere_of_isSimple rfl)
  | float x => exact Returns.pure (h.everywhere_of_isSimple rfl)
  | var name => exact h.valueOf config henv name
  | binding name value ih =>
      have hvalue : fine value := h.operand he (by simp [Expr.operands])
      refine (ih hvalue).bind fun v hv => ?_
      split
      · exact h.report _
      · exact Returns.pure (h.everywhere_of_isSimple rfl)
  | function parameter body ih =>
      exact Returns.pure (Value.everywhere_iff.mpr ⟨h.closure env he, henv⟩)
  | call callee argument ihf iha =>
      have hcallee : fine callee := h.operand he (by simp [Expr.operands])
      have hargument : fine argument := h.operand he (by simp [Expr.operands])
      refine (ihf hcallee).bind fun f hf => ?_
      refine (iha hargument).bind fun a ha => ?_
      exact h.apply henter hf ha
  | binary op left right ihl ihr =>
      have hleft : fine left := h.operand he (by simp [Expr.operands])
      have hright : fine right := h.operand he (by simp [Expr.operands])
      refine (ihl hleft).bind fun l hl => ?_
      refine (ihr hright).bind fun r hr => ?_
      exact h.operator config op hl hr
  | ifElse condition consequence alternative ihc iht ihe =>
      have hcondition : fine condition := h.operand he (by simp [Expr.operands])
      have hconsequence : fine consequence := h.operand he (by simp [Expr.operands])
      have halternative : fine alternative := h.operand he (by simp [Expr.operands])
      refine (ihc hcondition).bind fun c hc => ?_
      refine (iht hconsequence).bind fun t ht => ?_
      refine (ihe halternative).bind fun e he => ?_
      -- The condition picks one of two values that are in order.
      refine Returns.pure ?_
      split
      · exact ht
      · exact he

/-- **Run lemma.** However many calls may be nested, they are entered in order. -/
theorem enter (h : Hereditary fine P) (config : Config) (n : Nat) :
    Enters fine P (enter config n : Enter σ) := by
  induction n with
  | zero => exact fun _ _ _ _ => h.report _
  | succ n ih => exact h.expression config ih

theorem topLevel (h : Hereditary fine P) (config : Config) :
    Enters fine P (topLevel config : Enter σ) :=
  h.expression config (h.enter config config.maxCallDepth)

theorem statement (h : Hereditary fine P) (config : Config) {env : Environment} {e : Expr}
    (henv : env.Everywhere P) (he : fine e) :
    Returns (fun r => r.1.Everywhere P ∧ r.2.Everywhere P) (statement config env e : Run σ _) := by
  unfold Eval.statement
  split
  · rename_i name value
    have hvalue : fine value := h.operand he (by simp [Expr.operands])
    refine (h.topLevel config value env hvalue henv).bind fun v hv => ?_
    split
    · exact (h.report _).bind fun failed hfailed => Returns.pure ⟨henv, hfailed⟩
    · exact Returns.pure ⟨Environment.everywhere_extend_iff.mpr ⟨hv, henv⟩, h.everywhere_of_isSimple rfl⟩
  · exact (h.topLevel config _ env he henv).bind fun v hv => Returns.pure ⟨henv, hv⟩

theorem statements (h : Hereditary fine P) (config : Config) {program : Program} {env : Environment}
    {v : Value} (henv : env.Everywhere P) (hv : v.Everywhere P) (hfine : ∀ e ∈ program, fine e) :
    Returns (fun r => r.1.Everywhere P ∧ r.2.Everywhere P) (statements config program env v : Run σ _) := by
  induction program generalizing env v with
  | nil => exact Returns.pure ⟨henv, hv⟩
  | cons e rest ih =>
      obtain ⟨he, hrest⟩ := List.forall_mem_cons.mp hfine
      exact (h.statement config henv he).bind fun r hr => ih hr.1 hr.2 hrest

/-- A program of fine expressions comes to a value in order, and leaves an environment in order. -/
theorem run (h : Hereditary fine P) (config : Config) {program : Program} {env : Environment} (sink : σ)
    (henv : env.Everywhere P) (hfine : ∀ e ∈ program, fine e) :
    (program.run config env sink).1.env.Everywhere P ∧ (program.run config env sink).1.value.Everywhere P :=
  h.statements config henv (h.everywhere_of_isSimple rfl) hfine ⟨sink, #[]⟩

end Hereditary

end Mapsto
