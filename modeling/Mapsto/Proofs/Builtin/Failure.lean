import Mathlib.Data.List.Basic
import Mapsto.Builtin.Apply

/-!
# `Mapsto.Proofs.Builtin.Failure` — how built-ins fail

`Builtin.Failure` lists every way for a built-in to fail on its arguments, with the diagnostic that says so,
and `Builtin.failure_of_apply` says that there are no others. What is known about the diagnostics of
built-ins follows from the list, and no built-in is opened for it again: the values that they quote are
arguments, only printing has to do with output, and a wrong number of arguments is the matter only where
the number is wrong.
-/

namespace Mapsto

/-- The values that a diagnostic quotes. -/
def Diagnostic.values : Diagnostic → List Value
  | operandType _ left right => [left, right]
  | argumentType _ argument => [argument]
  | mathDomain _ argument => [argument]
  | mathRange _ argument => [argument]
  | divisionByZero left => [left]
  | notCallable v => [v]
  | _ => []

/-- Whether a diagnostic says that output failed. -/
def Diagnostic.isOutput : Diagnostic → Bool
  | output _ => true
  | _ => false

namespace Builtin

/-- The ways for a built-in to fail. -/
inductive Failure : Builtin → List Value → Diagnostic → Prop where
  | operandType (op : Operator) (left right : Value) :
      Failure (.operator op) [left, right] (.operandType op left right)
  | integerOverflow (op : Operator) (left right : Value) (l r : Int64) :
      Failure (.operator op) [left, right] (.integerOverflow op l r)
  | divisionByZero (op : Operator) (left right : Value) :
      Failure (.operator op) [left, right] (.divisionByZero left)
  | argumentType (f : MathFunction) (argument : Value) :
      Failure (.math f) [argument] (.argumentType f argument)
  | mathDomain (f : MathFunction) (argument : Value) :
      Failure (.math f) [argument] (.mathDomain f argument)
  | mathRange (f : MathFunction) (argument : Value) :
      Failure (.math f) [argument] (.mathRange f argument)
  | output (v : Value) (e : SinkError) : Failure .print [v] (.output e)
  | badArity (b : Builtin) (arguments : List Value) (h : arguments.length ≠ b.arity) :
      Failure b arguments (.badArity b arguments.length)

variable {σ : Type} [Writable σ] {b : Builtin} {arguments : List Value} {sink : σ} {d : Diagnostic}

theorem failure_of_operate {op : Operator} {left right : Value} (h : operate op left right = .error d) :
    Failure (.operator op) [left, right] d := by
  unfold operate at h
  split at h
  · rename_i heq
    unfold operands at heq
    split at heq <;> cases heq
    cases h
    exact .operandType op left right
  · split at h
    · cases h
      exact .divisionByZero op left right
    · split at h
      · -- Only results out of range are left.
        rename_i m n _ _
        have hexact : ∀ result, exact op m n result = .error d → d = .integerOverflow op m n := by
          intro result hresult
          unfold exact at hresult
          split at hresult <;> cases hresult
          rfl
        have hd : d = .integerOverflow op m n := by
          cases op with
          | add => exact hexact _ h
          | subtract => exact hexact _ h
          | multiply => exact hexact _ h
          | divide => cases h
          | greater => cases h
        rw [hd]
        exact .integerOverflow op left right m n
      · cases h

theorem failure_of_compute {f : MathFunction} {argument : Value} (h : compute f argument = .error d) :
    Failure (.math f) [argument] d := by
  unfold compute at h
  split at h
  · cases h
    exact .argumentType f argument
  · cases f with
    | exp =>
        simp only at h
        split at h <;> cases h
        exact .mathRange .exp argument
    | ln =>
        simp only at h
        split at h <;> cases h
        exact .mathDomain .ln argument
    | sin => cases h
    | cos => cases h

/-- **Failures.** A built-in that fails does so in one of the ways listed. -/
theorem failure_of_apply (h : (b.apply arguments sink).1 = .error d) : Failure b arguments d := by
  unfold apply at h
  split at h
  · exact failure_of_operate h
  · cases h
  · rename_i v
    simp only [printLine] at h
    split at h <;> cases h
    exact .output v _
  · exact failure_of_compute h
  · rename_i hoperator hchoice hprint hmath
    cases h
    refine .badArity b arguments fun hlength => ?_
    -- The right number of arguments is what the other cases are about.
    cases b with
    | operator op =>
        obtain ⟨left, right, rfl⟩ := List.length_eq_two.mp hlength
        exact hoperator op left right rfl rfl
    | choice =>
        obtain ⟨c, t, e, rfl⟩ := List.length_eq_three.mp hlength
        exact hchoice c t e rfl rfl
    | print =>
        obtain ⟨v, rfl⟩ := List.length_eq_one_iff.mp hlength
        exact hprint v rfl rfl
    | math f =>
        obtain ⟨v, rfl⟩ := List.length_eq_one_iff.mp hlength
        exact hmath f v rfl rfl

namespace Failure

variable (h : Failure b arguments d)

include h

/-- What is quoted is an argument. -/
theorem mem_arguments {v : Value} (hv : v ∈ d.values) : v ∈ arguments := by
  cases h with
  | operandType => exact hv
  | divisionByZero => exact List.mem_cons.mpr (.inl (List.mem_singleton.mp hv))
  | argumentType => exact hv
  | mathDomain => exact hv
  | mathRange => exact hv
  | _ => cases hv

/-- On as many arguments as it takes a built-in never complains about their number. -/
theorem ne_badArity (hlength : arguments.length = b.arity) (c : Builtin) (got : Nat) :
    d ≠ .badArity c got := by
  cases h with
  | badArity _ _ hne => exact absurd hlength hne
  | _ => nofun

/-- A missing operator is no affair of a built-in. -/
theorem ne_unknownOperator (op : Operator) : d ≠ .unknownOperator op := by
  cases h <;> nofun

/-- Only printing fails for reasons of output. -/
theorem exists_of_isOutput (hd : d.isOutput = true) : b = .print ∧ ∃ v, arguments = [v] := by
  cases h with
  | output v e => exact ⟨rfl, v, rfl⟩
  | _ => cases hd

end Failure

end Builtin

end Mapsto
