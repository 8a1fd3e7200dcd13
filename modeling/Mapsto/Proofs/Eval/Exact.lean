import Mapsto.Proofs.Decimal.Integer
import Mapsto.Proofs.Eval.Monotone

/-!
# `Mapsto.Proofs.Eval.Exact` — integers are exact or absent

`Expr.unbounded?` is arithmetic without bounds, for expressions in which nothing but integers and truth
values can come up (`Expr.Integral`). Evaluation computes with 64 bits. As long as every result of an
operator fits into them both come to the same, and nothing is recorded; that is the case exactly if nothing
is recorded (`Expr.ExactOrAbsent`). A result that does not fit is never wrapped: the operator reports it, and
its value is absent.

What is absent is no operand. So without choices one operator after the other fails from there on, up to the
root, and the report of the first one is the first diagnostic, because operands are evaluated before the
operator. A choice may pick the other branch; its condition and both branches are evaluated, whichever is
picked.
-/

namespace Mapsto

/-! ## Arithmetic without bounds -/

/-- A value of arithmetic without bounds. -/
inductive Unbounded where
  | integer (n : Int)
  | boolean (b : Bool)

namespace Unbounded

/-- The value as an operand. Truth values count as `0` and `1`. -/
def toInt : Unbounded → Int
  | integer n => n
  | boolean b => if b then 1 else 0

/-- Whether the value counts as true. -/
def isTruthy : Unbounded → Bool
  | integer n => n != 0
  | boolean b => b

/-- Whether the language has such a value. Its integers go from `-2^63` to `2^63 - 1`. -/
def InRange : Unbounded → Prop
  | integer n => -9223372036854775808 ≤ n ∧ n ≤ 9223372036854775807
  | boolean _ => True

end Unbounded

/-- What an operator comes to without bounds. A quotient is no integer. -/
def Operator.unbounded? (op : Operator) (left right : Int) : Option Unbounded :=
  match op with
  | .add => some (.integer (left + right))
  | .subtract => some (.integer (left - right))
  | .multiply => some (.integer (left * right))
  | .divide => none
  | .greater => some (.boolean (decide (right < left)))

theorem Operator.exists_unbounded? {op : Operator} (hop : op ≠ .divide) (left right : Int) :
    ∃ x, op.unbounded? left right = some x := by
  cases op with
  | divide => exact absurd rfl hop
  | _ => exact ⟨_, rfl⟩

/-- The exact result of an operator does not fit into 64 bits. -/
def Operator.Overflows (op : Operator) (left right : Int64) : Prop :=
  ∃ x, op.unbounded? left.toInt right.toInt = some x ∧ ¬ x.InRange

/-- What an integer or a truth value stands for. -/
def Value.unbounded? : Value → Option Unbounded
  | integer n => some (.integer n.toInt)
  | boolean b => some (.boolean b)
  | _ => none

namespace Expr

/-- What an expression comes to without bounds. -/
def unbounded? (env : Environment) : Expr → Option Unbounded
  | integer n => some (.integer n.toInt)
  | var name => (env.get? name).bind Value.unbounded?
  | binary op left right => do
    let l ← left.unbounded? env
    let r ← right.unbounded? env
    op.unbounded? l.toInt r.toInt
  | ifElse condition consequence alternative => do
    let c ← condition.unbounded? env
    let t ← consequence.unbounded? env
    let e ← alternative.unbounded? env
    some (if c.isTruthy then t else e)
  | _ => none

/-- Expressions made of integers, names of integers and of truth values, operators other than division, and
choices. -/
inductive Integral (env : Environment) : Expr → Prop where
  | integer (n : Int64) : Integral env (integer n)
  | integerName {name : String} {n : Int64} (h : env.get? name = some (.integer n)) : Integral env (var name)
  | booleanName {name : String} {b : Bool} (h : env.get? name = some (.boolean b)) : Integral env (var name)
  | binary {op : Operator} {left right : Expr} (hop : op ≠ .divide) (hleft : Integral env left)
      (hright : Integral env right) : Integral env (binary op left right)
  | ifElse {condition consequence alternative : Expr} (hcondition : Integral env condition)
      (hconsequence : Integral env consequence) (halternative : Integral env alternative) :
      Integral env (ifElse condition consequence alternative)

/-- There is no choice in an expression. -/
def NoChoice : Expr → Prop
  | binding _ value => value.NoChoice
  | function _ body => body.NoChoice
  | call callee argument => callee.NoChoice ∧ argument.NoChoice
  | binary _ left right => left.NoChoice ∧ right.NoChoice
  | ifElse _ _ _ => False
  | _ => True

/-- The exact results of all operators fit into 64 bits, also those in branches that are not picked. -/
def Fits (env : Environment) : Expr → Prop
  | binary op left right =>
    left.Fits env ∧ right.Fits env ∧ ∀ x, (binary op left right).unbounded? env = some x → x.InRange
  | ifElse condition consequence alternative =>
    condition.Fits env ∧ consequence.Fits env ∧ alternative.Fits env
  | _ => True

/-- What the value `v` of an expression, evaluated with the diagnostics `found`, has to do with arithmetic
without bounds. -/
structure ExactOrAbsent (e : Expr) (env : Environment) (v : Value) (found : List Diagnostic) : Prop where
  /-- If nothing is recorded, the value is exact. -/
  exact : found = [] → v.unbounded? = e.unbounded? env
  /-- Nothing is recorded exactly if all results fit. -/
  clean_iff : found = [] ↔ e.Fits env
  /-- Without choices, whatever is recorded leads to absence, and it begins with a result that does not
  fit. -/
  overflow : e.NoChoice → found ≠ [] → v = .absent ∧
    ∃ op l r rest, found = .integerOverflow op l r :: rest ∧ op.Overflows l r

end Expr

/-! ## Operators -/

theorem Value.isTruthy_of_unbounded? {v : Value} {x : Unbounded} (h : v.unbounded? = some x) :
    v.isTruthy = x.isTruthy := by
  cases v with
  | integer n =>
      cases h
      rw [isTruthy, Unbounded.isTruthy, Bool.eq_iff_iff, bne_iff_ne, bne_iff_ne, ne_eq, ne_eq,
        ← Int64.toInt_inj]
      rfl
  | boolean b =>
      cases h
      rfl
  | _ => cases h

/-- A value as an operand is what it stands for. -/
theorem Value.number?_of_unbounded? {v : Value} {x : Unbounded} (h : v.unbounded? = some x) :
    ∃ n : Int64, v.number? = some (.integer n) ∧ n.toInt = x.toInt := by
  cases v with
  | integer n =>
      cases h
      exact ⟨n, rfl, rfl⟩
  | boolean b =>
      cases h
      refine ⟨if b then 1 else 0, rfl, ?_⟩
      cases b <;> rfl
  | _ => cases h

namespace Builtin

/-- An integer result is exact, or it does not fit and is reported. -/
theorem exact_cases (op : Operator) (l r : Int64) (result : Int) :
    (∃ n : Int64, exact op l r result = .ok (.integer n) ∧ n.toInt = result) ∨
      ¬ (Unbounded.integer result).InRange ∧ exact op l r result = .error (.integerOverflow op l r) := by
  unfold exact
  cases hresult : Decimal.integer? result with
  | some n => exact .inl ⟨n, rfl, Decimal.toInt_of_integer? hresult⟩
  | none =>
      refine .inr ⟨fun hrange => ?_, rfl⟩
      rw [Decimal.integer?, if_pos (show Int64.minValue.toInt ≤ result ∧ result ≤ Int64.maxValue.toInt from
        hrange)] at hresult
      cases hresult

theorem inRange_toInt (n : Int64) : (Unbounded.integer n.toInt).InRange :=
  ⟨Int64.minValue_le_toInt n, Int64.toInt_le n⟩

/-- **Operators.** On integers an operator comes to the exact result, or that does not fit and is reported. -/
theorem onIntegers_cases {op : Operator} (hop : op ≠ .divide) (m n : Int64) :
    ∃ x, op.unbounded? m.toInt n.toInt = some x ∧
      (x.InRange ∧ (∃ v, onIntegers op m n = .ok v ∧ v.unbounded? = some x) ∨
        ¬ x.InRange ∧ onIntegers op m n = .error (.integerOverflow op m n)) := by
  have hexact : ∀ result, (Unbounded.integer result).InRange ∧
      (∃ v, exact op m n result = .ok v ∧ v.unbounded? = some (.integer result)) ∨
        ¬ (Unbounded.integer result).InRange ∧ exact op m n result = .error (.integerOverflow op m n) := by
    intro result
    obtain ⟨k, hk, rfl⟩ | hover := exact_cases op m n result
    · exact .inl ⟨inRange_toInt k, .integer k, hk, rfl⟩
    · exact .inr hover
  cases op with
  | add => exact ⟨_, rfl, hexact _⟩
  | subtract => exact ⟨_, rfl, hexact _⟩
  | multiply => exact ⟨_, rfl, hexact _⟩
  | divide => exact absurd rfl hop
  | greater => exact ⟨_, rfl, .inl ⟨trivial, _, rfl, rfl⟩⟩

/-- An operator on values that stand for something is the operator on integers. -/
theorem operate_eq_onIntegers {op : Operator} (hop : op ≠ .divide) {left right : Value} {m n : Int64}
    (hleft : left.number? = some (.integer m)) (hright : right.number? = some (.integer n)) :
    operate op left right = onIntegers op m n := by
  unfold operate operands
  rw [hleft, hright]
  exact if_neg fun h => hop h.1

/-- What is absent is no operand. -/
theorem operate_of_absent (op : Operator) {left right : Value} (h : left = .absent ∨ right = .absent) :
    operate op left right = .error (.operandType op left right) := by
  unfold operate operands
  rcases h with rfl | rfl
  · rfl
  · cases left.number? <;> rfl

end Builtin

/-! ## Runs that only record -/

variable {σ : Type}

namespace Run

variable {α β : Type}

/-- From whatever effects it starts, a run comes to the result `a` and records `found`, and that is all. -/
def Records (m : Run σ α) (a : α) (found : List Diagnostic) : Prop :=
  ∀ s, m s = (a, { s with diagnostics := s.diagnostics ++ found.toArray })

theorem Records.pure (a : α) : Records (Pure.pure a : Run σ α) a [] := by
  intro s
  rw [Array.append_empty]
  rfl

theorem Records.bind {m : Run σ α} {f : α → Run σ β} {a : α} {b : β} {first second : List Diagnostic}
    (hm : Records m a first) (hf : Records (f a) b second) : Records (m >>= f) b (first ++ second) := by
  intro s
  rw [bind_apply, hm s, hf, ← List.append_toArray, Array.append_assoc]

end Run

namespace Eval

open Run

variable (σ) [Writable σ] {config : Config} {op : Operator}

/-- An operator in the table comes to what it comes to on the values, or reports why it cannot. -/
theorem records_operator (hop : .operator op ∈ config.builtins) (left right : Value) :
    (∀ v, Builtin.operate op left right = .ok v →
      Records (operator config op left right : Run σ Value) v []) ∧
      ∀ d, Builtin.operate op left right = .error d →
        Records (operator config op left right : Run σ Value) .absent [d] := by
  have hrun : (operator config op left right : Run σ Value) = callBuiltin (.operator op) [left, right] := by
    rw [operator, BuiltinTable.lookup?_symbol hop]
  rw [hrun]
  constructor
  · intro v hv s
    simp only [callBuiltin, Builtin.apply, hv, Array.append_empty]
  · intro d hd s
    simp only [callBuiltin, Builtin.apply, hd, Array.push_eq_append]

/-- Whatever an operator in the table is applied to, it only records; and what is absent leads to absence. -/
theorem exists_records_operator (hop : .operator op ∈ config.builtins) (left right : Value) :
    ∃ v new, Records (operator config op left right : Run σ Value) v new ∧
      (left = .absent ∨ right = .absent → v = .absent) := by
  obtain ⟨hok, herror⟩ := records_operator σ hop left right
  cases hresult : Builtin.operate op left right with
  | ok v =>
      refine ⟨v, [], hok v hresult, fun habsent => ?_⟩
      rw [Builtin.operate_of_absent op habsent] at hresult
      cases hresult
  | error d => exact ⟨.absent, [d], herror d hresult, fun _ => rfl⟩

end Eval

/-! ## Expressions -/

namespace Expr

variable {env : Environment}

/-- Where nothing is recorded and all results fit, only the value has to be right. -/
theorem ExactOrAbsent.of_fits {e : Expr} {v : Value} (hexact : v.unbounded? = e.unbounded? env)
    (hfits : e.Fits env) : e.ExactOrAbsent env v [] where
  exact _ := hexact
  clean_iff := iff_of_true rfl hfits
  overflow _ hne := absurd rfl hne

section Binary

variable {op : Operator} {left right : Expr} {l r v : Value} {found found' : List Diagnostic}

theorem unbounded?_binary {x y : Unbounded} (hx : left.unbounded? env = some x)
    (hy : right.unbounded? env = some y) :
    (binary op left right).unbounded? env = op.unbounded? x.toInt y.toInt := by
  rw [unbounded?, hx, hy]
  rfl

/-- Behind operands that failed, an operator adds nothing to the front of what is recorded. -/
theorem ExactOrAbsent.binary_of_failed (hl : left.ExactOrAbsent env l found)
    (hr : right.ExactOrAbsent env r found') (hfailed : found ++ found' ≠ [])
    (habsent : l = .absent ∨ r = .absent → v = .absent) (new : List Diagnostic) :
    (binary op left right).ExactOrAbsent env v (found ++ (found' ++ new)) where
  exact h := by
    rw [← List.append_assoc] at h
    exact absurd (List.append_eq_nil_iff.mp h).1 hfailed
  clean_iff := by
    rw [← List.append_assoc]
    refine iff_of_false (fun h => hfailed (List.append_eq_nil_iff.mp h).1) ?_
    rintro ⟨hleft, hright, -⟩
    exact hfailed (List.append_eq_nil_iff.mpr ⟨hl.clean_iff.mpr hleft, hr.clean_iff.mpr hright⟩)
  overflow := by
    rintro ⟨hleft, hright⟩ -
    by_cases hfound : found = []
    · subst hfound
      obtain ⟨hvalue, op', m, n, rest, rfl, hover⟩ := hr.overflow hright hfailed
      exact ⟨habsent (.inr hvalue), op', m, n, rest ++ new, rfl, hover⟩
    · obtain ⟨hvalue, op', m, n, rest, rfl, hover⟩ := hl.overflow hleft hfound
      exact ⟨habsent (.inl hvalue), op', m, n, rest ++ (found' ++ new), rfl, hover⟩

variable (σ) in
/-- An operator on exact operands comes to the exact result, or reports that it does not fit. -/
theorem ExactOrAbsent.exists_binary [Writable σ] {config : Config} (htable : .operator op ∈ config.builtins)
    (hop : op ≠ .divide) (hl : left.ExactOrAbsent env l []) (hr : right.ExactOrAbsent env r [])
    {x y : Unbounded} (hx : left.unbounded? env = some x) (hy : right.unbounded? env = some y) :
    ∃ v new, Run.Records (Eval.operator config op l r : Run σ Value) v new ∧
      (binary op left right).ExactOrAbsent env v new := by
  obtain ⟨m, hm, hmx⟩ := Value.number?_of_unbounded? ((hl.exact rfl).trans hx)
  obtain ⟨n, hn, hny⟩ := Value.number?_of_unbounded? ((hr.exact rfl).trans hy)
  obtain ⟨z, hz, hcases⟩ := Builtin.onIntegers_cases hop m n
  have hexact : (binary op left right).unbounded? env = some z := by
    rw [unbounded?_binary hx hy, ← hmx, ← hny, hz]
  obtain ⟨hok, herror⟩ := Eval.records_operator σ htable l r
  rw [Builtin.operate_eq_onIntegers hop hm hn] at hok herror
  rcases hcases with ⟨hrange, v, hv, hvz⟩ | ⟨hrange, hover⟩
  · refine ⟨v, [], hok v hv, .of_fits (hvz.trans hexact.symm) ⟨?_, ?_, ?_⟩⟩
    · exact hl.clean_iff.mp rfl
    · exact hr.clean_iff.mp rfl
    · intro z' hz'
      obtain rfl : z = z' := Option.some.inj (hexact.symm.trans hz')
      exact hrange
  · refine ⟨.absent, _, herror _ hover, ?_⟩
    constructor
    · nofun
    · exact iff_of_false nofun fun hfits => hrange (hfits.2.2 z hexact)
    · exact fun _ _ => ⟨rfl, op, m, n, [], rfl, z, hz, hrange⟩

end Binary

/-- A choice between exact values is exact, and records what its three parts record. -/
theorem ExactOrAbsent.choice {condition consequence alternative : Expr} {c t e : Value}
    {found₁ found₂ found₃ : List Diagnostic} (hc : condition.ExactOrAbsent env c found₁)
    (ht : consequence.ExactOrAbsent env t found₂) (he : alternative.ExactOrAbsent env e found₃)
    {x y z : Unbounded} (hx : condition.unbounded? env = some x) (hy : consequence.unbounded? env = some y)
    (hz : alternative.unbounded? env = some z) :
    (ifElse condition consequence alternative).unbounded? env = some (if x.isTruthy then y else z) ∧
      (ifElse condition consequence alternative).ExactOrAbsent env (if c.isTruthy then t else e)
        (found₁ ++ (found₂ ++ found₃)) := by
  have hexact : (ifElse condition consequence alternative).unbounded? env =
      some (if x.isTruthy then y else z) := by
    rw [unbounded?, hx, hy, hz]
    rfl
  refine ⟨hexact, ?_, ?_, nofun⟩
  · intro hnil
    simp only [List.append_eq_nil_iff] at hnil
    obtain ⟨h₁, h₂, h₃⟩ := hnil
    rw [hexact, Value.isTruthy_of_unbounded? ((hc.exact h₁).trans hx)]
    by_cases hpicked : x.isTruthy = true
    · rw [if_pos hpicked, if_pos hpicked, ht.exact h₂, hy]
    · rw [if_neg hpicked, if_neg hpicked, he.exact h₃, hz]
  · simp only [List.append_eq_nil_iff, hc.clean_iff, ht.clean_iff, he.clean_iff]
    rfl

end Expr

namespace Eval

open Run

variable [Writable σ]

/-- A name of an integer or of a truth value comes to what its value stands for. -/
theorem exactOrAbsent_name (config : Config) (enter : Enter σ) {env : Environment} {name : String} {v : Value}
    {x : Unbounded} (hname : env.get? name = some v) (hx : v.unbounded? = some x) :
    (Expr.var name).unbounded? env = some x ∧ Records (expression config enter (.var name) env) v [] ∧
      (Expr.var name).ExactOrAbsent env v [] := by
  have hexact : (Expr.var name).unbounded? env = some x := by
    rw [Expr.unbounded?, hname]
    exact hx
  have hrun : expression config enter (.var name) env = pure v := by
    rw [expression, valueOf, hname]
  exact ⟨hexact, hrun ▸ .pure v, .of_fits (hx.trans hexact.symm) trivial⟩

/-- **Integers are exact or absent.** With all operators but division in the table, an integer program comes to
something without bounds, and evaluating it does nothing but record diagnostics. If there are none, its value is
the exact one, and there are none exactly if all exact results of operators fit into 64 bits. If there are some
and the program has no choice, its value is absent, and the first diagnostic is that of a result that does not
fit. -/
theorem expression_exactOrAbsent {config : Config}
    (htable : ∀ op : Operator, op ≠ .divide → .operator op ∈ config.builtins) (enter : Enter σ) {e : Expr}
    {env : Environment} (he : e.Integral env) :
    ∃ x v found, e.unbounded? env = some x ∧ Records (expression config enter e env) v found ∧
      e.ExactOrAbsent env v found := by
  induction he with
  | integer n => exact ⟨.integer n.toInt, .integer n, [], rfl, .pure _, .of_fits rfl trivial⟩
  | integerName hname => exact ⟨_, _, [], exactOrAbsent_name config enter hname rfl⟩
  | booleanName hname => exact ⟨_, _, [], exactOrAbsent_name config enter hname rfl⟩
  | @binary op left right hop _ _ ihl ihr =>
      obtain ⟨x, l, found, hx, hrunl, hl⟩ := ihl
      obtain ⟨y, r, found', hy, hrunr, hr⟩ := ihr
      obtain ⟨z, hz⟩ := Operator.exists_unbounded? hop x.toInt y.toInt
      have hexact := (Expr.unbounded?_binary hx hy).trans hz
      by_cases hclean : found ++ found' = []
      · obtain ⟨rfl, rfl⟩ := List.append_eq_nil_iff.mp hclean
        obtain ⟨v, new, hrun, hv⟩ := hl.exists_binary σ (htable op hop) hop hr hx hy
        exact ⟨z, v, new, hexact, hrunl.bind (hrunr.bind hrun), hv⟩
      · -- An operand failed, and the operator has no say in how it began.
        obtain ⟨v, new, hrun, habsent⟩ := exists_records_operator σ (htable op hop) l r
        exact ⟨z, v, _, hexact, hrunl.bind (hrunr.bind hrun), hl.binary_of_failed hr hclean habsent new⟩
  | ifElse _ _ _ ihc iht ihe =>
      obtain ⟨x, c, found₁, hx, hrunc, hc⟩ := ihc
      obtain ⟨y, t, found₂, hy, hrunt, ht⟩ := iht
      obtain ⟨z, e, found₃, hz, hrune, he⟩ := ihe
      obtain ⟨hexact, hv⟩ := hc.choice ht he hx hy hz
      refine ⟨_, _, _, hexact, ?_, hv⟩
      rw [← List.append_nil found₃]
      exact hrunc.bind (hrunt.bind (hrune.bind (.pure _)))

/-- The greatest integer and a truth value make a sum that does not fit, and the comparison with it fails too. -/
theorem expression_exactOrAbsent_sum :
    let config : Config := ⟨[.operator .add, .operator .subtract, .operator .multiply, .operator .greater], 0⟩
    let env : Environment := .extend .empty "yes" (.boolean true)
    let e : Expr := .binary .greater (.binary .add (.integer 9223372036854775807) (.var "yes")) (.integer 0)
    (∀ op : Operator, op ≠ .divide → .operator op ∈ config.builtins) ∧ e.Integral env ∧ e.NoChoice ∧
      ¬ e.Fits env ∧
      ∃ x v found, e.unbounded? env = some x ∧
        Records (expression config (enter config config.maxCallDepth : Enter Sink) e env) v found ∧
        e.ExactOrAbsent env v found := by
  intro config env e
  have htable : ∀ op : Operator, op ≠ .divide → .operator op ∈ config.builtins := by
    intro op hop
    cases op with
    | divide => exact absurd rfl hop
    | _ => decide
  have he : e.Integral env :=
    .binary (by decide) (.binary (by decide) (.integer _) (.booleanName rfl)) (.integer 0)
  have hfits : ¬ e.Fits env := by
    rintro ⟨⟨-, -, hsum⟩, -⟩
    have hrange : (Unbounded.integer 9223372036854775808).InRange := hsum _ rfl
    exact absurd hrange.2 (by decide)
  exact ⟨htable, he, ⟨⟨trivial, trivial⟩, trivial⟩, hfits, expression_exactOrAbsent htable _ he⟩

end Eval

end Mapsto
