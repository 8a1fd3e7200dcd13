import Mapsto.Proofs.Parser.Counted

/-!
# `Mapsto.Proofs.Parser.Indexed` — the parser as a cursor in one list of tokens

The parser of `Mapsto.Expr.Parser` is given the tokens that are left. Here the whole list stays where it is,
and what changes is an index into it, next to the two counters of `Mapsto.Proofs.Parser.Counted`. A parser
that stopped because of a mistake keeps all three, and the next call goes on with them.

Three things can go wrong with an index, and each of them brings a step to a standstill: it comes to nothing,
as it does without fuel.

* The index is moved on where no token is left (`advance`).
* A token is read at an index that was kept, and none is there (`tokenAt`): this is how the end of line is
  found again that stands where an expression is required.
* A loop goes on although it has taken as many rounds as there are tokens, and one more.

**Simulation.** `Agrees` compares a step with the counted one on the tokens behind the index. If the counted
step ends, so does this one, at an index that is no smaller than before and not beyond the last token; both
come to the same, and the counted step leaves the tokens behind that index. It holds of every rule
(`agrees_expression` and those before it) and of every required place (`agrees_required`). Since counted
steps with enough fuel end, none of the three ever happens.
-/

namespace Mapsto.Parser

/-- Where a parser stands between two steps. -/
structure Place where
  /-- The index of the next token. -/
  index : Nat
  /-- How many required places are open. -/
  nesting : Nat
  /-- The height of the tree that was parsed last. -/
  height : Nat

/-- What is parsed, and how deep trees may be. -/
structure Source where
  tokens : Tokens
  limit : Nat

/-- A step of a parser with an index. -/
abbrev Indexed := ExceptT ParseError (StateT Place Option)

namespace Indexed

/-! ## The steps -/

/-- A step that comes to nothing. -/
def standstill {α : Type} : Indexed α := fun _ => none

/-- Moves over a token. -/
def advance (s : Source) : Indexed Unit := fun p =>
  if p.index < s.tokens.length then some (.ok (), { p with index := p.index + 1 }) else none

/-- The token at an index that was kept. -/
def tokenAt (s : Source) (index : Nat) : Indexed (Spanned Token) :=
  match s.tokens[index]? with
  | some token => pure token
  | none => standstill

def note (height : Nat) : Indexed Unit := modify fun p => { p with height := height }

/-- The complaint about something too deep that starts at an index. -/
def tooDeep (s : Source) (start : Nat) : ParseError :=
  match s.tokens[start]? with
  | some token => .tooDeeplyNested s.limit token.span
  | none => .tooDeeplyNested s.limit (endOf s.tokens)

/-- Notes the height of the tree just made, if it is not too high. -/
def setHeight (s : Source) (start height : Nat) : Indexed Unit :=
  if s.limit < height then throw (tooDeep s start) else note height

def expect (s : Source) (want : Token) : Indexed Unit := do
  match s.tokens[(← get).index]? with
  | none => throw (.unexpectedEnd want.describe (endOf s.tokens))
  | some token => if token.value = want then advance s else throw (.expected want.describe token)

def expectName (s : Source) : Indexed String := do
  match s.tokens[(← get).index]? with
  | none => throw (.unexpectedEnd "identifier" (endOf s.tokens))
  | some ⟨.identifier name, _⟩ =>
    advance s
    pure name
  | some token => throw (.expected "identifier" token)

/-- Does something while one place more is open. The place is closed however that ends. -/
def nested {α : Type} (step : Indexed α) : Indexed α := fun p =>
  match step { p with nesting := p.nesting + 1 } with
  | none => none
  | some (result, p') => some (result, { p' with nesting := p'.nesting - 1 })

/-- `{ '(' expression ')' }` behind a function of the given height. -/
def arguments (s : Source) (sub : Indexed Expr) (start : Nat) :
    (rounds : Nat) → Expr → (height : Nat) → Indexed Expr
  | 0, _, _ => standstill
  | rounds + 1, callee, height => do
    match s.tokens[(← get).index]? with
    | some ⟨.leftParen, _⟩ =>
      advance s
      let argument ← sub
      expect s .rightParen
      let p ← get
      setHeight s start (max height p.height + 1)
      arguments s sub start rounds (.call callee argument) (max height p.height + 1)
    | _ =>
      note height
      pure callee

/-- `IDENT { '(' expression ')' }`. -/
def application (s : Source) (sub : Indexed Expr) : Indexed Expr := do
  let start ← get
  let name ← expectName s
  arguments s sub start.index (s.tokens.length + 1) (.var name) 1

/-- `NUMBER | IDENT { '(' expression ')' } | '(' expression ')'`, or an end of line, which is no expression. -/
def factor (s : Source) (sub : Indexed Expr) : Indexed (Option Expr) := do
  match s.tokens[(← get).index]? with
  | none => throw (.unexpectedEnd "an expression" (endOf s.tokens))
  | some token =>
    match token.value with
    | .number lexeme =>
      advance s
      match literal? lexeme with
      | some e =>
        note 1
        pure (some e)
      | none => throw (.invalidNumber lexeme token.span)
    | .identifier _ =>
      let e ← application s sub
      pure (some e)
    | .leftParen =>
      advance s
      let e ← sub
      expect s .rightParen
      pure (some e)
    | .endLine =>
      advance s
      pure none
    | _ => throw (.unexpected token)

/-- The operators and operands behind a first operand of the given height. -/
def chain (s : Source) (operator? : Token → Option Operator) (operand : Indexed (Option Expr))
    (start : Nat) : (rounds : Nat) → Expr → (height : Nat) → Indexed Expr
  | 0, _, _ => standstill
  | rounds + 1, left, height => do
    match s.tokens[(← get).index]? with
    | none =>
      note height
      pure left
    | some token =>
      match operator? token.value with
      | none =>
        note height
        pure left
      | some op =>
        advance s
        let rightStart ← get
        match ← operand with
        | none =>
          let got ← tokenAt s rightStart.index
          throw (.expectedExpression got)
        | some right =>
          let p ← get
          setHeight s start (max height p.height + 1)
          chain s operator? operand start rounds (.binary op left right) (max height p.height + 1)

/-- `operand { operator operand }`, associating to the left. -/
def leftAssociative (s : Source) (operator? : Token → Option Operator) (operand : Indexed (Option Expr)) :
    Indexed (Option Expr) := do
  let start ← get
  match ← operand with
  | none => pure none
  | some left =>
    let p ← get
    let e ← chain s operator? operand start.index (s.tokens.length + 1) left p.height
    pure (some e)

def term (s : Source) (sub : Indexed Expr) : Indexed (Option Expr) :=
  leftAssociative s productOperator? (factor s sub)

def sum (s : Source) (sub : Indexed Expr) : Indexed (Option Expr) :=
  leftAssociative s sumOperator? (term s sub)

/-- `IDENT sign expression`: a binding or a function, by its sign. -/
def headed (s : Source) (sub : Indexed Expr) (sign : Token) (make : String → Expr → Expr) :
    Indexed Expr := do
  let start ← get
  let name ← expectName s
  expect s sign
  let e ← sub
  let p ← get
  setHeight s start.index (p.height + 1)
  pure (make name e)

/-- `'if' expression 'then' expression 'else' expression`. -/
def ifElse (s : Source) (sub : Indexed Expr) : Indexed Expr := do
  let start ← get
  expect s .ifWord
  let condition ← sub
  let p₁ ← get
  expect s .thenWord
  let consequence ← sub
  let p₂ ← get
  expect s .elseWord
  let alternative ← sub
  let p₃ ← get
  setHeight s start.index (max (max p₁.height p₂.height) p₃.height + 1)
  pure (.ifElse condition consequence alternative)

/-- An expression, or an end of line, which is no expression. -/
def expression (s : Source) (sub : Indexed Expr) : Indexed (Option Expr) := do
  let p ← get
  match s.tokens[p.index]?, s.tokens[p.index + 1]? with
  | some ⟨.identifier _, _⟩, some ⟨.binding, _⟩ =>
    let e ← headed s sub .binding .binding
    pure (some e)
  | some ⟨.identifier _, _⟩, some ⟨.mapsTo, _⟩ =>
    let e ← headed s sub .mapsTo .function
    pure (some e)
  | some ⟨.ifWord, _⟩, _ =>
    let e ← ifElse s sub
    pure (some e)
  | _, _ => sum s sub

/-- An expression where one is required. -/
def required (s : Source) : (fuel : Nat) → Indexed Expr
  | 0 => standstill
  | fuel + 1 => do
    let start ← get
    if s.limit ≤ start.nesting then throw (tooDeep s start.index)
    else
      match ← nested (expression s (required s fuel)) with
      | some e => pure e
      | none =>
        let got ← tokenAt s start.index
        throw (.expectedExpression got)

/-- The expressions up to the end of the text. -/
def statements (s : Source) : (rounds : Nat) → Indexed Program
  | 0 => standstill
  | rounds + 1 => do
    if (← get).index < s.tokens.length then
      match ← expression s (required s (s.tokens.length + 1)) with
      | none => statements s rounds
      | some e =>
        let rest ← statements s rounds
        pure (e :: rest)
    else pure []

/-- Parses everything that is left. -/
def call (s : Source) : Place → Option (Except ParseError Program × Place) :=
  statements s (s.tokens.length + 1)

/-- Where a parser stands that has read nothing. -/
def fresh : Place := ⟨0, 0, 0⟩

/-- Where a parser stands that has read nothing and is called so many times. -/
def afterCalls (s : Source) : (calls : Nat) → Option Place
  | 0 => some fresh
  | calls + 1 => do
    let p ← afterCalls s calls
    let (_, p') ← call s p
    pure p'

end Indexed

/-! ## Indexed steps and counted ones -/

/-- The counters at a place, with the tokens that are left. -/
def Place.counter (tokens : Tokens) (p : Place) : Counter := ⟨tokens.drop p.index, p.nesting, p.height⟩

/-- What the counted steps know. -/
def Source.checks (s : Source) : Checks := ⟨some s.limit, endOf s.tokens⟩

/-- The result of a step that began at an index says what was found: a tree, or an end of line at that
index. -/
def Found.IsAt (tokens : Tokens) (index : Nat) : Found → Option Expr → Prop
  | tree e, result => result = some e
  | lineEnd token, result => result = none ∧ tokens[index]? = some token

/-- If a counted step ends, then so does an indexed one, at an index between `first` and the end of the
tokens. Both leave the same tokens, with the same counters, and come to the same, up to `Same`. -/
inductive Agrees {α β : Type} (s : Source) (first : Nat) (Same : α → β → Prop) :
    Option (Except ParseError α × Place) → Option (Except ParseError β × Counter) → Prop where
  | ok (a : α) (b : β) (p : Place) (hfirst : first ≤ p.index) (hlast : p.index ≤ s.tokens.length)
    (h : Same a b) : Agrees s first Same (some (.ok a, p)) (some (.ok b, p.counter s.tokens))
  | error (e : ParseError) (p : Place) (hfirst : first ≤ p.index) (hlast : p.index ≤ s.tokens.length) :
    Agrees s first Same (some (.error e, p)) (some (.error e, p.counter s.tokens))
  | unended (x : Option (Except ParseError α × Place)) : Agrees s first Same x none

namespace Agrees

variable {α β γ δ : Type} {s : Source} {first first' : Nat} {Same : α → β → Prop} {Same' : γ → δ → Prop}

theorem mono {x : Option (Except ParseError α × Place)} {y : Option (Except ParseError β × Counter)}
    (h : Agrees s first Same x y) (hle : first' ≤ first) : Agrees s first' Same x y := by
  cases h with
  | ok a b p hfirst hlast h => exact .ok a b p (Nat.le_trans hle hfirst) hlast h
  | error e p hfirst hlast => exact .error e p (Nat.le_trans hle hfirst) hlast
  | unended => exact .unended x

/-- **One step after the other.** -/
theorem bind {x : Indexed α} {f : α → Indexed γ} {y : Counted β} {g : β → Counted δ} {p : Place}
    {c : Counter} (hx : Agrees s first' Same (x p) (y c)) (hle : first ≤ first')
    (hf : ∀ a b p', x p = some (.ok a, p') → first' ≤ p'.index → p'.index ≤ s.tokens.length → Same a b →
      Agrees s first Same' (f a p') (g b (p'.counter s.tokens))) :
    Agrees s first Same' ((x >>= f) p) ((y >>= g) c) := by
  rw [Counted.bind_apply, Counted.bind_apply]
  generalize x p = indexed at hx hf
  generalize y c = counted at hx
  cases hx with
  | ok a b p' hfirst hlast h => exact hf a b p' rfl hfirst hlast h
  | error e p' hfirst hlast => exact .error e p' (Nat.le_trans hle hfirst) hlast
  | unended => exact .unended _

end Agrees

namespace Indexed

variable {α : Type} {s : Source}

/-- At the end of the tokens none is left; elsewhere the next one is the first of those that are left. -/
theorem next_cases (s : Source) (p : Place) :
    s.tokens[p.index]? = none ∧ (p.counter s.tokens).tokens = [] ∨
      ∃ token, s.tokens[p.index]? = some token ∧ p.index < s.tokens.length ∧
        (p.counter s.tokens).tokens = token :: s.tokens.drop (p.index + 1) := by
  unfold Place.counter
  by_cases hlt : p.index < s.tokens.length
  · right
    refine ⟨s.tokens[p.index], List.getElem?_eq_getElem hlt, hlt, ?_⟩
    exact List.drop_eq_getElem_cons hlt
  · left
    have hle : s.tokens.length ≤ p.index := Nat.le_of_not_lt hlt
    exact ⟨List.getElem?_eq_none hle, List.drop_eq_nil_of_le hle⟩

theorem advance_bind_apply {p : Place} (h : p.index < s.tokens.length) (f : Unit → Indexed α) :
    (advance s >>= f) p = f () { p with index := p.index + 1 } := by
  rw [Counted.bind_apply]
  unfold advance
  rw [if_pos h]

theorem tokenAt_bind_apply {index : Nat} {token : Spanned Token} (h : s.tokens[index]? = some token)
    (f : Spanned Token → Indexed α) (p : Place) : (tokenAt s index >>= f) p = f token p := by
  unfold tokenAt
  rw [h]
  rfl

/-- What is known of the first of the tokens that are left. -/
theorem of_drop_eq_cons {tokens rest : Tokens} {token : Spanned Token} {index : Nat}
    (h : tokens.drop index = token :: rest) :
    tokens[index]? = some token ∧ index < tokens.length ∧ tokens.drop (index + 1) = rest := by
  have hlt : index < tokens.length := by
    have hlength := congrArg List.length h
    rw [List.length_drop, List.length_cons] at hlength
    omega
  rw [List.drop_eq_getElem_cons hlt] at h
  injection h with htoken hrest
  exact ⟨htoken ▸ List.getElem?_eq_getElem hlt, hlt, hrest⟩

theorem drop_eq_cons {tokens : Tokens} {token : Spanned Token} {index : Nat}
    (h : tokens[index]? = some token) : tokens.drop index = token :: tokens.drop (index + 1) := by
  obtain ⟨hlt, rfl⟩ := List.getElem?_eq_some_iff.mp h
  exact List.drop_eq_getElem_cons hlt

theorem drop_eq_cons_cons {tokens : Tokens} {token token' : Spanned Token} {index : Nat}
    (h : tokens[index]? = some token) (h' : tokens[index + 1]? = some token') :
    tokens.drop index = token :: token' :: tokens.drop (index + 1 + 1) := by
  rw [drop_eq_cons h, drop_eq_cons h']

theorem expect_bind_apply {p : Place} {token : Token} {span : Span} (hlt : p.index < s.tokens.length)
    (h : s.tokens[p.index]? = some ⟨token, span⟩) (f : Unit → Indexed α) :
    (expect s token >>= f) p = f () { p with index := p.index + 1 } := by
  rw [Counted.bind_apply]
  unfold expect
  rw [Counted.get_bind_apply]
  simp only [h, if_true]
  unfold advance
  rw [if_pos hlt]

theorem expectName_bind_apply {p : Place} {name : String} {span : Span} (hlt : p.index < s.tokens.length)
    (h : s.tokens[p.index]? = some ⟨.identifier name, span⟩) (f : String → Indexed α) :
    (expectName s >>= f) p = f name { p with index := p.index + 1 } := by
  rw [Counted.bind_apply]
  unfold expectName
  rw [Counted.get_bind_apply]
  simp only [h]
  rw [advance_bind_apply hlt]
  rfl

theorem tooDeep_eq (s : Source) (start : Nat) :
    tooDeep s start = Parser.tooDeep ⟨s.limit, endOf s.tokens⟩ (s.tokens.drop start) := by
  unfold tooDeep Parser.tooDeep
  rw [← List.head?_drop]
  cases s.tokens.drop start <;> rfl

theorem agrees_expect (want : Token) {p : Place} (hp : p.index ≤ s.tokens.length) :
    Agrees s p.index (fun _ _ => True) (expect s want p)
      (Counted.expect s.checks want (p.counter s.tokens)) := by
  unfold expect Counted.expect
  rw [Counted.get_bind_apply, Counted.get_bind_apply]
  rcases next_cases s p with ⟨hnone, hnil⟩ | ⟨token, hsome, hlt, hcons⟩
  · simp only [hnone, hnil]
    exact .error _ p (Nat.le_refl _) hp
  · simp only [hsome, hcons]
    by_cases htoken : token.value = want
    · simp only [if_pos htoken]
      unfold advance
      rw [if_pos hlt]
      exact .ok () () { p with index := p.index + 1 } (Nat.le_succ _) hlt trivial
    · simp only [if_neg htoken]
      exact .error _ p (Nat.le_refl _) hp

theorem agrees_setHeight (start height : Nat) {p : Place} (hp : p.index ≤ s.tokens.length) :
    Agrees s p.index (fun _ _ => True) (setHeight s start height p)
      (Counted.setHeight s.checks (s.tokens.drop start) height (p.counter s.tokens)) := by
  unfold setHeight Counted.setHeight
  rw [Counted.bind_apply]
  by_cases hheight : s.limit < height
  · rw [if_pos hheight, Counted.check_apply_of_lt rfl hheight, tooDeep_eq]
    exact .error _ p (Nat.le_refl _) hp
  · have hcheck : Counted.check s.checks (s.tokens.drop start) height (p.counter s.tokens) =
        some (.ok (), p.counter s.tokens) := by
      refine Counted.check_apply_of_le ?_
      rintro _ ⟨⟩
      exact Nat.le_of_not_lt hheight
    rw [if_neg hheight, hcheck]
    exact .ok () () { p with height := height } (Nat.le_refl _) hp trivial

/-- A tree where an expression may stand. -/
theorem agrees_found {first index : Nat} {x : Indexed Expr} {y : Counted Expr} {p : Place} {c : Counter}
    (h : Agrees s first Eq (x p) (y c)) :
    Agrees s first (fun (result : Option Expr) (found : Found) => found.IsAt s.tokens index result)
      ((x >>= fun e => pure (some e)) p) ((y >>= fun e => pure (.tree e)) c) := by
  refine h.bind (Nat.le_refl _) ?_
  rintro e _ p' - hfirst hlast rfl
  exact .ok _ (Found.tree e) p' hfirst hlast rfl

/-- What goes on while one place more is open. -/
theorem agrees_nested {Same : Option Expr → Found → Prop} {first : Nat} {x : Indexed (Option Expr)}
    {y : Counted Found} {p : Place}
    (h : Agrees s first Same (x { p with nesting := p.nesting + 1 })
      (y { p.counter s.tokens with nesting := p.nesting + 1 })) :
    Agrees s first Same (nested x p) (Counted.nested y (p.counter s.tokens)) := by
  unfold nested Counted.nested
  rw [show (p.counter s.tokens).nesting = p.nesting from rfl]
  generalize x { p with nesting := p.nesting + 1 } = indexed at h
  generalize y { p.counter s.tokens with nesting := p.nesting + 1 } = counted at h
  cases h with
  | ok a b p' hfirst hlast h => exact .ok a b { p' with nesting := p'.nesting - 1 } hfirst hlast h
  | error e p' hfirst hlast => exact .error e { p' with nesting := p'.nesting - 1 } hfirst hlast
  | unended => exact .unended _

/-- The rule of a sum is left for the tokens that start no other one. -/
theorem expression_of_startsSum {sub : Indexed Expr} {p : Place}
    (h : StartsSum (s.tokens.drop p.index)) : expression s sub p = sum s sub p := by
  unfold expression
  rw [Counted.get_bind_apply]
  generalize hfirst : s.tokens[p.index]? = first
  generalize hsecond : s.tokens[p.index + 1]? = second
  split
  · exact absurd (drop_eq_cons_cons hfirst hsecond) (h.not_binding _ _ _ _)
  · exact absurd (drop_eq_cons_cons hfirst hsecond) (h.not_function _ _ _ _)
  · exact absurd (drop_eq_cons hfirst) (h.not_ifElse _ _)
  · rfl

/-- Run at `p`, a step that parses a tree ends like a counted one. -/
abbrev AgreesTree (s : Source) (step : Indexed Expr) (counted : Counted Expr) (p : Place) : Prop :=
  Agrees s p.index Eq (step p) (counted (p.counter s.tokens))

/-- The same of a step that may find an end of line instead. -/
abbrev AgreesFound (s : Source) (step : Indexed (Option Expr)) (counted : Counted Found) (p : Place) :
    Prop :=
  Agrees s p.index (fun result found => found.IsAt s.tokens p.index result) (step p)
    (counted (p.counter s.tokens))

/-- A tree that was parsed is noted with its height. -/
theorem agrees_note (e : Expr) (height : Nat) {p : Place} (hp : p.index ≤ s.tokens.length) :
    Agrees s p.index Eq ((note height >>= fun _ => pure e : Indexed Expr) p)
      ((Counted.note height >>= fun _ => pure e : Counted Expr) (p.counter s.tokens)) :=
  .ok e e { p with height := height } (Nat.le_refl _) hp rfl

section Rules

variable {sub : Indexed Expr} {csub : Counted Expr}
  (hsub : ∀ p : Place, p.index ≤ s.tokens.length → AgreesTree s sub csub p)

include hsub

/-- With more rounds than there are tokens behind it, the loop does not come to a standstill. -/
theorem agrees_arguments (start rounds : Nat) (clock : Tokens) (callee : Expr) (height : Nat) {p : Place}
    (hp : p.index ≤ s.tokens.length) (hrounds : s.tokens.length - p.index < rounds)
    (hclock : s.tokens.length - p.index ≤ clock.length) :
    AgreesTree s (arguments s sub start rounds callee height)
      (Counted.arguments s.checks csub (s.tokens.drop start) clock callee height) p := by
  induction rounds generalizing clock callee height p with
  | zero => exact absurd hrounds (Nat.not_lt_zero _)
  | succ rounds ih =>
      have hends := agrees_note callee height hp
      unfold AgreesTree
      rw [arguments, Counted.get_bind_apply]
      rcases next_cases s p with ⟨hnone, hnil⟩ | ⟨⟨value, span⟩, hsome, hlt, hcons⟩
      · -- The clock may have run out, but no token is left either.
        simp only [hnone]
        cases clock with
        | nil => exact hends
        | cons t clock =>
            rw [Counted.arguments, Counted.get_bind_apply]
            simp only [hnil]
            exact hends
      · obtain ⟨t, clock, rfl⟩ := List.exists_cons_of_length_pos (l := clock) (by omega)
        rw [List.length_cons] at hclock
        rw [Counted.arguments, Counted.get_bind_apply]
        simp only [hsome, hcons]
        cases value with
        | leftParen =>
            simp only
            rw [advance_bind_apply hlt, Counted.take_bind_apply]
            refine (hsub { p with index := p.index + 1 } hlt).bind (Nat.le_succ _) ?_
            rintro argument _ p₁ - h₁ hlast₁ rfl
            refine (agrees_expect .rightParen hlast₁).bind (Nat.le_of_succ_le h₁) ?_
            intro _ _ p₂ _ h₂ hlast₂ _
            rw [Counted.get_bind_apply, Counted.get_bind_apply]
            have hfirst₂ : p.index ≤ p₂.index := Nat.le_trans (Nat.le_of_succ_le h₁) h₂
            refine (agrees_setHeight start _ hlast₂).bind hfirst₂ ?_
            intro _ _ p₃ _ h₃ hlast₃ _
            have hnext : p.index + 1 ≤ p₃.index := Nat.le_trans h₁ (Nat.le_trans h₂ h₃)
            have hmore := ih clock (.call callee argument) (max height p₂.height + 1) hlast₃
              (by omega) (by omega)
            exact hmore.mono (Nat.le_of_succ_le hnext)
        | _ => exact hends

theorem agrees_application {p : Place} {name : String} {span : Span} (hlt : p.index < s.tokens.length)
    (hname : s.tokens[p.index]? = some ⟨.identifier name, span⟩) :
    Agrees s p.index Eq (application s sub p)
      (Counted.application s.checks csub (s.tokens.drop p.index) name
        (Place.counter s.tokens { p with index := p.index + 1 })) := by
  unfold application Counted.application
  rw [Counted.get_bind_apply, Counted.get_bind_apply, expectName_bind_apply hlt hname]
  have hrest : s.tokens.length - (p.index + 1) ≤ (s.tokens.drop (p.index + 1)).length :=
    Nat.le_of_eq List.length_drop.symm
  have harguments := agrees_arguments hsub p.index (s.tokens.length + 1)
    (s.tokens.drop (p.index + 1)) (.var name) 1 (p := { p with index := p.index + 1 }) hlt
    (Nat.lt_succ_of_le (Nat.sub_le _ _)) hrest
  exact harguments.mono (Nat.le_succ _)

theorem agrees_factor {p : Place} (hp : p.index ≤ s.tokens.length) :
    AgreesFound s (factor s sub) (Counted.factor s.checks csub) p := by
  unfold AgreesFound factor Counted.factor
  rw [Counted.get_bind_apply, Counted.get_bind_apply]
  rcases next_cases s p with ⟨hnone, hnil⟩ | ⟨⟨value, span⟩, hsome, hlt, hcons⟩
  · simp only [hnone, hnil]
    exact .error _ p (Nat.le_refl _) hp
  · let next : Place := { p with index := p.index + 1 }
    have hnext : p.index ≤ next.index := Nat.le_succ _
    simp only [hsome, hcons]
    cases value with
    | number lexeme =>
        simp only [advance_bind_apply hlt, Counted.take_bind_apply]
        cases hliteral : literal? lexeme with
        | some e => exact .ok (some e) (Found.tree e) { next with height := 1 } hnext hlt rfl
        | none => exact .error _ next hnext hlt
    | identifier name =>
        simp only [Counted.take_bind_apply]
        have happlication := agrees_application hsub hlt hsome
        rw [show s.tokens.drop p.index = _ from hcons] at happlication
        exact agrees_found happlication
    | leftParen =>
        simp only [advance_bind_apply hlt, Counted.take_bind_apply]
        refine (hsub next hlt).bind hnext ?_
        rintro e _ p₁ - h₁ hlast₁ rfl
        have hfirst₁ : p.index ≤ p₁.index := Nat.le_trans hnext h₁
        refine (agrees_expect .rightParen hlast₁).bind hfirst₁ ?_
        intro _ _ p₂ _ h₂ hlast₂ _
        exact .ok (some e) (Found.tree e) p₂ (Nat.le_trans hfirst₁ h₂) hlast₂ rfl
    | endLine =>
        simp only [advance_bind_apply hlt, Counted.take_bind_apply]
        exact .ok none (Found.lineEnd _) next hnext hlt ⟨rfl, hsome⟩
    | _ => exact .error _ p (Nat.le_refl _) hp

omit hsub

variable {operator? : Token → Option Operator} {operand : Indexed (Option Expr)} {coperand : Counted Found}
  (hoperand : ∀ p : Place, p.index ≤ s.tokens.length → AgreesFound s operand coperand p)

include hoperand

theorem agrees_chain (start rounds : Nat) (clock : Tokens) (left : Expr) (height : Nat) {p : Place}
    (hp : p.index ≤ s.tokens.length) (hrounds : s.tokens.length - p.index < rounds)
    (hclock : s.tokens.length - p.index ≤ clock.length) :
    AgreesTree s (chain s operator? operand start rounds left height)
      (Counted.chain s.checks operator? coperand (s.tokens.drop start) clock left height) p := by
  induction rounds generalizing clock left height p with
  | zero => exact absurd hrounds (Nat.not_lt_zero _)
  | succ rounds ih =>
      have hends := agrees_note left height hp
      unfold AgreesTree
      rw [chain, Counted.get_bind_apply]
      rcases next_cases s p with ⟨hnone, hnil⟩ | ⟨token, hsome, hlt, hcons⟩
      · simp only [hnone]
        cases clock with
        | nil => exact hends
        | cons t clock =>
            rw [Counted.chain, Counted.get_bind_apply]
            simp only [hnil]
            exact hends
      · obtain ⟨t, clock, rfl⟩ := List.exists_cons_of_length_pos (l := clock) (by omega)
        rw [List.length_cons] at hclock
        rw [Counted.chain, Counted.get_bind_apply]
        simp only [hsome, hcons]
        cases hoperator : operator? token.value with
        | none => exact hends
        | some op =>
            simp only
            rw [advance_bind_apply hlt, Counted.get_bind_apply, Counted.take_bind_apply]
            refine (hoperand { p with index := p.index + 1 } hlt).bind (Nat.le_succ _) ?_
            intro result found p₁ _ h₁ hlast₁ hfound
            cases found with
            | lineEnd got =>
                -- What stands at the index that was kept is the end of line the operand has read.
                obtain ⟨rfl, hgot⟩ := hfound
                simp only
                rw [tokenAt_bind_apply hgot]
                exact .error _ p₁ (Nat.le_of_succ_le h₁) hlast₁
            | tree right =>
                obtain rfl : result = some right := hfound
                simp only
                rw [Counted.get_bind_apply, Counted.get_bind_apply]
                refine (agrees_setHeight start _ hlast₁).bind (Nat.le_of_succ_le h₁) ?_
                intro _ _ p₂ _ h₂ hlast₂ _
                have hnext : p.index + 1 ≤ p₂.index := Nat.le_trans h₁ h₂
                have hmore := ih clock (.binary op left right) (max height p₁.height + 1) hlast₂
                  (by omega) (by omega)
                exact hmore.mono (Nat.le_of_succ_le hnext)

theorem agrees_leftAssociative {p : Place} (hp : p.index ≤ s.tokens.length) :
    AgreesFound s (leftAssociative s operator? operand)
      (Counted.leftAssociative s.checks operator? coperand) p := by
  unfold AgreesFound leftAssociative Counted.leftAssociative
  rw [Counted.get_bind_apply, Counted.get_bind_apply]
  refine (hoperand p hp).bind (Nat.le_refl _) ?_
  intro result found p₁ _ h₁ hlast₁ hfound
  cases found with
  | lineEnd got =>
      obtain ⟨rfl, hgot⟩ := hfound
      exact .ok none (Found.lineEnd got) p₁ h₁ hlast₁ ⟨rfl, hgot⟩
  | tree left =>
      obtain rfl : result = some left := hfound
      simp only
      rw [Counted.get_bind_apply, Counted.get_bind_apply]
      have hrest : s.tokens.length - p₁.index ≤ (s.tokens.drop p₁.index).length :=
        Nat.le_of_eq List.length_drop.symm
      have hchain : AgreesTree s
          (chain s operator? operand p.index (s.tokens.length + 1) left p₁.height)
          (Counted.chain s.checks operator? coperand (s.tokens.drop p.index) (s.tokens.drop p₁.index)
            left p₁.height) p₁ :=
        agrees_chain hoperand p.index (s.tokens.length + 1) (s.tokens.drop p₁.index) left p₁.height
          hlast₁ (Nat.lt_succ_of_le (Nat.sub_le _ _)) hrest
      exact agrees_found (hchain.mono h₁)

omit hoperand

include hsub

theorem agrees_term {p : Place} (hp : p.index ≤ s.tokens.length) :
    AgreesFound s (term s sub) (Counted.term s.checks csub) p :=
  agrees_leftAssociative (fun _ hp => agrees_factor hsub hp) hp

theorem agrees_sum {p : Place} (hp : p.index ≤ s.tokens.length) :
    AgreesFound s (sum s sub) (Counted.sum s.checks csub) p :=
  agrees_leftAssociative (fun _ hp => agrees_term hsub hp) hp

theorem agrees_headed {p : Place} {name : String} {span span' : Span} {rest : Tokens} (sign : Token)
    (make : String → Expr → Expr)
    (htokens : s.tokens.drop p.index = ⟨.identifier name, span⟩ :: ⟨sign, span'⟩ :: rest) :
    Agrees s p.index Eq (headed s sub sign make p)
      (Counted.headed s.checks csub (s.tokens.drop p.index) (make name) ⟨rest, p.nesting, p.height⟩) := by
  obtain ⟨hname, hlt, hsecond⟩ := of_drop_eq_cons htokens
  obtain ⟨hsign, hlt', hrest⟩ := of_drop_eq_cons hsecond
  unfold headed Counted.headed
  rw [Counted.get_bind_apply, expectName_bind_apply hlt hname]
  rw [expect_bind_apply (p := { p with index := p.index + 1 }) hlt' hsign, ← hrest]
  have hnext : p.index ≤ p.index + 1 + 1 := Nat.le_add_right _ 2
  refine (hsub { p with index := p.index + 1 + 1 } hlt').bind hnext ?_
  rintro e _ p₁ - h₁ hlast₁ rfl
  have hfirst₁ : p.index ≤ p₁.index := Nat.le_trans hnext h₁
  rw [Counted.get_bind_apply, Counted.get_bind_apply]
  refine (agrees_setHeight p.index _ hlast₁).bind hfirst₁ ?_
  intro _ _ p₂ _ h₂ hlast₂ _
  exact .ok (make name e) (make name e) p₂ (Nat.le_trans hfirst₁ h₂) hlast₂ rfl

theorem agrees_ifElse {p : Place} {span : Span} {rest : Tokens}
    (htokens : s.tokens.drop p.index = ⟨.ifWord, span⟩ :: rest) :
    Agrees s p.index Eq (ifElse s sub p)
      (Counted.ifElse s.checks csub (s.tokens.drop p.index) ⟨rest, p.nesting, p.height⟩) := by
  obtain ⟨hword, hlt, hrest⟩ := of_drop_eq_cons htokens
  unfold ifElse Counted.ifElse
  rw [Counted.get_bind_apply, expect_bind_apply hlt hword, ← hrest]
  refine (hsub { p with index := p.index + 1 } hlt).bind (Nat.le_succ _) ?_
  rintro condition _ p₁ - h₁ hlast₁ rfl
  have hfirst₁ : p.index ≤ p₁.index := Nat.le_of_succ_le h₁
  rw [Counted.get_bind_apply, Counted.get_bind_apply]
  refine (agrees_expect .thenWord hlast₁).bind hfirst₁ ?_
  intro _ _ p₂ _ h₂ hlast₂ _
  have hfirst₂ : p.index ≤ p₂.index := Nat.le_trans hfirst₁ h₂
  refine (hsub p₂ hlast₂).bind hfirst₂ ?_
  rintro consequence _ p₃ - h₃ hlast₃ rfl
  have hfirst₃ : p.index ≤ p₃.index := Nat.le_trans hfirst₂ h₃
  rw [Counted.get_bind_apply, Counted.get_bind_apply]
  refine (agrees_expect .elseWord hlast₃).bind hfirst₃ ?_
  intro _ _ p₄ _ h₄ hlast₄ _
  have hfirst₄ : p.index ≤ p₄.index := Nat.le_trans hfirst₃ h₄
  refine (hsub p₄ hlast₄).bind hfirst₄ ?_
  rintro alternative _ p₅ - h₅ hlast₅ rfl
  have hfirst₅ : p.index ≤ p₅.index := Nat.le_trans hfirst₄ h₅
  rw [Counted.get_bind_apply, Counted.get_bind_apply]
  refine (agrees_setHeight p.index _ hlast₅).bind hfirst₅ ?_
  intro _ _ p₆ _ h₆ hlast₆ _
  exact .ok (Expr.ifElse condition consequence alternative) _ p₆ (Nat.le_trans hfirst₅ h₆) hlast₆ rfl

theorem agrees_expression {p : Place} (hp : p.index ≤ s.tokens.length) :
    AgreesFound s (expression s sub) (Counted.expression s.checks csub) p := by
  rcases startsSum_or (s.tokens.drop p.index) with ⟨name, span, span', rest, htokens⟩ |
    ⟨parameter, span, span', rest, htokens⟩ | ⟨span, rest, htokens⟩ | hstarts
  · have hbinding := agrees_headed hsub .binding .binding htokens
    obtain ⟨hname, -, hsecond⟩ := of_drop_eq_cons htokens
    obtain ⟨hsign, -, -⟩ := of_drop_eq_cons hsecond
    unfold AgreesFound expression Counted.expression
    rw [Counted.get_bind_apply, Counted.get_bind_apply]
    simp only [hname, hsign, Place.counter, htokens, Counted.take_bind_apply]
    rw [htokens] at hbinding
    exact agrees_found hbinding
  · have hfunction := agrees_headed hsub .mapsTo .function htokens
    obtain ⟨hname, -, hsecond⟩ := of_drop_eq_cons htokens
    obtain ⟨hsign, -, -⟩ := of_drop_eq_cons hsecond
    unfold AgreesFound expression Counted.expression
    rw [Counted.get_bind_apply, Counted.get_bind_apply]
    simp only [hname, hsign, Place.counter, htokens, Counted.take_bind_apply]
    rw [htokens] at hfunction
    exact agrees_found hfunction
  · have hchoice := agrees_ifElse hsub htokens
    obtain ⟨hword, -, -⟩ := of_drop_eq_cons htokens
    unfold AgreesFound expression Counted.expression
    rw [Counted.get_bind_apply, Counted.get_bind_apply]
    simp only [hword, Place.counter, htokens, Counted.take_bind_apply]
    rw [htokens] at hchoice
    exact agrees_found hchoice
  · unfold AgreesFound
    rw [expression_of_startsSum hstarts, Counted.expression_of_startsSum hstarts]
    exact agrees_sum hsub hp

end Rules

/-- **Required places.** What stands at the index where a place begins is known again at its end. -/
theorem agrees_required (fuel : Nat) {p : Place} (hp : p.index ≤ s.tokens.length) :
    AgreesTree s (required s fuel) (Counted.required s.checks fuel) p := by
  induction fuel generalizing p with
  | zero => exact .unended _
  | succ fuel ih =>
      unfold AgreesTree
      rw [required, Counted.required, Counted.get_bind_apply, Counted.get_bind_apply, Counted.bind_apply]
      by_cases hopen : s.limit ≤ p.nesting
      · have hcheck : Counted.check s.checks (p.counter s.tokens).tokens
            ((p.counter s.tokens).nesting + 1) (p.counter s.tokens) =
            some (.error (tooDeep s p.index), p.counter s.tokens) := by
          rw [tooDeep_eq]
          exact Counted.check_apply_of_lt rfl (Nat.lt_succ_of_le hopen)
        rw [if_pos hopen, hcheck]
        exact .error _ p (Nat.le_refl _) hp
      · have hcheck : Counted.check s.checks (p.counter s.tokens).tokens
            ((p.counter s.tokens).nesting + 1) (p.counter s.tokens) =
            some (.ok (), p.counter s.tokens) := by
          refine Counted.check_apply_of_le ?_
          rintro _ ⟨⟩
          exact Nat.lt_of_not_le hopen
        rw [if_neg hopen, hcheck]
        have hexpression := agrees_expression (fun _ hp => ih hp)
          (p := { p with nesting := p.nesting + 1 }) hp
        refine (agrees_nested hexpression).bind (Nat.le_refl _) ?_
        intro result found p₁ _ h₁ hlast₁ hfound
        cases found with
        | lineEnd got =>
            obtain ⟨rfl, hgot⟩ := hfound
            simp only
            rw [tokenAt_bind_apply hgot]
            exact .error _ p₁ h₁ hlast₁
        | tree e =>
            obtain rfl : result = some e := hfound
            exact .ok e e p₁ h₁ hlast₁ rfl

end Indexed

end Mapsto.Parser
