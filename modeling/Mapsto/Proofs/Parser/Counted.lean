import Mapsto.Proofs.Parser.Exact

/-!
# `Mapsto.Proofs.Parser.Counted` — the parser with its counters in view

`Parser.required n` says how many places may still be opened, and every tree carries its height. A
`Counted` step keeps two counters instead. One says how many required places are open; it is raised before
the expression in such a place is parsed and lowered afterwards, also when parsing fails. The other one is
the height of the tree that was parsed last; every step overwrites it, and a step that puts several trees
together reads it after each of them. A limit is compared with the counters, if there is one: without it
the same steps parse trees of any height and places inside one another to any number. The recursion runs on
fuel, and without fuel a step does not end; the loops run on their clocks.

**Both are the same.** `Tracks` compares the end of a counted step with the end of a plain one. Both come to
the same, trees with their heights and mistakes alike, and leave the same tokens; and however a counted step
ends, as many places are open as before, and the height noted is that of the tree it returns. Only where
there is no limit a plain step may complain about depth that a counted one goes beyond. It holds of every
rule (`tracks_expression` and those before it), of every required place for which there is enough fuel
(`tracks_required`), and of whole texts (`tracks_statements`).
-/

namespace Mapsto.Parser

/-- A parser between two steps. -/
structure Counter where
  tokens : Tokens
  /-- How many required places are open. -/
  nesting : Nat
  /-- The height of the tree that was parsed last. -/
  height : Nat

/-- A step of a parser that counts. Without fuel it does not end. -/
abbrev Counted := ExceptT ParseError (StateT Counter Option)

/-- What all counted steps know: how deep trees may be, if that is limited, and the place at the end of the
text. -/
structure Checks where
  limit : Option Nat
  atEnd : Span

/-- What stands where an expression may stand. -/
inductive Found where
  | tree (e : Expr)
  | lineEnd (token : Spanned Token)

namespace Counted

/-! ## The steps -/

def take (rest : Tokens) : Counted Unit := modify fun c => { c with tokens := rest }

def note (height : Nat) : Counted Unit := modify fun c => { c with height := height }

/-- Fails if something is so deep that it is beyond the limit. The tokens are those it starts with. -/
def check (s : Checks) (start : Tokens) (depth : Nat) : Counted Unit :=
  match s.limit with
  | some limit => if limit < depth then throw (tooDeep ⟨limit, s.atEnd⟩ start) else pure ()
  | none => pure ()

/-- Notes the height of the tree just made. -/
def setHeight (s : Checks) (start : Tokens) (height : Nat) : Counted Unit := do
  check s start height
  note height

def expect (s : Checks) (want : Token) : Counted Unit := do
  match (← get).tokens with
  | [] => throw (.unexpectedEnd want.describe s.atEnd)
  | token :: rest => if token.value = want then take rest else throw (.expected want.describe token)

/-- Does something while one place more is open. The place is closed however that ends. -/
def nested {α : Type} (step : Counted α) : Counted α := fun c =>
  match step { c with nesting := c.nesting + 1 } with
  | none => none
  | some (result, c') => some (result, { c' with nesting := c'.nesting - 1 })

/-- `{ '(' expression ')' }` behind a function of the given height. -/
def arguments (s : Checks) (sub : Counted Expr) (start : Tokens) :
    (clock : Tokens) → Expr → (height : Nat) → Counted Expr
  | [], callee, height => do
    note height
    pure callee
  | _ :: clock, callee, height => do
    match (← get).tokens with
    | ⟨.leftParen, _⟩ :: rest =>
      take rest
      let argument ← sub
      expect s .rightParen
      let c ← get
      setHeight s start (max height c.height + 1)
      arguments s sub start clock (.call callee argument) (max height c.height + 1)
    | _ =>
      note height
      pure callee

/-- `{ '(' expression ')' }` behind a name. -/
def application (s : Checks) (sub : Counted Expr) (start : Tokens) (name : String) : Counted Expr := do
  let c ← get
  arguments s sub start c.tokens (.var name) 1

/-- `NUMBER | IDENT { '(' expression ')' } | '(' expression ')'`, or an end of line. -/
def factor (s : Checks) (sub : Counted Expr) : Counted Found := do
  match (← get).tokens with
  | [] => throw (.unexpectedEnd "an expression" s.atEnd)
  | token :: rest =>
    match token.value with
    | .number lexeme =>
      take rest
      match literal? lexeme with
      | some e =>
        note 1
        pure (.tree e)
      | none => throw (.invalidNumber lexeme token.span)
    | .identifier name =>
      take rest
      let e ← application s sub (token :: rest) name
      pure (.tree e)
    | .leftParen =>
      take rest
      let e ← sub
      expect s .rightParen
      pure (.tree e)
    | .endLine =>
      take rest
      pure (.lineEnd token)
    | _ => throw (.unexpected token)

/-- The operators and operands behind a first operand of the given height. -/
def chain (s : Checks) (operator? : Token → Option Operator) (operand : Counted Found) (start : Tokens) :
    (clock : Tokens) → Expr → (height : Nat) → Counted Expr
  | [], left, height => do
    note height
    pure left
  | _ :: clock, left, height => do
    match (← get).tokens with
    | [] =>
      note height
      pure left
    | token :: rest =>
      match operator? token.value with
      | none =>
        note height
        pure left
      | some op =>
        take rest
        match ← operand with
        | .lineEnd got => throw (.expectedExpression got)
        | .tree right =>
          let c ← get
          setHeight s start (max height c.height + 1)
          chain s operator? operand start clock (.binary op left right) (max height c.height + 1)

/-- `operand { operator operand }`, associating to the left. -/
def leftAssociative (s : Checks) (operator? : Token → Option Operator) (operand : Counted Found) :
    Counted Found := do
  let start ← get
  match ← operand with
  | .lineEnd got => pure (.lineEnd got)
  | .tree left =>
    let c ← get
    let e ← chain s operator? operand start.tokens c.tokens left c.height
    pure (.tree e)

def term (s : Checks) (sub : Counted Expr) : Counted Found :=
  leftAssociative s productOperator? (factor s sub)

def sum (s : Checks) (sub : Counted Expr) : Counted Found :=
  leftAssociative s sumOperator? (term s sub)

/-- A binding or a function, behind its sign: one expression, and a node on top of it. -/
def headed (s : Checks) (sub : Counted Expr) (start : Tokens) (make : Expr → Expr) : Counted Expr := do
  let e ← sub
  let c ← get
  setHeight s start (c.height + 1)
  pure (make e)

/-- `expression 'then' expression 'else' expression`. -/
def ifElse (s : Checks) (sub : Counted Expr) (start : Tokens) : Counted Expr := do
  let condition ← sub
  let c₁ ← get
  expect s .thenWord
  let consequence ← sub
  let c₂ ← get
  expect s .elseWord
  let alternative ← sub
  let c₃ ← get
  setHeight s start (max (max c₁.height c₂.height) c₃.height + 1)
  pure (.ifElse condition consequence alternative)

/-- An expression, or an end of line. -/
def expression (s : Checks) (sub : Counted Expr) : Counted Found := do
  let start ← get
  match start.tokens with
  | ⟨.identifier name, _⟩ :: ⟨.binding, _⟩ :: rest =>
    take rest
    let e ← headed s sub start.tokens (.binding name)
    pure (.tree e)
  | ⟨.identifier parameter, _⟩ :: ⟨.mapsTo, _⟩ :: rest =>
    take rest
    let e ← headed s sub start.tokens (.function parameter)
    pure (.tree e)
  | ⟨.ifWord, _⟩ :: rest =>
    take rest
    let e ← ifElse s sub start.tokens
    pure (.tree e)
  | _ => sum s sub

/-- An expression where one is required. -/
def required (s : Checks) : (fuel : Nat) → Counted Expr
  | 0 => fun _ => none
  | fuel + 1 => do
    let start ← get
    check s start.tokens (start.nesting + 1)
    match ← nested (expression s (required s fuel)) with
    | .tree e => pure e
    | .lineEnd got => throw (.expectedExpression got)

/-- The expressions up to the end of the text. -/
def statements (s : Checks) (fuel : Nat) : (clock : Tokens) → Counted Program
  | [] => pure []
  | _ :: clock => do
    match (← get).tokens with
    | [] => pure []
    | _ =>
      match ← expression s (required s fuel) with
      | .lineEnd _ => statements s fuel clock
      | .tree e =>
        let rest ← statements s fuel clock
        pure (e :: rest)

/-! ## Running steps -/

section Steps

variable {σ α β : Type}

theorem bind_apply (x : ExceptT ParseError (StateT σ Option) α)
    (f : α → ExceptT ParseError (StateT σ Option) β) (c : σ) :
    (x >>= f) c =
      match x c with
      | none => none
      | some (.ok a, c') => f a c'
      | some (.error e, c') => some (.error e, c') := by
  show Option.bind (x c) _ = _
  cases x c with
  | none => rfl
  | some ended =>
      obtain ⟨result, c'⟩ := ended
      cases result <;> rfl

/-- A sequence succeeds only if both its parts do. -/
theorem exists_of_bind_eq_ok {x : ExceptT ParseError (StateT σ Option) α}
    {f : α → ExceptT ParseError (StateT σ Option) β} {c c' : σ} {b : β}
    (h : (x >>= f) c = some (.ok b, c')) :
    ∃ a c₁, x c = some (.ok a, c₁) ∧ f a c₁ = some (.ok b, c') := by
  rw [bind_apply] at h
  rcases hx : x c with _ | ⟨_ | a, c₁⟩
  · rw [hx] at h
    cases h
  · rw [hx] at h
    cases h
  · rw [hx] at h
    exact ⟨a, c₁, rfl, h⟩

theorem get_bind_apply (f : σ → ExceptT ParseError (StateT σ Option) α) (c : σ) :
    ((get : ExceptT ParseError (StateT σ Option) σ) >>= f) c = f c c := rfl

theorem take_bind_apply (rest : Tokens) (f : Unit → Counted α) (c : Counter) :
    (take rest >>= f) c = f () { c with tokens := rest } := rfl

end Steps

end Counted

/-! ## Counted steps and plain ones -/

/-- A counted step that began with `d` open places ends like a plain step. What the plain one returns is
made of the result and of the height that is noted (`view`), and `Good` holds of the result and of the
counters. If there is no limit, the plain step may complain about depth instead; its limit is no greater
than `total` then. -/
inductive Tracks {α β : Type} (s : Checks) (limit total d : Nat) (view : α → Nat → β)
    (Good : α → Counter → Prop) :
    Option (Except ParseError α × Counter) → EStateM.Result ParseError Tokens β → Prop where
  | ok (a : α) (c : Counter) (hnesting : c.nesting = d) (hgood : Good a c) :
      Tracks s limit total d view Good (some (.ok a, c)) (.ok (view a c.height) c.tokens)
  | error (e : ParseError) (c : Counter) (hnesting : c.nesting = d) :
      Tracks s limit total d view Good (some (.error e, c)) (.error e c.tokens)
  | beyond (result : Except ParseError α) (c : Counter) (span : Span) (rest : Tokens)
      (hfree : s.limit = none) (hlimit : limit ≤ total) (hnesting : c.nesting = d)
      (hgood : ∀ a, result = .ok a → Good a c) :
      Tracks s limit total d view Good (some (result, c)) (.error (.tooDeeplyNested limit span) rest)

namespace Tracks

variable {α β γ δ : Type} {s : Checks} {limit total d : Nat} {view : α → Nat → β} {view' : γ → Nat → δ}
  {Good : α → Counter → Prop} {Good' : γ → Counter → Prop}
  {counted : Option (Except ParseError α × Counter)} {plain : EStateM.Result ParseError Tokens β}

/-- However a counted step ends, it ends. -/
theorem ends (h : Tracks s limit total d view Good counted plain) :
    ∃ result c, counted = some (result, c) ∧ c.nesting = d ∧ ∀ a, result = .ok a → Good a c := by
  cases h with
  | ok a c hnesting hgood =>
      refine ⟨.ok a, c, rfl, hnesting, ?_⟩
      rintro _ ⟨⟩
      exact hgood
  | error e c hnesting => exact ⟨.error e, c, rfl, hnesting, nofun⟩
  | beyond result c span rest _ _ hnesting hgood => exact ⟨result, c, rfl, hnesting, hgood⟩

/-- The relation is as good as what is known of the counters. -/
theorem mono {Better : α → Counter → Prop} (h : Tracks s limit total d view Good counted plain)
    (hmono : ∀ a c, Good a c → Better a c) : Tracks s limit total d view Better counted plain := by
  cases h with
  | ok a c hnesting hgood => exact .ok a c hnesting (hmono a c hgood)
  | error e c hnesting => exact .error e c hnesting
  | beyond result c span rest hfree hlimit hnesting hgood =>
      exact .beyond result c span rest hfree hlimit hnesting fun a ha => hmono a c (hgood a ha)

/-- **One step after the other.** -/
theorem bind {x : Counted α} {f : α → Counted γ} {p : Parse β} {g : β → Parse δ} {c : Counter}
    {ts : Tokens} (hx : Tracks s limit total d view Good (x c) (p ts))
    (hf : ∀ a c', c'.nesting = d → Good a c' →
      Tracks s limit total d view' Good' (f a c') (g (view a c'.height) c'.tokens)) :
    Tracks s limit total d view' Good' ((x >>= f) c) ((p >>= g) ts) := by
  rw [Counted.bind_apply, Parser.bind_apply]
  generalize x c = counted at hx
  generalize p ts = plain at hx
  cases hx with
  | ok a c' hnesting hgood => exact hf a c' hnesting hgood
  | error e c' hnesting => exact .error e c' hnesting
  | beyond result c' span rest hfree hlimit hnesting hgood =>
      cases result with
      | error e => exact .beyond (.error e) c' span rest hfree hlimit hnesting nofun
      | ok a =>
          -- The plain parser has stopped, but the counted one goes on, and ends as ever.
          obtain ⟨result', c'', hended, hnesting', hgood'⟩ := (hf a c' hnesting (hgood a rfl)).ends
          show Tracks _ _ _ _ _ _ (f a c') _
          rw [hended]
          exact .beyond result' c'' span rest hfree hlimit hnesting' hgood'

end Tracks

/-- What is known of a tree that was parsed from `n` tokens: its height is noted, and it has taken at least
that many tokens. -/
def Measures (n : Nat) (e : Expr) (c : Counter) : Prop :=
  c.height = e.height ∧ c.height + c.tokens.length ≤ n

theorem Measures.mono {n m : Nat} {e : Expr} {c : Counter} (h : Measures n e c) (hnm : n ≤ m) :
    Measures m e c :=
  ⟨h.1, Nat.le_trans h.2 hnm⟩

/-- The same of what stands where an expression may stand. An end of line has taken a token, too. -/
def Found.Measures (n : Nat) : Found → Counter → Prop
  | tree e, c => Parser.Measures n e c
  | lineEnd _, c => c.tokens.length < n

/-- The item that was found, if the height of the tree is that noted. -/
def Found.item : Found → Nat → Item
  | tree e, height => .expr ⟨e, height⟩
  | lineEnd token, _ => .lineEnd token

/-! ## The steps, one after the other -/

namespace Counted

variable {s : Checks} {limit total d : Nat}

/-- The plain steps are given the same place at the end of the text. -/
abbrev plain (s : Checks) (limit : Nat) : Setting := ⟨limit, s.atEnd⟩

/-- Run on `c`, a step that parses a tree ends like a plain one, and the tree is measured. -/
abbrev TracksTree (s : Checks) (limit total d n : Nat) (step : Counted Expr) (p : Parse Measured)
    (c : Counter) : Prop :=
  Tracks s limit total d Measured.mk (Measures n) (step c) (p c.tokens)

/-- The same of a step that may find an end of line instead. -/
abbrev TracksItem (s : Checks) (limit total d n : Nat) (step : Counted Found) (p : Parse Item)
    (c : Counter) : Prop :=
  Tracks s limit total d Found.item (Found.Measures n) (step c) (p c.tokens)

theorem exists_tooDeep (setting : Setting) (start : Tokens) :
    ∃ span, tooDeep setting start = .tooDeeplyNested setting.limit span := by
  cases start with
  | nil => exact ⟨setting.atEnd, rfl⟩
  | cons token rest => exact ⟨token.span, rfl⟩

theorem check_apply_of_le {start : Tokens} {depth : Nat} {c : Counter}
    (h : ∀ l, s.limit = some l → depth ≤ l) : check s start depth c = some (.ok (), c) := by
  unfold check
  cases hs : s.limit with
  | none => rfl
  | some l =>
      show (if l < depth then _ else _ : Counted Unit) c = _
      rw [if_neg (Nat.not_lt.mpr (h l hs))]
      rfl

theorem check_apply_of_free (hs : s.limit = none) (start : Tokens) (depth : Nat) (c : Counter) :
    check s start depth c = some (.ok (), c) := by
  refine check_apply_of_le fun l hl => ?_
  rw [hs] at hl
  cases hl

theorem check_apply_of_lt {start : Tokens} {depth l : Nat} {c : Counter} (hs : s.limit = some l)
    (h : l < depth) : check s start depth c = some (.error (tooDeep (plain s l) start), c) := by
  unfold check
  rw [hs]
  show (if l < depth then _ else _ : Counted Unit) c = _
  rw [if_pos h]
  rfl

theorem tracks_expect {c : Counter} (hc : c.nesting = d) (want : Token) :
    Tracks s limit total d (fun _ _ => ())
      (fun _ c' => c'.height = c.height ∧ c'.tokens.length < c.tokens.length)
      (expect s want c) (Parser.expect (plain s limit) want c.tokens) := by
  obtain ⟨ts, nesting, height⟩ := c
  unfold expect Parser.expect
  rw [get_bind_apply, Parser.get_bind_apply]
  cases ts with
  | nil => exact .error _ _ hc
  | cons token rest =>
      by_cases htoken : token.value = want
      · simp only [if_pos htoken]
        exact .ok () ⟨rest, nesting, height⟩ hc ⟨rfl, Nat.lt_succ_self _⟩
      · simp only [if_neg htoken]
        exact .error _ _ hc

/-- A tree where an expression may stand. -/
theorem tracks_found {n : Nat} {x : Counted Expr} {p : Parse Measured} {c : Counter} {ts : Tokens}
    (h : Tracks s limit total d Measured.mk (Measures n) (x c) (p ts)) :
    Tracks s limit total d Found.item (Found.Measures n) ((x >>= fun e => pure (.tree e)) c)
      ((p >>= fun tree => pure (.expr tree)) ts) :=
  h.bind fun e c₁ hc₁ he => .ok (Found.tree e) c₁ hc₁ he

/-- What goes on while one place more is open leaves as many open as there were. -/
theorem tracks_nested {n : Nat} {x : Counted Found} {p : Parse Item} {c : Counter} (hc : c.nesting = d)
    (h : Tracks s limit total (d + 1) Found.item (Found.Measures n) (x { c with nesting := d + 1 })
      (p c.tokens)) :
    Tracks s limit total d Found.item (Found.Measures n) (nested x c) (p c.tokens) := by
  have hmeasures : ∀ (found : Found) (c' : Counter), found.Measures n c' →
      found.Measures n { c' with nesting := c'.nesting - 1 } := by
    intro found c' h
    cases found <;> exact h
  unfold nested
  rw [hc]
  generalize x { c with nesting := d + 1 } = counted at h
  generalize p c.tokens = plain at h
  cases h with
  | ok found c' hnesting hgood =>
      exact Tracks.ok found { c' with nesting := c'.nesting - 1 } (Nat.sub_eq_of_eq_add hnesting)
        (hmeasures found c' hgood)
  | error e c' hnesting =>
      exact .error e { c' with nesting := c'.nesting - 1 } (Nat.sub_eq_of_eq_add hnesting)
  | beyond result c' span rest hfree hlimit hnesting hgood =>
      refine .beyond result { c' with nesting := c'.nesting - 1 } span rest hfree hlimit
        (Nat.sub_eq_of_eq_add hnesting) ?_
      exact fun found hfound => hmeasures found c' (hgood found hfound)

/-- The rule of a sum is left for the tokens that start no other one. -/
theorem expression_of_startsSum {sub : Counted Expr} {c : Counter} (h : StartsSum c.tokens) :
    expression s sub c = sum s sub c := by
  obtain ⟨ts, nesting, height⟩ := c
  unfold expression
  rw [get_bind_apply]
  dsimp only
  split
  · exact absurd rfl (h.not_binding _ _ _ _)
  · exact absurd rfl (h.not_function _ _ _ _)
  · exact absurd rfl (h.not_ifElse _ _)
  · rfl

variable (hlimit : ∀ l, s.limit = some l → l = limit)

include hlimit

/-- A tree that is no higher than the text is long is passed on by both, or by the one without a limit. -/
theorem tracks_setHeight {c : Counter} (hc : c.nesting = d) (start : Tokens) (e : Expr) {height : Nat}
    (hheight : height ≤ total) :
    Tracks s limit total d (fun _ => Measured.mk e) (fun _ c' => c' = { c with height := height })
      (setHeight s start height c) (checked (plain s limit) start ⟨e, height⟩ c.tokens) := by
  unfold setHeight checked
  rw [bind_apply]
  by_cases hle : height ≤ limit
  · have hcheck : check s start height c = some (.ok (), c) := by
      refine check_apply_of_le fun l hl => ?_
      rw [hlimit l hl]
      exact hle
    rw [hcheck, if_neg (Nat.not_lt.mpr hle)]
    exact .ok () { c with height := height } hc rfl
  · have hlt : limit < height := Nat.lt_of_not_le hle
    rw [if_pos hlt]
    cases hs : s.limit with
    | some l =>
        obtain rfl := hlimit l hs
        rw [check_apply_of_lt hs hlt]
        exact .error _ c hc
    | none =>
        obtain ⟨span, htooDeep⟩ := exists_tooDeep (plain s limit) start
        rw [check_apply_of_free hs, htooDeep]
        have hle' : limit ≤ total := by omega
        refine .beyond (.ok ()) { c with height := height } span c.tokens hs hle' hc ?_
        exact fun _ _ => rfl

/-- A rule that puts a tree together notes its height at last. -/
theorem tracks_setHeight_pure {n : Nat} (hn : n ≤ total) {c : Counter} (hc : c.nesting = d) (start : Tokens)
    {e : Expr} {height : Nat} (hheight : height = e.height) (hfits : height + c.tokens.length ≤ n) :
    Tracks s limit total d Measured.mk (Measures n) ((setHeight s start height >>= fun _ => pure e) c)
      (checked (plain s limit) start ⟨e, height⟩ c.tokens) := by
  have htotal : height ≤ total := by omega
  rw [← bind_pure (checked (plain s limit) start ⟨e, height⟩)]
  refine (tracks_setHeight hlimit hc start e htotal).bind fun _ c₁ hc₁ hset => ?_
  subst hset
  exact .ok e _ hc₁ ⟨hheight, hfits⟩

variable {sub : Counted Expr} {psub : Parse Measured} {k : Nat} (hk : k ≤ total)
  (hsub : ∀ c : Counter, c.nesting = d → c.tokens.length < k →
    TracksTree s limit total d c.tokens.length sub psub c)

include hk hsub

theorem tracks_arguments {n : Nat} (hn : n ≤ k) (start clock : Tokens) (callee : Expr) {c : Counter}
    (hc : c.nesting = d) (hfits : callee.height + c.tokens.length ≤ n) :
    Tracks s limit total d Measured.mk (Measures n) (arguments s sub start clock callee callee.height c)
      (Parser.arguments (plain s limit) psub start clock (measured callee) c.tokens) := by
  induction clock generalizing c callee with
  | nil => exact .ok callee { c with height := callee.height } hc ⟨rfl, hfits⟩
  | cons t clock ih =>
      obtain ⟨ts, nesting, height⟩ := c
      rw [arguments, Parser.arguments, get_bind_apply, Parser.get_bind_apply]
      rcases ts with _ | ⟨⟨token, span⟩, rest⟩
      · exact .ok callee ⟨[], nesting, callee.height⟩ hc ⟨rfl, hfits⟩
      · cases token with
        | leftParen =>
            simp only [List.length_cons] at hfits
            simp only [take_bind_apply, set_bind_apply]
            have hrest : rest.length < k := by omega
            refine (hsub ⟨rest, nesting, height⟩ hc hrest).bind fun argument c₁ hc₁ hargument => ?_
            refine (tracks_expect hc₁ .rightParen).bind fun _ c₂ hc₂ hexpect => ?_
            obtain ⟨hheight, hlength⟩ := hargument
            obtain ⟨hkept, hclosed⟩ := hexpect
            simp only at hlength
            -- The height that is read here is still that of the argument.
            rw [get_bind_apply, hkept, hheight]
            have hcall : max callee.height argument.height + 1 + c₂.tokens.length ≤ n := by omega
            have htotal : max callee.height argument.height + 1 ≤ total := by omega
            refine (tracks_setHeight hlimit hc₂ start (.call callee argument) htotal).bind
              fun _ c₃ hc₃ hset => ?_
            subst hset
            exact ih (.call callee argument) hc₃ hcall
        | _ => exact .ok callee ⟨_, nesting, callee.height⟩ hc ⟨rfl, hfits⟩

theorem tracks_application (start : Tokens) (name : String) {c : Counter} (hc : c.nesting = d)
    (hlength : c.tokens.length < k) :
    Tracks s limit total d Measured.mk (Measures (c.tokens.length + 1)) (application s sub start name c)
      (Parser.arguments (plain s limit) psub start c.tokens ⟨.var name, 1⟩ c.tokens) := by
  unfold application
  rw [get_bind_apply]
  have hfits : (Expr.var name).height + c.tokens.length ≤ c.tokens.length + 1 :=
    Nat.le_of_eq (Nat.add_comm 1 _)
  exact tracks_arguments hlimit hk hsub hlength start c.tokens (.var name) hc hfits

theorem tracks_factor {c : Counter} (hc : c.nesting = d) (hlength : c.tokens.length ≤ k) :
    TracksItem s limit total d c.tokens.length (factor s sub) (Parser.factor (plain s limit) psub) c := by
  obtain ⟨ts, nesting, height⟩ := c
  unfold TracksItem factor Parser.factor
  rw [get_bind_apply, Parser.get_bind_apply]
  rcases ts with _ | ⟨⟨token, span⟩, rest⟩
  · exact .error _ _ hc
  · simp only [List.length_cons] at hlength ⊢
    cases token with
    | number lexeme =>
        simp only [take_bind_apply, set_bind_apply]
        cases hliteral : literal? lexeme with
        | some e =>
            have hheight : 1 = e.height := (height_of_literal? hliteral).symm
            exact Tracks.ok (Found.tree e) ⟨rest, nesting, 1⟩ hc ⟨hheight, Nat.le_of_eq (Nat.add_comm 1 _)⟩
        | none => exact .error _ ⟨rest, nesting, height⟩ hc
    | identifier name =>
        simp only [take_bind_apply, set_bind_apply]
        have happlication := tracks_application hlimit hk hsub (⟨.identifier name, span⟩ :: rest) name
          (c := ⟨rest, nesting, height⟩) hc hlength
        exact tracks_found happlication
    | leftParen =>
        simp only [take_bind_apply, set_bind_apply]
        refine (hsub ⟨rest, nesting, height⟩ hc hlength).bind fun e c₁ hc₁ he => ?_
        refine (tracks_expect hc₁ .rightParen).bind fun _ c₂ hc₂ hexpect => ?_
        -- Parentheses add no node, and the height noted stays that of the tree between them.
        obtain ⟨hheight, hlength'⟩ := he
        obtain ⟨hkept, hclosed⟩ := hexpect
        rw [← hkept] at hheight ⊢
        refine Tracks.ok (Found.tree e) c₂ hc₂ ⟨hheight, ?_⟩
        simp only at hlength'
        omega
    | endLine => exact Tracks.ok (Found.lineEnd _) ⟨rest, nesting, height⟩ hc (Nat.lt_succ_self _)
    | _ => exact .error _ _ hc

omit hsub

variable {operator? : Token → Option Operator} {operand : Counted Found} {poperand : Parse Item}
  (hoperand : ∀ c : Counter, c.nesting = d → c.tokens.length ≤ k →
    TracksItem s limit total d c.tokens.length operand poperand c)

include hoperand

theorem tracks_chain {n : Nat} (hn : n ≤ k) (start clock : Tokens) (left : Expr) {c : Counter}
    (hc : c.nesting = d) (hfits : left.height + c.tokens.length ≤ n) :
    Tracks s limit total d Measured.mk (Measures n) (chain s operator? operand start clock left left.height c)
      (Parser.chain (plain s limit) operator? poperand start clock (measured left) c.tokens) := by
  induction clock generalizing c left with
  | nil => exact .ok left { c with height := left.height } hc ⟨rfl, hfits⟩
  | cons t clock ih =>
      obtain ⟨ts, nesting, height⟩ := c
      rw [chain, Parser.chain, get_bind_apply, Parser.get_bind_apply]
      cases ts with
      | nil => exact .ok left ⟨[], nesting, left.height⟩ hc ⟨rfl, hfits⟩
      | cons token rest =>
          cases hoperator : operator? token.value with
          | none => 
            simp only [hoperator]
            exact .ok left ⟨_, nesting, left.height⟩ hc ⟨rfl, hfits⟩
          | some op =>
              simp only [List.length_cons] at hfits
              simp only [hoperator, take_bind_apply, set_bind_apply]
              have hrest : rest.length ≤ k := by omega
              refine (hoperand ⟨rest, nesting, height⟩ hc hrest).bind fun found c₁ hc₁ hfound => ?_
              cases found with
              | lineEnd got => exact .error _ c₁ hc₁
              | tree right =>
                  obtain ⟨hheight, hlength⟩ := hfound
                  simp only at hlength
                  simp only [Found.item]
                  rw [get_bind_apply, hheight]
                  have hbinary : max left.height right.height + 1 + c₁.tokens.length ≤ n := by omega
                  have htotal : max left.height right.height + 1 ≤ total := by omega
                  refine (tracks_setHeight hlimit hc₁ start (.binary op left right) htotal).bind
                    fun _ c₂ hc₂ hset => ?_
                  subst hset
                  exact ih (.binary op left right) hc₂ hbinary

theorem tracks_leftAssociative {c : Counter} (hc : c.nesting = d) (hlength : c.tokens.length ≤ k) :
    TracksItem s limit total d c.tokens.length (leftAssociative s operator? operand)
      (Parser.leftAssociative (plain s limit) operator? poperand) c := by
  unfold TracksItem leftAssociative Parser.leftAssociative
  rw [get_bind_apply, Parser.get_bind_apply]
  refine (hoperand c hc hlength).bind fun found c₁ hc₁ hfound => ?_
  cases found with
  | lineEnd got => exact Tracks.ok (Found.lineEnd got) c₁ hc₁ hfound
  | tree left =>
      obtain ⟨hheight, hfits⟩ := hfound
      rw [hheight] at hfits
      simp only [Found.item]
      rw [get_bind_apply, Parser.get_bind_apply, hheight]
      exact tracks_found (tracks_chain hlimit hk hoperand hlength c.tokens c₁.tokens left hc₁ hfits)

omit hoperand

include hsub

theorem tracks_term {c : Counter} (hc : c.nesting = d) (hlength : c.tokens.length ≤ k) :
    TracksItem s limit total d c.tokens.length (term s sub) (Parser.term (plain s limit) psub) c :=
  tracks_leftAssociative hlimit hk (fun _ hc hlength => tracks_factor hlimit hk hsub hc hlength) hc hlength

theorem tracks_sum {c : Counter} (hc : c.nesting = d) (hlength : c.tokens.length ≤ k) :
    TracksItem s limit total d c.tokens.length (sum s sub) (Parser.sum (plain s limit) psub) c :=
  tracks_leftAssociative hlimit hk (fun _ hc hlength => tracks_term hlimit hk hsub hc hlength) hc hlength

theorem tracks_headed (start : Tokens) (make : Expr → Expr) (hmake : ∀ e, (make e).height = e.height + 1)
    {c : Counter} (hc : c.nesting = d) (hlength : c.tokens.length < k) :
    Tracks s limit total d Measured.mk (Measures (c.tokens.length + 1)) (headed s sub start make c)
      ((do
        let tree ← psub
        checked (plain s limit) start ⟨make tree.expr, tree.height + 1⟩) c.tokens) := by
  unfold headed
  refine (hsub c hc hlength).bind fun e c₁ hc₁ he => ?_
  obtain ⟨hheight, hfits⟩ := he
  rw [get_bind_apply]
  have hn : c.tokens.length + 1 ≤ total := by omega
  have htree : c₁.height + 1 = (make e).height := by rw [hheight, hmake]
  exact tracks_setHeight_pure hlimit hn hc₁ start htree (by omega)

theorem tracks_ifElse (start : Tokens) {c : Counter} (hc : c.nesting = d) (hlength : c.tokens.length < k) :
    Tracks s limit total d Measured.mk (Measures (c.tokens.length + 1)) (ifElse s sub start c)
      ((do
        let condition ← psub
        Parser.expect (plain s limit) .thenWord
        let consequence ← psub
        Parser.expect (plain s limit) .elseWord
        let alternative ← psub
        checked (plain s limit) start
          ⟨.ifElse condition.expr consequence.expr alternative.expr,
            max (max condition.height consequence.height) alternative.height + 1⟩) c.tokens) := by
  unfold ifElse
  refine (hsub c hc hlength).bind fun condition c₁ hc₁ hcondition => ?_
  rw [get_bind_apply]
  refine (tracks_expect hc₁ .thenWord).bind fun _ c₂ hc₂ hthen => ?_
  obtain ⟨hheight₁, hfits₁⟩ := hcondition
  have hlength₂ : c₂.tokens.length < k := by omega
  refine (hsub c₂ hc₂ hlength₂).bind fun consequence c₃ hc₃ hconsequence => ?_
  rw [get_bind_apply]
  refine (tracks_expect hc₃ .elseWord).bind fun _ c₄ hc₄ helse => ?_
  obtain ⟨hheight₃, hfits₃⟩ := hconsequence
  have hlength₄ : c₄.tokens.length < k := by omega
  refine (hsub c₄ hc₄ hlength₄).bind fun alternative c₅ hc₅ halternative => ?_
  rw [get_bind_apply]
  obtain ⟨hheight₅, hfits₅⟩ := halternative
  obtain ⟨-, hclosed₂⟩ := hthen
  obtain ⟨-, hclosed₄⟩ := helse
  have hn : c.tokens.length + 1 ≤ total := by omega
  have htree : max (max c₁.height c₃.height) c₅.height + 1 =
      (Expr.ifElse condition consequence alternative).height := by
    rw [hheight₁, hheight₃, hheight₅]
    rfl
  exact tracks_setHeight_pure hlimit hn hc₅ start htree (by omega)

theorem tracks_expression {c : Counter} (hc : c.nesting = d) (hlength : c.tokens.length ≤ k) :
    TracksItem s limit total d c.tokens.length (expression s sub)
      (Parser.expression (plain s limit) psub) c := by
  obtain ⟨ts, nesting, height⟩ := c
  unfold TracksItem
  rcases startsSum_or ts with ⟨name, span, span', rest, rfl⟩ | ⟨parameter, span, span', rest, rfl⟩ |
    ⟨span, rest, rfl⟩ | hstarts
  · simp only [List.length_cons] at hlength
    let start : Tokens := ⟨.identifier name, span⟩ :: ⟨.binding, span'⟩ :: rest
    have hbinding := tracks_headed hlimit hk hsub start (.binding name) (fun _ => rfl)
      (c := ⟨rest, nesting, height⟩) hc (Nat.lt_of_succ_lt hlength)
    have hfound := tracks_found (hbinding.mono fun e c' he => he.mono (Nat.le_succ _))
    rw [bind_assoc] at hfound
    exact hfound
  · simp only [List.length_cons] at hlength
    let start : Tokens := ⟨.identifier parameter, span⟩ :: ⟨.mapsTo, span'⟩ :: rest
    have hfunction := tracks_headed hlimit hk hsub start (.function parameter) (fun _ => rfl)
      (c := ⟨rest, nesting, height⟩) hc (Nat.lt_of_succ_lt hlength)
    have hfound := tracks_found (hfunction.mono fun e c' he => he.mono (Nat.le_succ _))
    rw [bind_assoc] at hfound
    exact hfound
  · have hchoice := tracks_ifElse hlimit hk hsub (⟨.ifWord, span⟩ :: rest)
      (c := ⟨rest, nesting, height⟩) hc hlength
    have hfound := tracks_found hchoice
    simp only [bind_assoc] at hfound
    exact hfound
  · rw [expression_of_startsSum hstarts, Parser.expression_of_startsSum hstarts]
    exact tracks_sum hlimit hk hsub (c := ⟨ts, nesting, height⟩) hc hlength

omit hsub hk

/-- What is done in a required place that may be opened. -/
theorem tracks_opened {c : Counter} (hc : c.nesting = d) (htotal : c.tokens.length ≤ total)
    (hplaces : ∀ c' : Counter, c'.nesting = d + 1 → c'.tokens.length < c.tokens.length →
      TracksTree s limit total (d + 1) c'.tokens.length sub psub c') :
    Tracks s limit total d Measured.mk (Measures c.tokens.length)
      ((do
        match ← nested (expression s sub) with
        | .tree e => pure e
        | .lineEnd got => throw (.expectedExpression got) : Counted Expr) c)
      ((do
        match ← Parser.expression (plain s limit) psub with
        | .expr tree => pure tree
        | .lineEnd got => throw (.expectedExpression got) : Parse Measured) c.tokens) := by
  have hexpression := tracks_expression hlimit htotal hplaces
    (c := { c with nesting := d + 1 }) rfl (Nat.le_refl _)
  refine (tracks_nested hc hexpression).bind fun found c₁ hc₁ hfound => ?_
  cases found with
  | tree e => exact .ok e c₁ hc₁ hfound
  | lineEnd got => exact .error _ c₁ hc₁

/-- **Required places.** With more fuel than there are tokens, they are parsed as the plain parser has it. -/
theorem tracks_required (fuel : Nat) {c : Counter} (hfuel : c.tokens.length < fuel)
    (htotal : c.nesting + c.tokens.length ≤ total) :
    TracksTree s limit total c.nesting c.tokens.length (required s fuel)
      (Parser.required (plain s limit) (limit - c.nesting)) c := by
  induction fuel generalizing c with
  | zero => exact absurd hfuel (Nat.not_lt_zero _)
  | succ fuel ih =>
      have hplaces : ∀ c' : Counter, c'.nesting = c.nesting + 1 → c'.tokens.length < c.tokens.length →
          TracksTree s limit total (c.nesting + 1) c'.tokens.length (required s fuel)
            (Parser.required (plain s limit) (limit - (c.nesting + 1))) c' := by
        intro c' hc' hlength
        have htracks := ih (c := c') (by omega) (by omega)
        rw [hc'] at htracks
        exact htracks
      have hopened := tracks_opened hlimit (c := c) rfl (Nat.le_trans (Nat.le_add_left _ _) htotal) hplaces
      unfold TracksTree
      rw [required, get_bind_apply, bind_apply]
      by_cases hplace : c.nesting + 1 ≤ limit
      · have hcheck : check s c.tokens (c.nesting + 1) c = some (.ok (), c) := by
          refine check_apply_of_le fun l hl => ?_
          rw [hlimit l hl]
          exact hplace
        have hplain : limit - c.nesting = limit - (c.nesting + 1) + 1 := by omega
        rw [hcheck, hplain]
        exact hopened
      · have hlt : limit < c.nesting + 1 := Nat.lt_of_not_le hplace
        have hplain : limit - c.nesting = 0 := by omega
        rw [hplain]
        cases hs : s.limit with
        | some l =>
            obtain rfl := hlimit l hs
            rw [check_apply_of_lt hs hlt]
            exact .error _ c rfl
        | none =>
            -- The plain parser stops here. The other one goes on, and where it ends is known from `hopened`.
            obtain ⟨span, htooDeep⟩ := exists_tooDeep (plain s limit) c.tokens
            have hstops : Parser.required (plain s limit) 0 c.tokens =
                .error (.tooDeeplyNested limit span) c.tokens :=
              congrArg (EStateM.Result.error · c.tokens) htooDeep
            obtain ⟨result, c', hended, hnesting, hgood⟩ := hopened.ends
            rw [check_apply_of_free hs, hstops]
            show Tracks _ _ _ _ _ _ ((nested (expression s (required s fuel)) >>= _) c) _
            rw [hended]
            exact .beyond result c' span c.tokens hs (by omega) hnesting hgood

/-- The places below a rule, where as many are open as the rule found, and fewer than `k` tokens are left. -/
theorem tracks_places {fuel : Nat} (hfuel : k ≤ fuel) (htotal : d + k ≤ total + 1) (c : Counter)
    (hc : c.nesting = d) (hlength : c.tokens.length < k) :
    TracksTree s limit total d c.tokens.length (required s fuel)
      (Parser.required (plain s limit) (limit - d)) c := by
  subst hc
  exact tracks_required hlimit fuel (by omega) (by omega)

/-- **Whole texts** are parsed as the plain parser has it. -/
theorem tracks_statements (fuel : Nat) (clock : Tokens) {c : Counter} (hc : c.nesting = 0)
    (hfuel : c.tokens.length ≤ fuel) (htotal : c.tokens.length ≤ total) :
    Tracks s limit total 0 (fun p _ => p) (fun _ _ => True) (statements s fuel clock c)
      (Parser.statements (plain s limit) clock c.tokens) := by
  induction clock generalizing c with
  | nil => exact .ok [] c hc trivial
  | cons t clock ih =>
      have hplaces := tracks_places hlimit (d := 0) hfuel (by omega : 0 + c.tokens.length ≤ total + 1)
      have hexpression := tracks_expression hlimit htotal hplaces hc (Nat.le_refl _)
      obtain ⟨ts, nesting, height⟩ := c
      rw [statements, Parser.statements, get_bind_apply, Parser.get_bind_apply]
      cases ts with
      | nil => exact .ok [] ⟨[], nesting, height⟩ hc trivial
      | cons token rest =>
          dsimp only at hfuel htotal
          refine hexpression.bind fun found c₁ hc₁ hfound => ?_
          cases found with
          | lineEnd got =>
              have hlength : c₁.tokens.length < (token :: rest).length := hfound
              exact ih hc₁ (by omega) (by omega)
          | tree e =>
              have hlength : c₁.height + c₁.tokens.length ≤ (token :: rest).length := hfound.2
              refine (ih hc₁ (by omega) (by omega)).bind fun p c₂ hc₂ _ => ?_
              exact .ok (e :: p) c₂ hc₂ trivial

end Counted

end Mapsto.Parser
