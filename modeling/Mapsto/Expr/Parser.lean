import Mapsto.Expr
import Mapsto.Token
import Mapsto.Decimal.Numeral

/-!
# `Mapsto.Expr.Parser` — from tokens to expressions

The grammar, with its precedences from low to high:

```text
program    := { END_OF_LINE | expression }
expression := IDENT ':=' expression
            | IDENT '|->' expression
            | 'if' expression 'then' expression 'else' expression
            | term { ('+' | '-') term }
term       := factor { ('*' | '/' | '>') factor }
factor     := NUMBER | IDENT { '(' expression ')' } | '(' expression ')'
```

Both kinds of operators associate to the left. An end of line is allowed between expressions only; the
other places, where an expression has to stand, are the *required* ones: the value of a binding, the
body of a function, the parts of a choice, a group in parentheses and an argument.

**Limits.** A tree may not be higher than `Setting.limit`, and no more than that many required places
may be open at once. The second limit is what the recursion runs on: `required n` parses a required
place when `n` more may be opened inside it, and hands `required (n - 1)` to the rules of the grammar,
each of which is a function of the parser for the places below it. The loops run on a clock, which is the
list of the tokens that are left when a loop is entered: each round takes at least one token, and one
stroke off the clock.

**State.** A parser reads from a list of tokens and leaves what it did not read, also when it fails:
parsing can go on after a mistake.
-/

namespace Mapsto

/-! ## Errors -/

/-- What can be wrong with the tokens of a text. -/
inductive ParseError where
  /-- No expression starts with this token. -/
  | unexpected (token : Spanned Token)
  | expected (what : String) (got : Spanned Token)
  /-- An end of line stands where an expression is required. -/
  | expectedExpression (got : Spanned Token)
  | unexpectedEnd (what : String) (span : Span)
  | invalidNumber (lexeme : String) (span : Span)
  | tooDeeplyNested (limit : Nat) (span : Span)
deriving DecidableEq

/-- The wording of a parse error. -/
def ParseError.message : ParseError → String
  | unexpected token => "Unexpected token " ++ token.value.describe ++ " " ++ token.span.text
  | expected what got =>
    "Expected " ++ what ++ ", but got " ++ got.value.describe ++ " instead " ++ got.span.text
  | expectedExpression got =>
    "Expected an expression, but got " ++ got.value.describe ++ " instead " ++ got.span.text
  | unexpectedEnd what span => "Unexpected end of input, expected " ++ what ++ " " ++ span.text
  | invalidNumber lexeme span => "Invalid number literal `" ++ lexeme ++ "` " ++ span.text
  | tooDeeplyNested limit span =>
    "Expression is nested more than " ++ Nat.repr limit ++ " levels deep " ++ span.text

namespace Parser

/-- The tokens that are left to read. -/
abbrev Tokens := List (Spanned Token)

/-- A step of parsing: it reads tokens, and gives a result or fails. -/
abbrev Parse := EStateM ParseError Tokens

/-- What all steps know: how deep trees may be, and the place at the end of the text. -/
structure Setting where
  limit : Nat
  atEnd : Span

/-- An expression and the height of its tree. -/
structure Measured where
  expr : Expr
  height : Nat

/-- What stands where an expression may stand: an expression, or an end of line in its place. -/
inductive Item where
  | expr (tree : Measured)
  | lineEnd (token : Spanned Token)

/-- The complaint about something too deep that starts at the first of the given tokens. -/
def tooDeep (s : Setting) : Tokens → ParseError
  | [] => .tooDeeplyNested s.limit s.atEnd
  | token :: _ => .tooDeeplyNested s.limit token.span

/-- Passes a tree on if it is not too high. The tokens are those it starts with. -/
def checked (s : Setting) (start : Tokens) (tree : Measured) : Parse Measured :=
  if s.limit < tree.height then throw (tooDeep s start) else pure tree

/-- Reads one given token. -/
def expect (s : Setting) (want : Token) : Parse Unit := do
  match ← get with
  | [] => throw (.unexpectedEnd want.describe s.atEnd)
  | token :: rest => if token.value = want then set rest else throw (.expected want.describe token)

/-! ## Numbers and operators -/

/-- The literal that a numeral denotes: with a point a decimal, without one an integer. -/
def literal? (lexeme : String) : Option Expr :=
  if '.' ∈ lexeme.toList then (Decimal.readDecimal lexeme).map .float
  else (Decimal.readInteger lexeme).map .integer

/-- The operators that bind less tightly. -/
def sumOperator? : Token → Option Operator
  | .plus => some .add
  | .minus => some .subtract
  | _ => none

/-- The operators that bind more tightly. -/
def productOperator? : Token → Option Operator
  | .star => some .multiply
  | .slash => some .divide
  | .greater => some .greater
  | _ => none

/-! ## The rules of the grammar

`sub` parses a required place below the one in hand. -/

/-- `{ '(' expression ')' }` behind a function: each pair of parentheses applies it to one argument. -/
def arguments (s : Setting) (sub : Parse Measured) (start : Tokens) :
    (clock : Tokens) → Measured → Parse Measured
  | [], callee => pure callee
  | _ :: clock, callee => do
    match ← get with
    | ⟨.leftParen, _⟩ :: rest =>
      set rest
      let argument ← sub
      expect s .rightParen
      let call ← checked s start
        ⟨.call callee.expr argument.expr, max callee.height argument.height + 1⟩
      arguments s sub start clock call
    | _ => pure callee

/-- `NUMBER | IDENT { '(' expression ')' } | '(' expression ')'`, or an end of line. -/
def factor (s : Setting) (sub : Parse Measured) : Parse Item := do
  match ← get with
  | [] => throw (.unexpectedEnd "an expression" s.atEnd)
  | token :: rest =>
    match token.value with
    | .number lexeme =>
      set rest
      match literal? lexeme with
      | some e => pure (.expr ⟨e, 1⟩)
      | none => throw (.invalidNumber lexeme token.span)
    | .identifier name =>
      set rest
      let tree ← arguments s sub (token :: rest) rest ⟨.var name, 1⟩
      pure (.expr tree)
    | .leftParen =>
      set rest
      let tree ← sub
      expect s .rightParen
      pure (.expr tree)
    | .endLine =>
      set rest
      pure (.lineEnd token)
    | _ => throw (.unexpected token)

/-- The operators and operands behind a first operand, `left`. -/
def chain (s : Setting) (operator? : Token → Option Operator) (operand : Parse Item) (start : Tokens) :
    (clock : Tokens) → Measured → Parse Measured
  | [], left => pure left
  | _ :: clock, left => do
    match ← get with
    | [] => pure left
    | token :: rest =>
      match operator? token.value with
      | none => pure left
      | some op =>
        set rest
        match ← operand with
        | .lineEnd got => throw (.expectedExpression got)
        | .expr right =>
          let tree ← checked s start ⟨.binary op left.expr right.expr, max left.height right.height + 1⟩
          chain s operator? operand start clock tree

/-- `operand { operator operand }`, associating to the left. -/
def leftAssociative (s : Setting) (operator? : Token → Option Operator) (operand : Parse Item) :
    Parse Item := do
  let start ← get
  match ← operand with
  | .lineEnd got => pure (.lineEnd got)
  | .expr left =>
    let tree ← chain s operator? operand start (← get) left
    pure (.expr tree)

/-- `factor { ('*' | '/' | '>') factor }`. -/
def term (s : Setting) (sub : Parse Measured) : Parse Item :=
  leftAssociative s productOperator? (factor s sub)

/-- `term { ('+' | '-') term }`. -/
def sum (s : Setting) (sub : Parse Measured) : Parse Item :=
  leftAssociative s sumOperator? (term s sub)

/-- An expression, or an end of line. -/
def expression (s : Setting) (sub : Parse Measured) : Parse Item := do
  let start ← get
  match start with
  | ⟨.identifier name, _⟩ :: ⟨.binding, _⟩ :: rest =>
    set rest
    let value ← sub
    let tree ← checked s start ⟨.binding name value.expr, value.height + 1⟩
    pure (.expr tree)
  | ⟨.identifier parameter, _⟩ :: ⟨.mapsTo, _⟩ :: rest =>
    set rest
    let body ← sub
    let tree ← checked s start ⟨.function parameter body.expr, body.height + 1⟩
    pure (.expr tree)
  | ⟨.ifWord, _⟩ :: rest =>
    set rest
    let condition ← sub
    expect s .thenWord
    let consequence ← sub
    expect s .elseWord
    let alternative ← sub
    let tree ← checked s start
      ⟨.ifElse condition.expr consequence.expr alternative.expr,
        max (max condition.height consequence.height) alternative.height + 1⟩
    pure (.expr tree)
  | _ => sum s sub

/-- An expression where one is required and `n` such places may be opened, this one included. -/
def required (s : Setting) : Nat → Parse Measured
  | 0 => do throw (tooDeep s (← get))
  | n + 1 => do
    match ← expression s (required s n) with
    | .expr tree => pure tree
    | .lineEnd got => throw (.expectedExpression got)

/-- The expressions up to the end of the text. -/
def statements (s : Setting) : (clock : Tokens) → Parse (List Expr)
  | [] => pure []
  | _ :: clock => do
    match ← get with
    | [] => pure []
    | _ =>
      match ← expression s (required s s.limit) with
      | .lineEnd _ => statements s clock
      | .expr tree =>
        let rest ← statements s clock
        pure (tree.expr :: rest)

end Parser

/-! ## Whole texts -/

/-- A parser in the middle of its work: the tokens it has not read, and the place where they end. -/
structure Parser where
  tokens : Parser.Tokens
  atEnd : Span

namespace Parser

/-- How deep expressions may be. -/
def maxDepth : Nat := 256

/-- The place behind the last token. -/
def endOf (tokens : Tokens) : Span :=
  Span.point ((tokens.getLast?.map fun t => t.span.stop).getD 0)

/-- A parser that has read nothing. -/
def ofTokens (tokens : Tokens) : Parser := ⟨tokens, endOf tokens⟩

/-- Parses everything that is left, with a limit on depth. After an error the parser stands where the
error was found. -/
def programWithin (limit : Nat) (p : Parser) : Except ParseError Program × Parser :=
  match statements ⟨limit, p.atEnd⟩ p.tokens p.tokens with
  | .ok program rest => (.ok program, { p with tokens := rest })
  | .error e rest => (.error e, { p with tokens := rest })

/-- Parses everything that is left. -/
def program (p : Parser) : Except ParseError Program × Parser :=
  p.programWithin maxDepth

end Parser

/-- Parses a whole text. -/
def Program.parse (tokens : Parser.Tokens) : Except ParseError Program :=
  (Parser.ofTokens tokens).program.1

end Mapsto
