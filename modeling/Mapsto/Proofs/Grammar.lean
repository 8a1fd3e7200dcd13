import Mapsto.Expr.Parser

/-!
# `Mapsto.Proofs.Grammar` — the grammar of programs, as derivation trees

The grammar of the language, written down without a parser:

```text
program    := { END_OF_LINE | expression }
expression := IDENT ':=' expression
            | IDENT '|->' expression
            | 'if' expression 'then' expression 'else' expression
            | term { ('+' | '-') term }
term       := factor { ('*' | '/' | '>') factor }
factor     := NUMBER | IDENT { '(' expression ')' } | '(' expression ')'
```

A `Derivation` is a derivation tree of one of its categories; a repetition in braces is a category of its
own. `yield` gives the tokens at the leaves, `tree` the expression that the derivation stands for, and
`nesting` how many required places (values, bodies, parts of a choice, groups, arguments) lie one inside
the other.

**Greed.** The grammar alone is ambiguous: `f (1)` is one statement or two. What decides is the context:
a name with its arguments is never followed by another `(`. `Greedy` says this of every name in a
derivation, given the tokens that follow the whole.
-/

namespace Mapsto

/-- The token an operator is written as. -/
def Operator.token : Operator → Token
  | add => .plus
  | subtract => .minus
  | multiply => .star
  | divide => .slash
  | greater => .greater

/-- Whether an operator joins terms; the others join factors and bind more tightly. -/
def Operator.joinsTerms : Operator → Bool
  | add => true
  | subtract => true
  | _ => false

namespace Grammar

/-- The categories of the grammar. -/
inductive Category where
  | program
  | expression
  | term
  | factor
  /-- `{ ('+' | '-') term }` -/
  | terms
  /-- `{ ('*' | '/' | '>') factor }` -/
  | factors
  /-- `{ '(' expression ')' }` -/
  | arguments

/-- What a derivation stands for. A repetition stands for what it makes of the operand in front of it. -/
abbrev Category.Meaning : Category → Type
  | program => Program
  | expression => Expr
  | term => Expr
  | factor => Expr
  | terms => Expr → Expr
  | factors => Expr → Expr
  | arguments => Expr → Expr

/-- The derivation trees of a category. -/
inductive Derivation : Category → Type where
  | endOfText : Derivation .program
  | lineEnd (rest : Derivation .program) : Derivation .program
  | statement (first : Derivation .expression) (rest : Derivation .program) : Derivation .program
  | binding (name : String) (value : Derivation .expression) : Derivation .expression
  | function (parameter : String) (body : Derivation .expression) : Derivation .expression
  | ifElse (condition consequence alternative : Derivation .expression) : Derivation .expression
  | sum (first : Derivation .term) (rest : Derivation .terms) : Derivation .expression
  | noTerm : Derivation .terms
  | andTerm (op : Operator) (h : op.joinsTerms = true) (right : Derivation .term)
      (rest : Derivation .terms) : Derivation .terms
  | product (first : Derivation .factor) (rest : Derivation .factors) : Derivation .term
  | noFactor : Derivation .factors
  | andFactor (op : Operator) (h : op.joinsTerms = false) (right : Derivation .factor)
      (rest : Derivation .factors) : Derivation .factors
  | number (lexeme : String) (literal : Expr) (h : Parser.literal? lexeme = some literal) :
      Derivation .factor
  | application (name : String) (arguments : Derivation .arguments) : Derivation .factor
  | group (inner : Derivation .expression) : Derivation .factor
  | noArgument : Derivation .arguments
  | andArgument (argument : Derivation .expression) (rest : Derivation .arguments) :
      Derivation .arguments

namespace Derivation

/-- The tokens that a derivation derives. -/
@[simp] def yield {c : Category} : Derivation c → List Token
  | endOfText => []
  | lineEnd rest => .endLine :: rest.yield
  | statement first rest => first.yield ++ rest.yield
  | binding name value => .identifier name :: .binding :: value.yield
  | function parameter body => .identifier parameter :: .mapsTo :: body.yield
  | ifElse condition consequence alternative =>
    .ifWord :: condition.yield ++ .thenWord :: consequence.yield ++ .elseWord :: alternative.yield
  | sum first rest => first.yield ++ rest.yield
  | noTerm => []
  | andTerm op _ right rest => op.token :: right.yield ++ rest.yield
  | product first rest => first.yield ++ rest.yield
  | noFactor => []
  | andFactor op _ right rest => op.token :: right.yield ++ rest.yield
  | number lexeme _ _ => [.number lexeme]
  | application name arguments => .identifier name :: arguments.yield
  | group inner => .leftParen :: inner.yield ++ [.rightParen]
  | noArgument => []
  | andArgument argument rest => .leftParen :: argument.yield ++ .rightParen :: rest.yield

/-- What a derivation stands for. Operators of one kind, and calls, associate to the left; parentheses
leave no trace. -/
def tree {c : Category} : Derivation c → c.Meaning
  | endOfText => []
  | lineEnd rest => rest.tree
  | statement first rest => first.tree :: rest.tree
  | binding name value => .binding name value.tree
  | function parameter body => .function parameter body.tree
  | ifElse condition consequence alternative =>
    .ifElse condition.tree consequence.tree alternative.tree
  | sum first rest => rest.tree first.tree
  | noTerm => fun left => left
  | andTerm op _ right rest => fun left => rest.tree (.binary op left right.tree)
  | product first rest => rest.tree first.tree
  | noFactor => fun left => left
  | andFactor op _ right rest => fun left => rest.tree (.binary op left right.tree)
  | number _ literal _ => literal
  | application name arguments => arguments.tree (.var name)
  | group inner => inner.tree
  | noArgument => fun callee => callee
  | andArgument argument rest => fun callee => rest.tree (.call callee argument.tree)

/-- The largest number of required places of a derivation that lie one inside the other. -/
@[simp] def nesting {c : Category} : Derivation c → Nat
  | endOfText => 0
  | lineEnd rest => rest.nesting
  | statement first rest => max first.nesting rest.nesting
  | binding _ value => value.nesting + 1
  | function _ body => body.nesting + 1
  | ifElse condition consequence alternative =>
    max (max condition.nesting consequence.nesting) alternative.nesting + 1
  | sum first rest => max first.nesting rest.nesting
  | noTerm => 0
  | andTerm _ _ right rest => max right.nesting rest.nesting
  | product first rest => max first.nesting rest.nesting
  | noFactor => 0
  | andFactor _ _ right rest => max right.nesting rest.nesting
  | number _ _ _ => 0
  | application _ arguments => arguments.nesting
  | group inner => inner.nesting + 1
  | noArgument => 0
  | andArgument argument rest => max (argument.nesting + 1) rest.nesting

/-- No name with its arguments is followed by another `(`, when `follow` comes behind the derivation. -/
def Greedy {c : Category} : Derivation c → (follow : List Token) → Prop
  | endOfText, _ => True
  | lineEnd rest, follow => rest.Greedy follow
  | statement first rest, follow => first.Greedy (rest.yield ++ follow) ∧ rest.Greedy follow
  | binding _ value, follow => value.Greedy follow
  | function _ body, follow => body.Greedy follow
  | ifElse condition consequence alternative, follow =>
    condition.Greedy (.thenWord :: consequence.yield ++ .elseWord :: alternative.yield ++ follow) ∧
      consequence.Greedy (.elseWord :: alternative.yield ++ follow) ∧ alternative.Greedy follow
  | sum first rest, follow => first.Greedy (rest.yield ++ follow) ∧ rest.Greedy follow
  | noTerm, _ => True
  | andTerm _ _ right rest, follow => right.Greedy (rest.yield ++ follow) ∧ rest.Greedy follow
  | product first rest, follow => first.Greedy (rest.yield ++ follow) ∧ rest.Greedy follow
  | noFactor, _ => True
  | andFactor _ _ right rest, follow => right.Greedy (rest.yield ++ follow) ∧ rest.Greedy follow
  | number _ _ _, _ => True
  | application _ arguments, follow => arguments.Greedy follow
  | group inner, follow => inner.Greedy (.rightParen :: follow)
  | noArgument, follow => follow.head? ≠ some .leftParen
  | andArgument argument rest, follow =>
    argument.Greedy (.rightParen :: rest.yield ++ follow) ∧ rest.Greedy follow

/-- A derivation of a whole text: its leaves are the tokens, and every name took all arguments it could. -/
structure Covers (d : Derivation .program) (ts : Parser.Tokens) : Prop where
  yield_eq : d.yield = ts.map Spanned.value
  greedy : d.Greedy []

/-- The limits of the language on a program: how high its trees are, and how many required places lie
one inside the other. -/
structure Within (d : Derivation .program) (limit : Nat) : Prop where
  height_le : ∀ e ∈ d.tree, e.height ≤ limit
  nesting_le : d.nesting ≤ limit

end Derivation

end Grammar

end Mapsto
