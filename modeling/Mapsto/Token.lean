import Mapsto.Span

/-!
# `Mapsto.Token` — the words of the language

Tokens are what a source text consists of once blanks and comments are gone. A number keeps the exact
text it was written as; whether that text is an integer or a decimal is decided when it is parsed.
-/

namespace Mapsto

/-- A word of the language. -/
inductive Token where
  | plus
  | minus
  | star
  | slash
  | greater
  /-- The sign `:=` between a name and its value. -/
  | binding
  /-- The sign `|->` between a parameter and a function's body. -/
  | mapsTo
  | leftParen
  | rightParen
  | endLine
  | identifier (name : String)
  | number (lexeme : String)
  | ifWord
  | thenWord
  | elseWord
  /-- What a cursor reads when its text is used up. -/
  | eof
deriving DecidableEq

namespace Token

/-- The text a token is written as. -/
def lexeme : Token → String
  | plus => "+"
  | minus => "-"
  | star => "*"
  | slash => "/"
  | greater => ">"
  | binding => ":="
  | mapsTo => "|->"
  | leftParen => "("
  | rightParen => ")"
  | endLine => "\n"
  | identifier name => name
  | number lexeme => lexeme
  | ifWord => "if"
  | thenWord => "then"
  | elseWord => "else"
  | eof => "EOF"

/-- The name of a token in messages. -/
def describe : Token → String
  | identifier name => "identifier `" ++ name ++ "`"
  | number lexeme => "number `" ++ lexeme ++ "`"
  | endLine => "end of line"
  | eof => "end of input"
  | token => "`" ++ token.lexeme ++ "`"

end Token

/-- A token and its place, as in `:= (at 2:4)`. -/
def Spanned.text (t : Spanned Token) : String :=
  t.value.lexeme ++ " " ++ t.span.text

end Mapsto
