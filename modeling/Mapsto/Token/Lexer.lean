import Mapsto.Token
import Mapsto.Text.Alphabetic
import Mapsto.Text.Numeric

/-!
# `Mapsto.Token.Lexer` — from characters to tokens

Reading is split into two questions about a list of characters, each answered by a number of
characters: how long is the layout in front of the next token (`gap`), and which token or mistake
stands there and how long is it (`munch`). A `Cursor` moves over that many characters and counts their
bytes; so that every place is right as soon as the two counts are.

* Layout is made of spaces, tabs, carriage returns, and comments from `#` up to the end of the line.
  The end of a line is a token.
* A word that begins with `if`, `then` or `else` is that keyword, whatever follows.
* A `:` or `|` that does not start `:=` or `|->` is a mistake of one character; reading goes on after
  it, so that one pass reports every mistake of a text.

**Progress.** Whatever stands in front of the end has at least one character (`munch_pos`), which makes
`scan` end.
-/

namespace Mapsto

/-- What can be wrong with the characters of a text. -/
inductive LexError where
  /-- No token starts with this character. -/
  | unexpectedCharacter (c : Char)
  /-- The first character of an operator is not followed by the rest of it. -/
  | malformedOperator (expected found : String)
deriving DecidableEq

/-- The wording of a lexical error. -/
def LexError.message : LexError → String
  | unexpectedCharacter c => "Unexpected character '" ++ c.toString ++ "' in source"
  | malformedOperator expected found =>
    "Expected sequence '" ++ expected ++ "' but found '" ++ found ++ "'"

namespace Lexer

open Text

/-! ## Layout -/

/-- How many characters of layout a text starts with. The flag tells whether it starts inside a comment. -/
def gap : Bool → List Char → Nat
  | _, [] => 0
  | true, c :: cs => if c = '\n' then 0 else gap true cs + 1
  | false, c :: cs =>
    if c = ' ' ∨ c = '\t' ∨ c = '\r' then gap false cs + 1
    else if c = '#' then gap true cs + 1
    else 0

/-! ## Tokens -/

/-- The keywords, in the order in which they are tried. -/
def keywords : List (String × Token) :=
  [("if", .ifWord), ("then", .thenWord), ("else", .elseWord)]

/-- The keyword that a text starts with. -/
def keyword? (cs : List Char) : Option (String × Token) :=
  keywords.find? fun k => k.1.toList.isPrefixOf cs

/-- The tokens of one character. -/
def symbol? : Char → Option Token
  | '\n' => some .endLine
  | '(' => some .leftParen
  | ')' => some .rightParen
  | '+' => some .plus
  | '-' => some .minus
  | '*' => some .star
  | '/' => some .slash
  | '>' => some .greater
  | _ => none

/-- Whether a character may continue an identifier. -/
def isNameChar (c : Char) : Bool :=
  isAlphabetic c || isNumeric c || c == '_'

/-- The numeral that a text starts with: digits, and maybe a point and more digits. -/
def numeral (cs : List Char) : List Char :=
  cs.takeWhile isDigit ++
    match cs.dropWhile isDigit with
    | '.' :: rest => '.' :: rest.takeWhile isDigit
    | _ => []

/-- Reads an operator of which the first character is there. -/
def operator (expected : String) (token : Token) (cs : List Char) : Except LexError Token × Nat :=
  if expected.toList.isPrefixOf cs then (.ok token, expected.toList.length)
  else
    (.error (.malformedOperator expected (String.ofList (cs.take expected.toList.length))), 1)

/-- What stands at the start of a text without layout in front, and how many characters it takes. -/
def munch : List Char → Except LexError Token × Nat
  | [] => (.ok .eof, 0)
  | c :: cs =>
    if c = ':' then operator ":=" .binding (c :: cs)
    else if c = '|' then operator "|->" .mapsTo (c :: cs)
    else
      match keyword? (c :: cs) with
      | some (word, token) => (.ok token, word.toList.length)
      | none =>
        if isAlphabetic c then
          let name := (c :: cs).takeWhile isNameChar
          (.ok (.identifier (String.ofList name)), name.length)
        else if isDigit c then
          let digits := numeral (c :: cs)
          (.ok (.number (String.ofList digits)), digits.length)
        else
          match symbol? c with
          | some token => (.ok token, 1)
          | none => (.error (.unexpectedCharacter c), 1)

theorem operator_pos (expected : String) (token : Token) (cs : List Char)
    (h : expected.toList ≠ []) : 0 < (operator expected token cs).2 := by
  unfold operator
  split
  · exact List.length_pos_iff.mpr h
  · exact Nat.one_pos

theorem keyword?_pos {cs : List Char} {k : String × Token} (h : keyword? cs = some k) :
    0 < k.1.toList.length := by
  have hk : k ∈ keywords := List.mem_of_find?_eq_some h
  simp only [keywords, List.mem_cons, List.not_mem_nil, or_false] at hk
  rcases hk with rfl | rfl | rfl <;> decide

theorem isNameChar_of_isAlphabetic {c : Char} (h : isAlphabetic c = true) : isNameChar c = true := by
  simp [isNameChar, h]

/-- **Progress.** What stands in front of the end takes at least one character. -/
theorem munch_pos (c : Char) (cs : List Char) : 0 < (munch (c :: cs)).2 := by
  simp only [munch]
  split
  · exact operator_pos _ _ _ (by decide)
  split
  · exact operator_pos _ _ _ (by decide)
  split
  · rename_i h
    exact keyword?_pos h
  split
  · rename_i h
    simp [isNameChar_of_isAlphabetic h]
  split
  · rename_i h
    simp [numeral, h]
  split <;> exact Nat.one_pos

end Lexer

/-! ## Cursors -/

/-- A place in a text: the characters still to be read, and how many bytes were read before them. -/
structure Cursor where
  rest : List Char
  offset : Nat

namespace Cursor

open Lexer

/-- The start of a text. -/
def ofString (s : String) : Cursor := ⟨s.toList, 0⟩

/-- How many bytes characters take in UTF-8. -/
def byteLength : List Char → Nat
  | [] => 0
  | c :: cs => c.utf8Size + byteLength cs

/-- Moves over `n` characters. -/
def advance (c : Cursor) (n : Nat) : Cursor :=
  ⟨c.rest.drop n, c.offset + byteLength (c.rest.take n)⟩

/-- Moves over layout. -/
def skipLayout (c : Cursor) : Cursor :=
  c.advance (gap false c.rest)

/-- Reads the next token or mistake. At the end of the text this is `eof`, however often it is asked for. -/
def next (c : Cursor) : Spanned (Except LexError Token) × Cursor :=
  let start := c.skipLayout
  let read := munch start.rest
  let stop := start.advance read.2
  (⟨read.1, ⟨start.offset, stop.offset⟩⟩, stop)

theorem rest_advance_length (c : Cursor) (n : Nat) :
    (c.advance n).rest.length = c.rest.length - n := by
  simp [advance]

/-- Reading on from a place that is not the end leaves less to read. -/
theorem next_rest_length {c : Cursor} {x : Char} {xs : List Char} (h : c.skipLayout.rest = x :: xs) :
    c.next.2.rest.length < c.rest.length := by
  have hskip : c.skipLayout.rest.length ≤ c.rest.length := by
    rw [skipLayout, rest_advance_length]
    omega
  have hpos := munch_pos x xs
  simp only [next, rest_advance_length, h, List.length_cons] at hskip ⊢
  omega

/-- Everything that can be read from a place on, in order. -/
def scan (c : Cursor) : List (Spanned (Except LexError Token)) :=
  match h : c.skipLayout.rest with
  | [] => []
  | _ :: _ =>
    let read := c.next
    have : read.2.rest.length < c.rest.length := next_rest_length h
    read.1 :: scan read.2
termination_by c.rest.length

end Cursor

/-! ## Whole texts -/

/-- The tokens of a text and its mistakes, each in the order of the text. -/
structure Lexed where
  tokens : List (Spanned Token)
  errors : List (Spanned LexError)

namespace Lexed

/-- Splits what was read into tokens and mistakes. -/
def ofItems : List (Spanned (Except LexError Token)) → Lexed
  | [] => ⟨[], []⟩
  | ⟨.ok token, span⟩ :: rest =>
    let lexed := ofItems rest
    { lexed with tokens := ⟨token, span⟩ :: lexed.tokens }
  | ⟨.error e, span⟩ :: rest =>
    let lexed := ofItems rest
    { lexed with errors := ⟨e, span⟩ :: lexed.errors }

/-- Reads a whole text. -/
def ofString (s : String) : Lexed :=
  ofItems (Cursor.ofString s).scan

/-- The tokens of a text without mistakes, or the mistakes. -/
def result (lexed : Lexed) : Except (List (Spanned LexError)) (List (Spanned Token)) :=
  if lexed.errors.isEmpty then .ok lexed.tokens else .error lexed.errors

end Lexed

/-- A lexical error and its place, as in messages to the user. -/
def Spanned.errorText (e : Spanned LexError) : String :=
  e.value.message ++ " " ++ e.span.text

end Mapsto
