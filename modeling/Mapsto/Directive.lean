import Mapsto.Text.Blank

/-!
# `Mapsto.Directive` — lines that are instructions

A line whose first character, blanks apart, is `!` is no program text if anything follows the mark: it is
an instruction `!name(argument)`. Blanks around the argument do not count, nor does what stands behind
the closing parenthesis.
-/

namespace Mapsto

/-- An instruction `!name(argument)`. -/
structure Directive where
  name : String
  argument : String
deriving DecidableEq

/-- Why an instruction cannot be carried out. -/
inductive DirectiveError where
  | missingBang
  | missingOpenParen
  | missingCloseParen
  | emptyName
  | unknownName (name : String)
  | emptyTarget
  | targetNotFound (target : String)
  | targetIsDirectory (target : String)
  | targetNotAFile (target : String)
  | targetUnreadable (target : String)
deriving DecidableEq

/-- The wording of an error in an instruction. -/
def DirectiveError.message : DirectiveError → String
  | missingBang => "Expected '!' before macro call"
  | missingOpenParen => "Expected '(' after macro name"
  | missingCloseParen => "Expected ')' after macro argument"
  | emptyName => "Expected a macro name after '!'"
  | unknownName name => "No such macro '" ++ name ++ "'"
  | emptyTarget => "!include: expected a file name"
  | targetNotFound target => "!include: No such file '" ++ target ++ "' found"
  | targetIsDirectory target => "!include: '" ++ target ++ "' is a directory"
  | targetNotAFile target => "!include: '" ++ target ++ "' is not a regular file"
  | targetUnreadable target => "!include: could not read '" ++ target ++ "'"

namespace Directive

open Text

/-- Whether a line is an instruction. -/
def isDirective (line : List Char) : Bool :=
  match trim line with
  | '!' :: _ :: _ => true
  | _ => false

/-- Reads an instruction from a line without blanks around it. -/
def parse : List Char → Except DirectiveError Directive
  | '!' :: cs =>
    match cs.dropWhile (· != '(') with
    | [] => .error .missingOpenParen
    | _ :: behind =>
      let name := cs.takeWhile (· != '(')
      if name = [] then .error .emptyName
      else
        match behind.dropWhile (· != ')') with
        | [] => .error .missingCloseParen
        | _ :: _ =>
          .ok ⟨String.ofList name, String.ofList (trim (behind.takeWhile (· != ')')))⟩
  | _ => .error .missingBang

/-- The text of an instruction. -/
def text (d : Directive) : String :=
  "!" ++ d.name ++ "(" ++ d.argument ++ ")"

end Directive

end Mapsto
