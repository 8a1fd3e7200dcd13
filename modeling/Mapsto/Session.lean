import Mapsto.Expansion
import Mapsto.Token.Lexer
import Mapsto.Expr.Parser
import Mapsto.Eval

/-!
# `Mapsto.Session` — source texts, one after the other

A session keeps the environment from one source text to the next. A text goes through expansion, reading
and parsing before any of it runs; if one of these fails, nothing runs and the session is as before.
-/

namespace Mapsto

/-- Why a source text does not run. -/
inductive FrontendError where
  | expansion (e : ExpansionError)
  | lexical (errors : List (Spanned LexError))
  | parse (e : ParseError)

namespace FrontendError

/-- The wording of the whole. -/
def message : FrontendError → String
  | expansion e => e.message
  | lexical errors => Nat.repr errors.length ++ " lexical error(s)"
  | parse e => e.message

/-- The wording of every single problem. -/
def messages : FrontendError → List String
  | lexical errors => errors.map Spanned.errorText
  | e => [e.message]

end FrontendError

/-- The program that a source text stands for. -/
def Program.ofSource (disk : Disk) (source origin : String) : Except FrontendError Program :=
  match expand disk source origin with
  | .error e => .error (.expansion e)
  | .ok text =>
    match (Lexed.ofString text).result with
    | .error errors => .error (.lexical errors)
    | .ok tokens =>
      match Program.parse tokens with
      | .error e => .error (.parse e)
      | .ok program => .ok program

/-- What is kept between source texts. -/
structure Session where
  env : Environment

namespace Session

/-- A session in which nothing has run. -/
def initial : Session := ⟨.empty⟩

/-- What a source text comes to. -/
structure Outcome where
  value : Value
  diagnostics : List Diagnostic

/-- Runs a source text that was read from `origin`. -/
def run {σ : Type} [Writable σ] (config : Config) (disk : Disk) (session : Session) (sink : σ)
    (source origin : String) : Except FrontendError Outcome × Session × σ :=
  match Program.ofSource disk source origin with
  | .error e => (.error e, session, sink)
  | .ok program =>
    let (evaluation, sink) := Program.run config program session.env sink
    (.ok ⟨evaluation.value, evaluation.diagnostics⟩, ⟨evaluation.env⟩, sink)

end Session

end Mapsto
