import Mapsto.Report
import Mapsto.Text.Blank
import Mapsto.Text.Lines

/-!
# `Mapsto.Interactive` — running line by line

Each line of the input is a source text of its own, in one session. After its own output the value of a
line is shown, unless it is absent. A line that says `exit` or `quit` ends the session, and so does the
end of the input; a line that is no text ends it with a failure.
-/

namespace Mapsto

/-- A session that is under way. -/
structure Interactive where
  session : Session
  streams : Streams

namespace Interactive

/-- What is said at the start. -/
def banner : String := "MathFP v0.1.0\n"

/-- The origin of lines that are typed in. -/
def origin : String := "<stdin>"

/-- A session at its start. -/
def initial : Interactive :=
  ⟨.initial, { Streams.unlimited with output := (Sink.unlimited.write banner).2 }⟩

/-- Shows a value. -/
def echo (v : Value) (output : Sink) : Sink :=
  if v.isAbsent then output else (output.write (v.text ++ "\n")).2

/-- Runs one line and reports what is wrong with it. -/
def runLine (config : Config) (disk : Disk) (state : Interactive) (line : String) : Interactive :=
  match state.session.run config disk state.streams.output line origin with
  | (.ok outcome, session, output) =>
    let reports := Report.writeLines state.streams.reports (Report.diagnostics outcome.diagnostics)
    ⟨session, echo outcome.value output, reports.2⟩
  | (.error e, session, output) =>
    let reports := Report.writeLines state.streams.reports (Report.frontend e)
    ⟨session, output, reports.2⟩

/-- What becomes of a session with a line of input. -/
inductive Step where
  | goOn (state : Interactive)
  /-- The session is over. -/
  | over (state : Interactive)
  /-- The session is over because of a failure. -/
  | failed (state : Interactive)

/-- Takes one line of input, or what is no text in place of one. -/
def step (config : Config) (disk : Disk) (state : Interactive) : Option String → Step
  | none =>
    let reports := Report.writeLines state.streams.reports [Report.line Report.invalidText]
    .failed { state with streams := { state.streams with reports := reports.2 } }
  | some line =>
    match String.ofList (Text.trim line.toList) with
    | "exit" => .over state
    | "quit" => .over state
    | "" => .goOn state
    | _ => .goOn (state.runLine config disk line)

/-- Takes lines up to the end of the session. The flag tells whether it ended without failure. -/
def run (config : Config) (disk : Disk) : Interactive → List (Option String) → Bool × Streams
  | state, [] => (true, state.streams)
  | state, line :: rest =>
    match state.step config disk line with
    | .goOn state => run config disk state rest
    | .over state => (true, state.streams)
    | .failed state => (false, state.streams)

/-- The lines of an input, each with its end of line. Nothing stands in place of a line that is no text. -/
def inputLines (input : ByteArray) : List (Option String) :=
  (Text.splitAfter (· == 10) input.toList).map fun bytes => String.fromUTF8? ⟨bytes.toArray⟩

end Interactive

end Mapsto
