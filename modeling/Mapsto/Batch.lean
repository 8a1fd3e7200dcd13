import Mapsto.Report

/-!
# `Mapsto.Batch` — running a file

A file runs as one source text. What goes wrong while it runs is reported and does not make the run
fail; what keeps it from running does.
-/

namespace Mapsto

/-- Why running a file fails. -/
inductive RunError where
  | noSuchFile (path : String)
  | unreadable (path : String)
  | frontend (e : FrontendError)
  /-- The reports could not be written. -/
  | reporting (e : SinkError)

namespace RunError

/-- The lines that report a failure. A missing file is reported without the mark. -/
def lines : RunError → List String
  | noSuchFile path => ["No such file: " ++ path ++ "\n"]
  | unreadable path => [Report.line ("could not read " ++ path ++ ": " ++ Report.invalidText)]
  | frontend e => Report.frontend e
  | reporting e => [Report.line e.message]

end RunError

namespace Batch

/-- The text of a file. -/
def readText (disk : Disk) (path : String) : Except RunError String :=
  match disk.opened? path with
  | some (.file content) =>
    match String.fromUTF8? content with
    | some text => .ok text
    | none => .error (.unreadable path)
  | _ => .error (.noSuchFile path)

/-- Runs a file in a session. -/
def run (config : Config) (disk : Disk) (session : Session) (streams : Streams) (path : String) :
    Except RunError Unit × Session × Streams :=
  match readText disk path with
  | .error e => (.error e, session, streams)
  | .ok source =>
    match session.run config disk streams.output source path with
    | (.error e, session, output) => (.error (.frontend e), session, { streams with output := output })
    | (.ok outcome, session, output) =>
      match Report.writeLines streams.reports (Report.diagnostics outcome.diagnostics) with
      | (.ok _, reports) => (.ok (), session, ⟨output, reports⟩)
      | (.error e, reports) => (.error (.reporting e), session, ⟨output, reports⟩)

end Batch

end Mapsto
