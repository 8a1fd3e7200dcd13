import Mapsto.Session

/-!
# `Mapsto.Report` — what the user is told

Every problem takes a line, with a mark in front that tells it from the output of the program. The
streams of a run are its output and its reports.
-/

namespace Mapsto

/-- Where a run writes to. -/
structure Streams where
  output : Sink
  reports : Sink

/-- Two streams that take everything. -/
def Streams.unlimited : Streams := ⟨.unlimited, .unlimited⟩

namespace Report

/-- The mark in front of a report. -/
def mark : String := "[mfp]"

/-- The line for a problem. -/
def line (message : String) : String := mark ++ " " ++ message ++ "\n"

/-- The lines for what went wrong while a program ran. -/
def diagnostics (ds : List Diagnostic) : List String :=
  ds.map fun d => line d.message

/-- The lines for a source text that does not run. -/
def frontend (e : FrontendError) : List String :=
  e.messages.map line

/-- Writes lines up to the first that cannot be written. -/
def writeLines {σ : Type} [Writable σ] : σ → List String → Except SinkError Unit × σ
  | sink, [] => (.ok (), sink)
  | sink, text :: rest =>
    match Writable.write sink text with
    | (.ok _, sink) => writeLines sink rest
    | (.error e, sink) => (.error e, sink)

/-- The complaint about bytes that are no text. -/
def invalidText : String := "stream did not contain valid UTF-8"

end Report

end Mapsto
