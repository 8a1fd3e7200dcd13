import Mapsto.Batch
import Mapsto.CommandLine
import Mapsto.Interactive

/-!
# `Mapsto.Launch` — the program as a whole

From the arguments, the files and the input to what is written and whether it succeeds.
-/

namespace Mapsto.Launch

/-- What the version is called. -/
def versionLine : String := "mfp 0.1.0\n"

/-- What is said when the arguments are wrong. -/
def complaint (e : OptionsError) : String :=
  "error: " ++ e.message ++ "\n\n" ++ CommandLine.usage ++ "\n"

/-- Runs a file and reports a failure. The flag tells whether there was none. -/
def batch (config : Config) (disk : Disk) (path : String) : Bool × Streams :=
  match Batch.run config disk .initial .unlimited path with
  | (.ok _, _, streams) => (true, streams)
  | (.error e, _, streams) =>
    (false, { streams with reports := (Report.writeLines streams.reports e.lines).2 })

/-- Streams on which one text was written. -/
def said (text : String) : Streams :=
  { Streams.unlimited with output := (Sink.unlimited.write text).2 }

/-- Does what the arguments ask for. The flag tells whether all went well. -/
def run (disk : Disk) (arguments : List String) (input : List (Option String)) : Bool × Streams :=
  match CommandLine.parse arguments with
  | .error e =>
    (false, { Streams.unlimited with reports := (Sink.unlimited.write (complaint e)).2 })
  | .ok .help => (true, said (CommandLine.usage ++ "\n"))
  | .ok .version => (true, said versionLine)
  | .ok (.run options) =>
    match options.file with
    | some path => batch options.config disk path
    | none => Interactive.run options.config disk .initial input

end Mapsto.Launch
