import Mapsto.Launch

/-!
# `Mapsto.Main` — the executable

Everything that is decided is decided by `Mapsto.Launch` and `Mapsto.Interactive`; here files are read,
lines are read and bytes are written. Of the file system a `Disk` is made beforehand, which holds the
files that the source text leads to by its `!include` lines.
-/

namespace Mapsto.Main

/-- What was found on the file system so far: spellings with their canonical form, and entries. -/
structure Snapshot where
  spellings : List (String × String)
  entries : List (String × Entry)

/-- What a program sees of a snapshot. -/
def Snapshot.disk (s : Snapshot) : Disk :=
  ⟨fun path => s.spellings.lookup path, s.entries⟩

/-- Looks a path up on the file system. -/
def look (s : Snapshot) (path : String) : IO Snapshot := do
  try
    let place ← IO.FS.realPath path
    let found := { s with spellings := (path, place.toString) :: s.spellings }
    if (found.disk.get? place.toString).isSome then
      return found
    let kind := (← place.metadata).type
    let entry ←
      match kind with
      | .dir => pure Entry.directory
      | .file => pure (Entry.file (← IO.FS.readBinFile place))
      | _ => pure Entry.other
    return { found with entries := (place.toString, entry) :: found.entries }
  catch _ => return s

/-- The paths that the lines of a text include. -/
def includedPaths (origin source : String) : List String :=
  (Text.lines source.toList).filterMap fun line =>
    match Directive.parse (Text.trim line) with
    | .ok d => some (Expansion.targetPath origin d.argument)
    | .error _ => none

/-- Adds everything to a snapshot that a text leads to. -/
partial def gather (s : Snapshot) (origin source : String) : IO Snapshot := do
  let mut found := s
  for path in includedPaths origin source do
    if (found.spellings.lookup path).isNone then
      let before := found.entries.length
      found ← look found path
      match found.entries with
      | (place, .file content) :: rest =>
        if before ≤ rest.length then
          match String.fromUTF8? content with
          | some text => found ← gather found place text
          | none => pure ()
      | _ => pure ()
  return found

/-- What running a file can see. -/
def diskFor (path : String) : IO Disk := do
  let s ← look ⟨[], []⟩ path
  match s.entries with
  | [(_, .file content)] =>
    match String.fromUTF8? content with
    | some source => return (← gather s path source).disk
    | none => return s.disk
  | _ => return s.disk

/-- Writes out what a run has written. -/
def emit (streams : Streams) : IO Unit := do
  let stdout ← IO.getStdout
  stdout.write streams.output.written
  stdout.flush
  let stderr ← IO.getStderr
  stderr.write streams.reports.written
  stderr.flush

/-- Reads a line of bytes. -/
partial def readLine (input : IO.FS.Stream) (line : ByteArray) : IO ByteArray := do
  let next ← input.read 1
  if next.isEmpty then return line
  if next.data == #[10] then return line ++ next
  readLine input (line ++ next)

/-- Runs an interactive session to its end. -/
partial def converse (config : Config) (input : IO.FS.Stream) (state : Interactive) : IO UInt32 := do
  emit state.streams
  let state := { state with streams := Streams.unlimited }
  let bytes ← readLine input ByteArray.empty
  if bytes.isEmpty then return 0
  let line := String.fromUTF8? bytes
  let s ← look ⟨[], []⟩ Interactive.origin
  let s ← gather s Interactive.origin (line.getD "")
  match state.step config s.disk line with
  | .goOn state => converse config input state
  | .over state => emit state.streams; return 0
  | .failed state => emit state.streams; return 1

/-- Does what the arguments ask for. -/
def run (arguments : List String) : IO UInt32 := do
  match CommandLine.parse arguments with
  | .ok (.run ⟨depth, none⟩) =>
    converse (Options.config ⟨depth, none⟩) (← IO.getStdin) .initial
  | .ok (.run ⟨_, some path⟩) =>
    let (succeeded, streams) := Launch.run (← diskFor path) arguments []
    emit streams
    return if succeeded then 0 else 1
  | _ =>
    let (succeeded, streams) := Launch.run ⟨fun _ => none, []⟩ arguments []
    emit streams
    return if succeeded then 0 else 1

end Mapsto.Main

def main (arguments : List String) : IO UInt32 :=
  Mapsto.Main.run arguments
