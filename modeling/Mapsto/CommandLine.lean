import Mapsto.Decimal.Numeral
import Mapsto.Eval

/-!
# `Mapsto.CommandLine` — what the arguments ask for

Arguments are read from left to right. The first that is wrong decides, unless help or the version was
asked for before it. Of several depth settings the last one counts; only one file may be named.
-/

namespace Mapsto

/-- The settings of a run. -/
structure Options where
  maxCallDepth : Nat
  /-- The file to run; without one the session is interactive. -/
  file : Option String
deriving DecidableEq

/-- The settings without arguments. -/
def Options.initial : Options := ⟨Config.defaultCallDepth, none⟩

/-- The configuration that the settings ask for. -/
def Options.config (options : Options) : Config := ⟨Builtin.all, options.maxCallDepth⟩

/-- What the arguments ask for. -/
inductive Command where
  | help
  | version
  | run (options : Options)
deriving DecidableEq

/-- What can be wrong with the arguments. -/
inductive OptionsError where
  | unknownOption (option : String)
  | missingValue (option : String)
  | invalidValue (option value : String)
  | extraFile (file : String)
deriving DecidableEq

/-- The wording of an error in the arguments. -/
def OptionsError.message : OptionsError → String
  | unknownOption option => "unknown option `" ++ option ++ "`"
  | missingValue option => "option `" ++ option ++ "` needs a value"
  | invalidValue option value => "invalid value `" ++ value ++ "` for `" ++ option ++ "`"
  | extraFile file => "only one file can be run, got `" ++ file ++ "` as well"

namespace CommandLine

/-- How the program is used. -/
def usage : String :=
  "Usage: mfp [OPTIONS] [FILE]\n" ++
  "\n" ++
  "Runs FILE, or starts an interactive session when no FILE is given.\n" ++
  "\n" ++
  "Options:\n" ++
  "  --max-call-depth <N>  Nested function calls allowed before a call fails\n" ++
  "  -h, --help            Print this help\n" ++
  "  -V, --version         Print the version"

/-- The option that sets the call depth. -/
def depthOption : String := "--max-call-depth"

/-- The value in an argument that sets the call depth all by itself, as in `--max-call-depth=8`. -/
def depthValue? (argument : String) : Option String :=
  let stem := depthOption.toList ++ ['=']
  if stem.isPrefixOf argument.toList then some (String.ofList (argument.toList.drop stem.length))
  else none

/-- Whether an argument is meant as an option. A lone dash is a file name. -/
def looksLikeOption (argument : String) : Bool :=
  match argument.toList with
  | '-' :: _ :: _ => true
  | _ => false

/-- Reads a call depth. -/
def readDepth (value : String) : Except OptionsError Nat :=
  match Decimal.readCount value with
  | some n => .ok n
  | none => .error (.invalidValue depthOption value)

/-- Reads the arguments that are left, given the settings so far. -/
def parseFrom (options : Options) : List String → Except OptionsError Command
  | [] => .ok (.run options)
  | argument :: rest =>
    if argument = "-h" ∨ argument = "--help" then .ok .help
    else if argument = "-V" ∨ argument = "--version" then .ok .version
    else if argument = depthOption then
      match rest with
      | [] => .error (.missingValue argument)
      | value :: rest =>
        match readDepth value with
        | .error e => .error e
        | .ok n => parseFrom { options with maxCallDepth := n } rest
    else
      match depthValue? argument with
      | some value =>
        match readDepth value with
        | .error e => .error e
        | .ok n => parseFrom { options with maxCallDepth := n } rest
      | none =>
        if looksLikeOption argument then .error (.unknownOption argument)
        else if options.file.isSome then .error (.extraFile argument)
        else parseFrom { options with file := some argument } rest

/-- Reads all arguments. -/
def parse (arguments : List String) : Except OptionsError Command :=
  parseFrom .initial arguments

end CommandLine

end Mapsto
