import GraphqlCodegen.CommandLine.Arguments
import GraphqlCodegen.Run
/-!
# The command

What the command prints and the code that it ends with.
-/

namespace GraphqlCodegen.CommandLine

def programName : String := "zeus"

def programVersion : String := "0.1.0"

/-- What the program is for. -/
def summary : String := "Generate a typed GraphQL client from a schema URL or file"

/-- How the program is called. -/
def usage : String :=
  "Usage: " ++ programName ++ " [OPTIONS] " ++ Parameter.source.label ++ " "
    ++ Parameter.outputDir.label

/-- The text for arguments that are not carried out. -/
def ArgumentError.message : ArgumentError → String
  | .help => summary ++ "\n\n" ++ usage
  | .version => programName ++ " " ++ programVersion
  | .unexpected argument => "error: unexpected argument '" ++ argument ++ "' found"
  | .missingValue p => "error: a value is required for '" ++ p.label ++ "' but none was supplied"
  | .repeated flag => "error: the argument '" ++ flag.label ++ "' cannot be used multiple times"
  | .unneededValue s value =>
    "error: unexpected value '" ++ value ++ "' for '--" ++ s.long
      ++ "' found; no more were expected"

/-- The user asked for a text, and that is no error. -/
def ArgumentError.isAnswer : ArgumentError → Bool
  | .help => true
  | .version => true
  | _ => false

def ArgumentError.exitCode (e : ArgumentError) : Nat := if e.isAnswer then 0 else 2

/-- What a command leaves behind. -/
structure Exit where
  exitCode : Nat
  stdout : String
  stderr : String
  disk : Disk
  requests : List Http.Request

/-- Lines, each with its end. -/
def linesText (lines : List String) : String := Text.concat (lines.map (· ++ "\n"))

/-- The line for a file that was written. -/
def writtenLine (path : String) : String := "Wrote " ++ path

/-- The line for a failure that ends the run. -/
def fatalLine (f : Failure) : String :=
  "Error during " ++ f.stage.label ++ " stage: " ++ f.message

/-- Carries out arguments. -/
def execute (a : Arguments) (d : Disk) (e : Http.Endpoint) : Exit :=
  let outcome := run a.options ⟨Settings.load d a.settingsPath, d, e⟩
  match outcome.result with
  | .error failure =>
    ⟨1, "", linesText [fatalLine failure], outcome.disk, outcome.requests⟩
  | .ok report =>
    ⟨if report.isSuccess then 0 else 1, linesText (report.written.map writtenLine),
      linesText (report.failures.map Failure.message), outcome.disk, outcome.requests⟩

/-- Carries out a command. -/
def command (texts : List String) (d : Disk) (e : Http.Endpoint) : Exit :=
  match Arguments.parse texts with
  | .ok a => execute a d e
  | .error error =>
    let text := linesText [error.message]
    if error.isAnswer then ⟨error.exitCode, text, "", d, []⟩
    else ⟨error.exitCode, "", text, d, []⟩

end GraphqlCodegen.CommandLine
