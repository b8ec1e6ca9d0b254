import GraphqlCodegen.Acquisition
import GraphqlCodegen.Generator
import GraphqlCodegen.Sdl.Parser
import GraphqlCodegen.Settings
/-!
# Failures

All that can go wrong in a run, the stage where it happens, and whether the run ends with it.
-/

namespace GraphqlCodegen

/-- Why a schema text is none. -/
inductive SchemaError where
  /-- The place of the first thing that cannot stand where it does. -/
  | at (place : Sdl.Position)
  /-- Another cause, in words. -/
  | other (text : String)
  deriving DecidableEq, Repr

def SchemaError.message : SchemaError → String
  | .at place =>
    "schema parse error: Parse error at " ++ String.ofList (Nat.toDigits 10 place.line) ++ ":"
      ++ String.ofList (Nat.toDigits 10 place.column)
  | .other text => text

/-- Why a generator cannot make its files. -/
inductive GenerateError where
  | jsonSchema (cause : JsonSchema.Error)
  /-- Another cause, in words. -/
  | other (text : String)
  deriving DecidableEq, Repr

def GenerateError.message : GenerateError → String
  | .jsonSchema cause => cause.message
  | .other text => text

/-- What a run is doing. -/
inductive Stage where
  | resolve | acquire | parse | write | generate | config
  deriving DecidableEq, Repr

def Stage.label : Stage → String
  | .resolve => "resolve"
  | .acquire => "acquire"
  | .parse => "parse"
  | .write => "write"
  | .generate => "generate"
  | .config => "config"

inductive Failure where
  | missingSource
  | unfetched (url : String) (cause : FetchError)
  | unreadable (path : String) (cause : Disk.Error)
  | invalidSchema (cause : SchemaError)
  | unwritable (path : String) (cause : Disk.Error)
  | ungenerated (generator : Generator) (cause : GenerateError)
  | store (cause : StoreError)
  deriving DecidableEq, Repr

namespace Failure

def message : Failure → String
  | .missingSource =>
    "No schema source given. Pass a URL or a path to a schema file as the first argument"
  | .unfetched url cause => "Failed to fetch schema from '" ++ url ++ "': " ++ cause.message
  | .unreadable path cause => "Failed to read schema file '" ++ path ++ "': " ++ cause.message
  | .invalidSchema cause => "Failed to parse schema: " ++ cause.message
  | .unwritable path cause => "Failed to write '" ++ path ++ "': " ++ cause.message
  | .ungenerated generator cause =>
    "Generator '" ++ generator.name ++ "' failed: " ++ cause.message
  | .store cause => "Config store error: " ++ cause.message

def stage : Failure → Stage
  | .missingSource => .resolve
  | .unfetched .. => .acquire
  | .unreadable .. => .acquire
  | .invalidSchema _ => .parse
  | .unwritable .. => .write
  | .ungenerated .. => .generate
  | .store _ => .config

/-- The run ends with the failure before anything is written. -/
def isFatal : Failure → Bool
  | .missingSource => true
  | .unfetched .. => true
  | .unreadable .. => true
  | .invalidSchema _ => true
  | .unwritable .. => false
  | .ungenerated .. => false
  | .store _ => false

end Failure
end GraphqlCodegen
