import GraphqlCodegen.Disk.Basic
import GraphqlCodegen.Entries
import GraphqlCodegen.Toml.Document
/-!
# Settings

Values that are remembered from one run to the next, in memory or in a file. A file is read once; a
value that is set is known from then on, also if the file cannot be written.
-/

namespace GraphqlCodegen

/-- Why a value cannot be saved. -/
inductive StoreError where
  | directory (path : String) (cause : Disk.Error)
  | file (path : String) (cause : Disk.Error)
  /-- Another cause, in words. -/
  | other (text : String)
  deriving DecidableEq, Repr

def StoreError.message : StoreError → String
  | .directory path cause =>
    "Failed to create config directory " ++ path ++ ": " ++ cause.message
  | .file path cause => "Failed to write config file " ++ path ++ ": " ++ cause.message
  | .other text => text

/-- The file that is used if no other is named. -/
def defaultSettingsPath : String := ".zeus.toml"

/-- The key of the source. -/
def sourceKey : String := "urlOrPath"

inductive Settings where
  | memory (values : Entries String)
  | file (path : String) (document : Toml.Document)

namespace Settings

/-- The settings in a file. A file that is missing or cannot be read holds none. -/
def load (d : Disk) (path : String) : Settings :=
  .file path <|
    match d.readText path with
    | .ok text => (Toml.Document.read? text).getD .empty
    | .error _ => .empty

/-- The value under a key. -/
def get? (s : Settings) (key : String) : Option String :=
  match s with
  | .memory values => Entries.get? key values
  | .file _ document => document.get? key

/-- The value under a key, unless it is empty. -/
def remembered? (s : Settings) (key : String) : Option String :=
  (s.get? key).filter (· != "")

/-- Creates the directory that a file of settings is in. -/
def prepare (d : Disk) (path : String) : Disk × Option StoreError :=
  match Disk.Path.parent path with
  | none | some "" => (d, none)
  | some directory =>
    let (d, failure) := d.makeDirectories directory
    (d, failure.map (.directory directory))

/-- Writes a file of settings, with the directories that it lacks. -/
def save (d : Disk) (path : String) (document : Toml.Document) : Disk × Option StoreError :=
  match prepare d path with
  | (d, some e) => (d, some e)
  | (d, none) =>
    match d.write path document.text with
    | .ok d => (d, none)
    | .error e => (d, some (.file path e))

/-- The settings with a value set, and the disk with the file written. -/
def set (s : Settings) (d : Disk) (key value : String) : Settings × Disk × Option StoreError :=
  match s with
  | .memory values => (.memory (Entries.put key value values), d, none)
  | .file path document =>
    let document := document.set key value
    let (d, failure) := save d path document
    (.file path document, d, failure)

end Settings
end GraphqlCodegen
