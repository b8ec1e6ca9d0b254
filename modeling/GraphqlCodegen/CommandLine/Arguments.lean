import GraphqlCodegen.Options
import GraphqlCodegen.Settings
/-!
# Arguments

How the arguments of a command are read. A switch stands alone, a parameter takes a value, and what
is neither is the source or the output directory. A value that stands behind its parameter is kept
back until the next argument has been looked at, so that an argument nobody knows is reported before
a fault in the value in front of it.
-/

namespace GraphqlCodegen.CommandLine

/-- A flag without a value. -/
inductive Switch where
  | node | esModule | constEnums | typedDocumentNode | noSave | help | version
  deriving DecidableEq, Repr

/-- What takes a value: behind a flag, or by its place alone. -/
inductive Parameter where
  | source | outputDir
  | header | graphql | jsonSchema | subscriptions | method | config
  deriving DecidableEq, Repr

inductive Flag where
  | switch (s : Switch)
  | parameter (p : Parameter)
  deriving DecidableEq, Repr

def Switch.long : Switch → String
  | .node => "node"
  | .esModule => "esModule"
  | .constEnums => "constEnums"
  | .typedDocumentNode => "typedDocumentNode"
  | .noSave => "noSave"
  | .help => "help"
  | .version => "version"

/-- How a parameter is shown to the user. -/
def Parameter.label : Parameter → String
  | .source => "[URL_OR_PATH]"
  | .outputDir => "[OUTPUT_DIR]"
  | .header => "--header <NAME: VALUE>"
  | .graphql => "--graphql <PATH>"
  | .jsonSchema => "--jsonSchema <PATH>"
  | .subscriptions => "--subscriptions <graphql-ws|legacy>"
  | .method => "--method <GET|POST>"
  | .config => "--config <PATH>"

def Flag.label : Flag → String
  | .switch s => "--" ++ s.long
  | .parameter p => p.label

/-- The flags by their long names. -/
def longFlags : List (String × Flag) :=
  ([Switch.node, .esModule, .constEnums, .typedDocumentNode, .noSave, .help, .version].map
    fun s => (s.long, .switch s)) ++ [
  ("header", .parameter .header), ("graphql", .parameter .graphql),
  ("jsonSchema", .parameter .jsonSchema), ("subscriptions", .parameter .subscriptions),
  ("method", .parameter .method), ("config", .parameter .config)]

/-- The flags by their letters. -/
def shortFlags : List (Char × Flag) := [
  ('n', .switch .node), ('e', .switch .esModule), ('h', .switch .help), ('V', .switch .version),
  ('H', .parameter .header), ('g', .parameter .graphql)]

/-- The value is a path, which cannot be empty. -/
def Parameter.isPath : Parameter → Bool
  | .outputDir => true
  | .graphql => true
  | .jsonSchema => true
  | .config => true
  | _ => false

/-- Why arguments are not carried out. -/
inductive ArgumentError where
  | help
  | version
  | unexpected (argument : String)
  | missingValue (parameter : Parameter)
  | repeated (flag : Flag)
  | unneededValue (switch : Switch) (value : String)
  deriving DecidableEq, Repr

/-- What the arguments say. -/
structure Arguments where
  switches : List Switch
  /-- The values in the order in which they were given. -/
  values : List (Parameter × String)
  deriving DecidableEq, Repr

namespace Arguments

def has (a : Arguments) (s : Switch) : Bool := a.switches.contains s

/-- The values of a parameter. -/
def all (a : Arguments) (p : Parameter) : List String :=
  (a.values.filter (·.1 == p)).map (·.2)

/-- The value of a parameter that is given at most once. -/
def get? (a : Arguments) (p : Parameter) : Option String := (a.all p).head?

/-- The options of the run. -/
def options (a : Arguments) : Options where
  source := a.get? .source
  outputDir := (a.get? .outputDir).getD "."
  headers := a.all .header
  method := Method.ofName (a.get? .method)
  environment := Environment.ofFlag (a.has .node)
  moduleStyle := ModuleStyle.ofFlag (a.has .esModule)
  constEnums := a.has .constEnums
  transport := Transport.ofName (a.get? .subscriptions)
  graphql := a.get? .graphql
  jsonSchema := a.get? .jsonSchema
  typedDocumentNode := a.has .typedDocumentNode
  saveOnInput := !a.has .noSave

/-- The file of the settings. -/
def settingsPath (a : Arguments) : String := (a.get? .config).getD defaultSettingsPath

end Arguments

/-! ## Reading -/

/-- What has been read so far. -/
structure Reading where
  arguments : Arguments
  /-- The last parameter, with the value kept back for it if there is one. -/
  pending : Option (Parameter × Option String)
  /-- How many arguments were taken by their place. -/
  places : Nat
  deriving DecidableEq, Repr

abbrev Result := Except ArgumentError

namespace Reading

def start : Reading := ⟨⟨[], []⟩, none, 0⟩

/-- Gives a parameter its value. Only headers can be given several times. -/
def accept (r : Reading) (p : Parameter) (value : String) : Result Reading :=
  if p != .header && r.arguments.values.any (·.1 == p) then .error (.repeated (.parameter p))
  else if p.isPath && value.isEmpty then .error (.missingValue p)
  else .ok { r with
    arguments := { r.arguments with values := r.arguments.values ++ [(p, value)] } }

/-- Gives the value that was kept back to its parameter. -/
def settle (r : Reading) : Result Reading :=
  match r.pending with
  | none => .ok r
  | some (p, none) => .error (.missingValue p)
  | some (p, some value) => { r with pending := none }.accept p value

/-- A switch is turned on. -/
def turnOn (r : Reading) (s : Switch) : Result Reading := do
  let r ← r.settle
  match s with
  | .help => throw .help
  | .version => throw .version
  | s =>
    if r.arguments.has s then throw (.repeated (.switch s))
    else return { r with arguments := { r.arguments with switches := s :: r.arguments.switches } }

/-- A parameter is named, with a value attached to it or none. -/
def name (r : Reading) (p : Parameter) (attached : Option String) : Result Reading := do
  let r ← r.settle
  match attached with
  | some value => r.accept p value
  | none => return { r with pending := some (p, none) }

/-- The parameter of the next place. -/
def nextPlace (r : Reading) : Option Parameter :=
  match r.places with
  | 0 => some .source
  | 1 => some .outputDir
  | _ => none

/-- An argument is taken by its place. -/
def place (r : Reading) (argument : String) : Result Reading :=
  match r.nextPlace with
  | none => .error (.unexpected argument)
  | some p => do
    let r ← r.settle
    return { r with pending := some (p, some argument), places := r.places + 1 }

/-- A flag by its long name; a value may be attached with an equals sign. -/
def long (r : Reading) (cs : List Char) : Result Reading :=
  let name := String.ofList (cs.takeWhile (· != '='))
  let attached := match cs.dropWhile (· != '=') with
    | [] => none
    | _ :: value => some (String.ofList value)
  match longFlags.find? (·.1 == name) with
  | none => .error (.unexpected ("--" ++ name))
  | some (_, .parameter p) => r.name p attached
  | some (_, .switch s) =>
    match attached with
    | some value => .error (.unneededValue s value)
    | none => r.turnOn s

/-- The value attached to a letter; an equals sign in front is no part of it. -/
def attachedValue : List Char → Option String
  | [] => none
  | '=' :: cs => some (String.ofList cs)
  | cs => some (String.ofList cs)

/-- Flags by their letters. All that stands behind the letter of a parameter is its value. -/
def short (r : Reading) : List Char → Result Reading
  | [] => .ok r
  | c :: cs =>
    match shortFlags.find? (·.1 == c) with
    | none => .error (.unexpected (String.ofList ['-', c]))
    | some (_, .parameter p) => r.name p (attachedValue cs)
    | some (_, .switch s) =>
      match r.turnOn s with
      | .ok r => short r cs
      | .error e => .error e

/-- An argument that is no flag: the value that is waited for, or one taken by its place. -/
def plain (r : Reading) (argument : String) : Result Reading :=
  match r.pending with
  | some (p, none) => .ok { r with pending := some (p, some argument) }
  | _ => r.place argument

/-- One argument, as long as there may be flags. -/
def argument (r : Reading) (text : String) : Result Reading :=
  match text.toList with
  | '-' :: '-' :: cs => r.long cs
  | '-' :: c :: cs => r.short (c :: cs)
  | _ => r.plain text

/-- All arguments. Behind two hyphens there are no more flags. -/
def read (r : Reading) (flags : Bool) : List String → Result Reading
  | [] => r.settle
  | a :: as =>
    if !flags then
      match r.place a with
      | .ok r => read r false as
      | .error e => .error e
    else if a = "--" then read r false as
    else match r.argument a with
      | .ok r => read r true as
      | .error e => .error e

end Reading

/-- Reads the arguments of a command. -/
def Arguments.parse (texts : List String) : Result Arguments :=
  (Reading.start.read true texts).map (·.arguments)

end GraphqlCodegen.CommandLine
