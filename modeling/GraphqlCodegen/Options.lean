/-!
# Options of a run

What a user can ask of one run, with the rules by which flags and values are read.
-/

namespace GraphqlCodegen

/-- Where the generated client runs. -/
inductive Environment where
  | browser | node
  deriving DecidableEq, Repr

def Environment.label : Environment → String
  | .browser => "browser"
  | .node => "node"

def Environment.ofFlag (node : Bool) : Environment := if node then .node else .browser

/-- How the generated modules import each other. -/
inductive ModuleStyle where
  | commonJs | esModule
  deriving DecidableEq, Repr

def ModuleStyle.ofFlag (esModule : Bool) : ModuleStyle := if esModule then .esModule else .commonJs

/-- How the generated client subscribes. -/
inductive Transport where
  | graphqlWs | legacy
  deriving DecidableEq, Repr

/-- Only `graphql-ws` names the client protocol. -/
def Transport.ofName (name : Option String) : Transport :=
  if name = some "graphql-ws" then .graphqlWs else .legacy

/-- How an endpoint is asked for its schema. -/
inductive Method where
  | get | post
  deriving DecidableEq, Repr

/-- Only `GET` in capitals names the get method. -/
def Method.ofName (name : Option String) : Method := if name = some "GET" then .get else .post

def Method.label : Method → String
  | .get => "GET"
  | .post => "POST"

structure Options where
  /-- The schema's URL or path, if it was given. -/
  source : Option String
  /-- The directory that the directory of the bindings is put into. -/
  outputDir : String
  /-- Headers for the endpoint as `Name: Value`. -/
  headers : List String
  method : Method
  environment : Environment
  moduleStyle : ModuleStyle
  constEnums : Bool
  transport : Transport
  /-- Where the schema text is copied to: a directory or a file. -/
  graphql : Option String
  /-- Where the JSON Schema goes: a directory or a file. -/
  jsonSchema : Option String
  typedDocumentNode : Bool
  /-- Remember a source that was given. -/
  saveOnInput : Bool
  deriving DecidableEq, Repr

/-- Imports between generated modules carry the suffix `.js`. -/
def Options.usesJsExtensions (o : Options) : Bool :=
  o.moduleStyle = .esModule || o.environment = .node

end GraphqlCodegen
