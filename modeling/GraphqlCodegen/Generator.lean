import GraphqlCodegen.Bindings.Constants
import GraphqlCodegen.Bindings.TypedDocument
import GraphqlCodegen.Destination
import GraphqlCodegen.Json.Writer
import GraphqlCodegen.JsonSchema
import GraphqlCodegen.Script.Emit
import GraphqlCodegen.Source
/-!
# Generators

The four kinds of output, when each of them is asked for, and the files that make it up. A
generator reads the schema and the options and writes nothing itself.
-/

namespace GraphqlCodegen

inductive Generator where
  /-- A copy of the schema text. -/
  | schemaCopy
  | jsonSchema
  /-- The typed client. -/
  | bindings
  | typedDocument
  deriving DecidableEq, Repr

/-- A file to be written. -/
structure Artifact where
  destination : Destination
  content : String
  deriving DecidableEq, Repr

def Artifact.path (a : Artifact) : String := a.destination.path

/-- What every generator reads: the schema as text and as a tree, and where it came from. -/
structure SchemaInput where
  text : String
  tree : Schema.Tree
  source : Source

namespace Generator

def name : Generator → String
  | .schemaCopy => "schema-mirror"
  | .jsonSchema => "json-schema"
  | .bindings => "typescript"
  | .typedDocument => "typed-document-node"

/-- All generators, in the order of their reports. -/
def all : List Generator := [.schemaCopy, .jsonSchema, .bindings, .typedDocument]

def ofName? (name : String) : Option Generator := all.find? (·.name == name)

/-- The options ask for the generator. -/
def isRequested (o : Options) : Generator → Bool
  | .schemaCopy => o.graphql.isSome
  | .jsonSchema => o.jsonSchema.isSome
  | .bindings => true
  | .typedDocument => o.typedDocumentNode

/-- The extensions of the file that a generator puts where the user says, and its name where the
user names a directory. -/
def schemaCopyExtensions : List String := [".graphql", ".gql"]

def schemaCopyName : String := "schema.graphql"

def jsonSchemaExtensions : List String := [".json"]

def jsonSchemaName : String := "schema.json"

/-- The directory of the client below the output directory. -/
def bindingsDirectory (o : Options) : String := Disk.Path.join o.outputDir "zeus"

/-- Where a generator that is asked for puts its files. -/
def destinations (o : Options) : Generator → List Destination
  | .schemaCopy =>
    o.graphql.toList.map (Destination.resolve · schemaCopyExtensions schemaCopyName)
  | .jsonSchema =>
    o.jsonSchema.toList.map (Destination.resolve · jsonSchemaExtensions jsonSchemaName)
  | .bindings => ["const.ts", "index.ts"].map fun filename => ⟨bindingsDirectory o, filename⟩
  | .typedDocument => [⟨bindingsDirectory o, "typedDocumentNode.ts"⟩]

/-- What a generator puts there, file by file. Only the JSON Schema can fail to be made. -/
def contents (input : SchemaInput) (o : Options) :
    Generator → Except JsonSchema.Error (List String)
  | .schemaCopy => .ok [input.text]
  | .jsonSchema => do return [Json.pretty (← JsonSchema.document input.tree)]
  | .bindings =>
    .ok [
      (Bindings.constantsModule input.tree).text,
      (Bindings.indexModule input.tree o input.source.url?).text]
  | .typedDocument => .ok [(Bindings.typedDocumentModule o).text]

/-- The files of a generator; one that is told no place for them makes none. -/
def artifacts (input : SchemaInput) (o : Options) (g : Generator) :
    Except JsonSchema.Error (List Artifact) :=
  match g.destinations o with
  | [] => .ok []
  | destinations => (g.contents input o).map (destinations.zipWith Artifact.mk ·)

end Generator
end GraphqlCodegen
