import GraphqlCodegen.Json.Value
import GraphqlCodegen.Schema.Tree
/-!
# JSON Schema

The schema as a document of JSON Schema, draft 7: one definition for each declared type and one
property for each operation. Conversion fails where a type is mentioned that nothing declares.
-/

namespace GraphqlCodegen.JsonSchema

open GraphqlCodegen.Schema

/-- A name that no type has. -/
inductive Error where
  | undefinedMember (union member : String)
  | undefinedType (name : String)
  deriving DecidableEq, Repr

def Error.message : Error → String
  | .undefinedMember union member =>
    "Union '" ++ union ++ "' refers to undefined type '" ++ member ++ "'"
  | .undefinedType name => "Reference to undefined type '" ++ name ++ "'"

abbrev Result := Except Error Json.Value

/-- The identifier of the draft. -/
def draft : String := "http://json-schema.org/draft-07/schema#"

/-- What a reference to a definition begins with. -/
def definitionsPath : String := "#/definitions/"

/-- The entries of a schema, in any order. -/
abbrev Members := Entries Json.Value

/-- A schema that refers to the definition of a type. -/
def reference (name : String) : Members := [("$ref", .string (definitionsPath ++ name))]

/-- A schema for values of one JSON type. -/
def ofJsonType (name : String) : Members := [("type", .string name)]

/-- A schema with a description, if there is one. -/
def describe (description : Option String) (schema : Members) : Members :=
  match description with
  | some text => Entries.put "description" (.string text) schema
  | none => schema

/-- The JSON type of a scalar that need not be declared. -/
def scalarType : String → Option String
  | "String" | "ID" => some "string"
  | "Int" => some "integer"
  | "Float" => some "number"
  | "Boolean" => some "boolean"
  | _ => none

/-- The schema for a type; null counts as a value of every type. -/
def typeSchema (t : Tree) : TypeRef → Except Error Members
  | .nonNull inner => typeSchema t inner
  | .list item => do
    let items ← typeSchema t item
    return Entries.ofList [("type", .string "array"), ("items", .object items)]
  | .named name =>
    match scalarType name, t.get? name with
    | some type, _ => .ok (ofJsonType type)
    | none, some _ => .ok (reference name)
    | none, none => .error (.undefinedType name)

/-- An object with named parts: those whose type is non-null are required. -/
def objectSchema (properties : List (String × TypeRef × Members)) : Members :=
  Entries.ofList [
    ("type", .string "object"),
    ("properties", Json.Value.ofPairs (properties.map fun p => (p.1, .object p.2.2))),
    ("required", .array ((properties.filter (·.2.1.isNonNull)).map fun p => .string p.1))]

/-- An argument or input field, with its default as text. -/
def inputSchema (t : Tree) (i : InputValue) : Except Error Members := do
  let schema ← typeSchema t i.type
  let schema := match i.default with
    | some text => Entries.put "default" (.string text) schema
    | none => schema
  return describe i.description schema

def inputsSchema (t : Tree) (inputs : List InputValue) : Except Error Members := do
  return objectSchema (← inputs.mapM fun i => return (i.name, i.type, ← inputSchema t i))

/-- A field: what it returns, beside its arguments if it has any. -/
def fieldSchema (t : Tree) (f : Field) : Except Error Members := do
  let returns ← typeSchema t f.type
  let schema ← if f.args.isEmpty then pure returns else do
    let arguments ← inputsSchema t f.args
    pure (Entries.ofList [
      ("type", .string "object"),
      ("properties",
        Json.Value.ofPairs [("return", .object returns), ("arguments", .object arguments)])])
  return describe f.description schema

def fieldsSchema (t : Tree) (fields : List Field) : Except Error Members := do
  return objectSchema (← fields.mapM fun f => return (f.name, f.type, ← fieldSchema t f))

/-- A member of a union, which has to be known. -/
def memberSchema (t : Tree) (union member : String) : Result :=
  if t.isKnown member then .ok (.object (reference member))
  else .error (.undefinedMember union member)

/-- The definition of a declared type. -/
def definition (t : Tree) (n : Node) : Result := do
  let schema ← match n.kind with
    | .object _ fields => fieldsSchema t fields
    | .interface fields => fieldsSchema t fields
    | .input fields => inputsSchema t fields
    | .union members => do
      let variants ← members.mapM (memberSchema t n.name)
      pure [("anyOf", .array variants)]
    | .enum values => pure (Entries.ofList [
        ("type", .string "string"),
        ("enum", .array (values.map fun v => .string v.name))])
    | .scalar => pure [("title", .string n.name)]
  return .object (describe n.description schema)

/-- The document for a schema. -/
def document (t : Tree) : Result := do
  let definitions ← t.nodes.mapM fun n => return (n.name, ← definition t n)
  return Json.Value.ofPairs [
    ("$schema", .string draft),
    ("type", .string "object"),
    ("properties",
      Json.Value.ofPairs (t.roots.toList.map fun r => (r.1, .object (reference r.2)))),
    ("definitions", Json.Value.ofPairs definitions)]

end GraphqlCodegen.JsonSchema
