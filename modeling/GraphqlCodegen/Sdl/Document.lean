import GraphqlCodegen.Schema.TypeRef
import GraphqlCodegen.Sdl.Value
/-!
# Schema documents

A document is a list of definitions as they stand in the text: type definitions, extensions of
types, schema blocks and directive definitions.
-/

namespace GraphqlCodegen.Sdl

open GraphqlCodegen.Schema (TypeRef)

/-- A directive in use. -/
structure Directive where
  name : String
  arguments : List (String × Value)

/-- An argument of a field, or a field of an input object. -/
structure InputValue where
  description : Option String
  name : String
  type : TypeRef
  default : Option Value
  directives : List Directive

structure Field where
  description : Option String
  name : String
  arguments : List InputValue
  type : TypeRef
  directives : List Directive

structure EnumValue where
  description : Option String
  name : String
  directives : List Directive

/-- What is defined under a type's name, or added to it by an extension. -/
inductive TypeBody where
  | scalar
  | object (interfaces : List String) (fields : List Field)
  | interface (interfaces : List String) (fields : List Field)
  | union (members : List String)
  | enum (values : List EnumValue)
  | input (fields : List InputValue)

structure TypeDefinition where
  description : Option String
  name : String
  directives : List Directive
  body : TypeBody

structure TypeExtension where
  name : String
  directives : List Directive
  body : TypeBody

/-- The types that the operations start from. -/
structure SchemaBlock where
  directives : List Directive
  query : Option String
  mutation : Option String
  subscription : Option String

structure DirectiveDefinition where
  description : Option String
  name : String
  arguments : List InputValue
  repeatable : Bool
  locations : List String

inductive Definition where
  | schema (block : SchemaBlock)
  | type (definition : TypeDefinition)
  | extension (ext : TypeExtension)
  | directive (definition : DirectiveDefinition)

/-- The definitions of a text, in their order. -/
abbrev Document := List Definition

end GraphqlCodegen.Sdl
