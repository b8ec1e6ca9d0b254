import GraphqlCodegen.Schema.TypeRef
/-!
# Schema trees

What the generators read: the declared types in the order of their definitions, and the types that
the operations start from.
-/

namespace GraphqlCodegen.Schema

/-- An argument of a field, or a field of an input object. The default is kept as text. -/
structure InputValue where
  name : String
  description : Option String
  type : TypeRef
  default : Option String
  deriving DecidableEq, Repr

structure Field where
  name : String
  description : Option String
  type : TypeRef
  args : List InputValue
  deriving DecidableEq, Repr

structure EnumValue where
  name : String
  description : Option String
  deriving DecidableEq, Repr

inductive NodeKind where
  | object (interfaces : List String) (fields : List Field)
  | interface (fields : List Field)
  | union (members : List String)
  | enum (values : List EnumValue)
  | input (fields : List InputValue)
  | scalar
  deriving DecidableEq, Repr

/-- A declared type. -/
structure Node where
  name : String
  description : Option String
  kind : NodeKind
  deriving DecidableEq, Repr

/-- The names of the types that the operations start from. -/
structure Roots where
  query : Option String
  mutation : Option String
  subscription : Option String
  deriving DecidableEq, Repr

/-- The operations that exist, each with its type. -/
def Roots.toList (r : Roots) : List (String × String) :=
  [("query", r.query), ("mutation", r.mutation), ("subscription", r.subscription)].filterMap
    fun p => p.2.map (p.1, ·)

structure Tree where
  nodes : List Node
  roots : Roots
  deriving DecidableEq, Repr

/-- Name and type of each field; unions, enums and scalars have none. -/
def Node.fieldTypes (n : Node) : List (String × TypeRef) :=
  match n.kind with
  | .object _ fields => fields.map fun f => (f.name, f.type)
  | .interface fields => fields.map fun f => (f.name, f.type)
  | .input fields => fields.map fun f => (f.name, f.type)
  | _ => []

/-- The node is an object type that lists the interface. -/
def Node.implements (n : Node) (interface : String) : Bool :=
  match n.kind with
  | .object interfaces _ => interfaces.contains interface
  | _ => false

namespace Tree

/-- The first declared type of a name. -/
def get? (t : Tree) (name : String) : Option Node :=
  t.nodes.find? (·.name == name)

/-- The name is declared, or is that of a built-in scalar. -/
def isKnown (t : Tree) (name : String) : Bool :=
  builtinScalars.contains name || (t.get? name).isSome

/-- The object types that implement an interface. -/
def implementors (t : Tree) (interface : String) : List Node :=
  t.nodes.filter (·.implements interface)

end Tree
end GraphqlCodegen.Schema
