/-!
# Introspection results

A schema as an endpoint describes it: all its types with their fields, arguments, values and
members, and the types that the operations start from.
-/

namespace GraphqlCodegen.Introspection

/-- What a described type is. The last two wrap another type. -/
inductive Kind where
  | scalar | object | interface | union | enum | inputObject | list | nonNull
  deriving DecidableEq, Repr

/-- The kind's name in prose. -/
def Kind.label : Kind → String
  | .scalar => "Scalar"
  | .object => "Object"
  | .interface => "Interface"
  | .union => "Union"
  | .enum => "Enum"
  | .inputObject => "InputObject"
  | .list => "List"
  | .nonNull => "NonNull"

/-- A reference to a type. A wrapper gives the type inside, any other kind a name; the result of an
endpoint need not keep to that. -/
inductive TypeRef where
  | mk (kind : Kind) (name : Option String) (ofType : Option TypeRef)
  deriving Repr

namespace TypeRef

def kind : TypeRef → Kind
  | .mk k _ _ => k

def name : TypeRef → Option String
  | .mk _ n _ => n

def ofType : TypeRef → Option TypeRef
  | .mk _ _ t => t

end TypeRef

/-- An argument of a field, or a field of an input object. -/
structure InputValue where
  name : String
  description : Option String
  type : TypeRef
  defaultValue : Option String
  deriving Repr

structure Field where
  name : String
  description : Option String
  args : List InputValue
  type : TypeRef
  isDeprecated : Bool
  deprecationReason : Option String
  deriving Repr

structure EnumValue where
  name : String
  description : Option String
  isDeprecated : Bool
  deprecationReason : Option String
  deriving Repr

/-- A described type. Which of its lists count depends on its kind. -/
structure FullType where
  kind : Kind
  name : String
  description : Option String
  fields : Option (List Field)
  inputFields : Option (List InputValue)
  interfaces : Option (List TypeRef)
  enumValues : Option (List EnumValue)
  possibleTypes : Option (List TypeRef)
  deriving Repr

structure Schema where
  queryType : Option String
  mutationType : Option String
  subscriptionType : Option String
  types : List FullType
  deriving Repr

end GraphqlCodegen.Introspection
