/-!
# References to types

What a field or an argument says about its type: a name inside any number of list and non-null
wrappers.
-/

namespace GraphqlCodegen.Schema

inductive TypeRef where
  | named (name : String)
  | list (item : TypeRef)
  | nonNull (inner : TypeRef)
  deriving DecidableEq, Repr

namespace TypeRef

/-- The name inside all wrappers. -/
def baseName : TypeRef → String
  | .named name => name
  | .list item => item.baseName
  | .nonNull inner => inner.baseName

/-- The outermost wrapper is non-null. -/
def isNonNull : TypeRef → Bool
  | .nonNull _ => true
  | _ => false

end TypeRef

/-- The scalars that every schema has without declaring them. -/
def builtinScalars : List String := ["String", "Int", "Float", "Boolean", "ID"]

end GraphqlCodegen.Schema
