/-!
# Scripts

The parts of a TypeScript module: types, expressions, statements, imports, type definitions, and
declarations whose code is given as text.
-/

namespace GraphqlCodegen.Script

inductive Primitive where
  | string | number | boolean | null | undefined | unknown
  deriving DecidableEq, Repr

/-- A property of an object type. -/
structure Property (α : Type) where
  name : String
  optional : Bool
  type : α
  deriving DecidableEq, Repr

inductive Ty where
  | primitive (p : Primitive)
  | array (item : Ty)
  | union (members : List Ty)
  | object (properties : List (Property Ty))
  | tuple (items : List Ty)
  /-- The type of one string. -/
  | literal (value : String)
  /-- A type by its name, or any type in the words of the language. -/
  | ref (text : String)
  /-- The property of a type map that belongs to a name. -/
  | lookup (map name : String)
  /-- A generic type with its argument. -/
  | apply (generic : String) (argument : Ty)

namespace Ty

/-- The members of a union, or the type itself. -/
def members : Ty → List Ty
  | .union ms => ms
  | t => [t]

/-- The union of both, without unions inside unions. -/
def or (t u : Ty) : Ty := .union (t.members ++ u.members)

end Ty

inductive Expr where
  | string (value : String)
  | object (entries : List (String × Expr))
  | cast (expr : Expr) (type : Ty)

/-- A string whose type is the string itself. -/
def Expr.constString (value : String) : Expr := .cast (.string value) (.ref "const")

/-- What a declaration that is given as text declares. -/
inductive Keyword where
  | const | type | classDecl
  deriving DecidableEq, Repr

/-- A declaration given as text: what stands behind its name is kept as it is. -/
structure Declaration where
  comment : Option String
  exported : Bool
  keyword : Keyword
  name : String
  rest : String

/-- Declarations that belong together, close to each other or with a blank line between them. -/
structure Block where
  spaced : Bool
  declarations : List Declaration

inductive Stmt where
  | const (name : String) (type : Option Ty) (init : Expr) (exported : Bool)
  | block (block : Block)
  /-- Code of which nothing is known. -/
  | raw (code : String)

structure Import where
  default : Option String
  items : List String
  source : String

/-- An import of names. -/
def Import.named (items : List String) (source : String) : Import := ⟨none, items, source⟩

/-- An import of the default under a name. -/
def Import.ofDefault (name source : String) : Import := ⟨some name, [], source⟩

/-- A type definition with its body. -/
inductive TypeDef where
  | interface (name : String) (properties : List (Property Ty))
  | enum (name : String) (members : List (String × String)) (isConst : Bool)

def TypeDef.name : TypeDef → String
  | .interface n _ => n
  | .enum n _ _ => n

/-- A module: comment lines, imports, statements, type definitions, in this order. -/
structure Module where
  header : List String
  imports : List Import
  statements : List Stmt
  types : List TypeDef

/-- The names that an import binds. -/
def Import.names (i : Import) : List String := i.default.toList ++ i.items

/-- The names that a statement declares, so far as it is not raw code. -/
def Stmt.names : Stmt → List String
  | .const name _ _ _ => [name]
  | .block b => b.declarations.map Declaration.name
  | .raw _ => []

/-- The names that a module declares at its top level. -/
def Module.names (m : Module) : List String :=
  m.imports.flatMap Import.names ++ m.statements.flatMap Stmt.names ++ m.types.map TypeDef.name

end GraphqlCodegen.Script
