import GraphqlCodegen.Schema.Tree
import GraphqlCodegen.Script.Syntax
/-!
# The constant maps

The module that a client looks types up in while it writes queries: the types of arguments and
input fields, the types that fields return, and the types that the operations start from.
-/

namespace GraphqlCodegen.Bindings

open GraphqlCodegen.Schema GraphqlCodegen.Script

/-- The comment that the generated modules begin with. -/
def headerComment : String := "/* eslint-disable */"

/-- Each name with the base name of its type. -/
def baseNames (fields : List (String × TypeRef)) : Expr :=
  .object (fields.map fun f => (f.1, .string f.2.baseName))

def inputTypes (inputs : List InputValue) : Expr :=
  baseNames (inputs.map fun i => (i.name, i.type))

/-- The argument types of each field that has arguments. -/
def argumentTypes (fields : List Field) : List (String × Expr) :=
  (fields.filter (!·.args.isEmpty)).map fun f => (f.name, inputTypes f.args)

/-- What is known of a type where it is an input: enums are marked, input objects give the types of
their fields, and types with fields those of their arguments. -/
def propsEntry (n : Node) : Option (String × Expr) :=
  let ofArguments (fields : List Field) : Option (String × Expr) :=
    match argumentTypes fields with
    | [] => none
    | entries => some (n.name, .object entries)
  match n.kind with
  | .enum _ => some (n.name, Expr.constString "enum")
  | .object _ fields => ofArguments fields
  | .interface fields => ofArguments fields
  | .input fields => some (n.name, inputTypes fields)
  | .union _ => none
  | .scalar => none

/-- The key of a selection on one member of a union or interface. -/
def fragmentKey (member : String) : String := "...on " ++ member

def returnTypes (fields : List Field) : Expr := baseNames (fields.map fun f => (f.name, f.type))

/-- The types that the fields of a type return, and the members of a union. -/
def returnsEntry (n : Node) : Option (String × Expr) :=
  match n.kind with
  | .object _ fields => some (n.name, returnTypes fields)
  | .interface fields => some (n.name, returnTypes fields)
  | .union members =>
    some (n.name, .object (members.map fun m => (fragmentKey m, .string m)))
  | _ => none

def propsMap (t : Tree) : Expr := .object (t.nodes.filterMap propsEntry)

def returnsMap (t : Tree) : Expr := .object (t.nodes.filterMap returnsEntry)

def operationsMap (t : Tree) : Expr :=
  .object (t.roots.toList.map fun r => (r.1, Expr.constString r.2))

/-- The module of the constant maps. -/
def constantsModule (t : Tree) : Module where
  header := [headerComment]
  imports := []
  statements := [
    .const "AllTypesProps" (some (.ref "Record<string, any>")) (propsMap t) true,
    .const "ReturnTypes" (some (.ref "Record<string, any>")) (returnsMap t) true,
    .const "Ops" none (operationsMap t) true]
  types := []

end GraphqlCodegen.Bindings
