import GraphqlCodegen.Schema.Tree
import GraphqlCodegen.Sdl.Document
/-!
# From documents to trees

Each type definition of a document becomes a node. The members that an extension adds go to the
first node of its name, if that is of the extension's kind; other extensions change nothing. The
operations start from the types that the last schema block names, or without one from the types
that carry the default names.
-/

namespace GraphqlCodegen.Schema

open GraphqlCodegen

def InputValue.ofSdl (v : Sdl.InputValue) : InputValue :=
  ⟨v.name, v.description, v.type, v.default.map Sdl.Value.text⟩

def Field.ofSdl (f : Sdl.Field) : Field :=
  ⟨f.name, f.description, f.type, f.arguments.map InputValue.ofSdl⟩

def EnumValue.ofSdl (v : Sdl.EnumValue) : EnumValue :=
  ⟨v.name, v.description⟩

def NodeKind.ofBody : Sdl.TypeBody → NodeKind
  | .scalar => .scalar
  | .object interfaces fields => .object interfaces (fields.map Field.ofSdl)
  | .interface _ fields => .interface (fields.map Field.ofSdl)
  | .union members => .union members
  | .enum values => .enum (values.map EnumValue.ofSdl)
  | .input fields => .input (fields.map InputValue.ofSdl)

def Node.ofDefinition (d : Sdl.TypeDefinition) : Node :=
  ⟨d.name, d.description, NodeKind.ofBody d.body⟩

/-- The members of both, if they are of one kind. -/
def NodeKind.extend : NodeKind → NodeKind → NodeKind
  | .object is fs, .object is' fs' => .object (is ++ is') (fs ++ fs')
  | .interface fs, .interface fs' => .interface (fs ++ fs')
  | .union ms, .union ms' => .union (ms ++ ms')
  | .enum vs, .enum vs' => .enum (vs ++ vs')
  | .input fs, .input fs' => .input (fs ++ fs')
  | k, _ => k

/-- Adds the members of an extension to the first node of its name. -/
def applyExtension : List Node → Sdl.TypeExtension → List Node
  | [], _ => []
  | n :: ns, ext =>
    if n.name = ext.name then { n with kind := n.kind.extend (NodeKind.ofBody ext.body) } :: ns
    else n :: applyExtension ns ext

namespace Tree

def definitionsOf (d : Sdl.Document) : List Sdl.TypeDefinition :=
  d.filterMap fun | .type t => some t | _ => none

def extensionsOf (d : Sdl.Document) : List Sdl.TypeExtension :=
  d.filterMap fun | .extension e => some e | _ => none

def schemaBlocksOf (d : Sdl.Document) : List Sdl.SchemaBlock :=
  d.filterMap fun | .schema b => some b | _ => none

/-- The default roots: each default name that a node carries. -/
def defaultRoots (nodes : List Node) : Roots :=
  let root (name : String) : Option String :=
    if nodes.any (·.name == name) then some name else none
  ⟨root "Query", root "Mutation", root "Subscription"⟩

/-- The tree of a document. -/
def ofDocument (d : Sdl.Document) : Tree :=
  let nodes := (extensionsOf d).foldl applyExtension ((definitionsOf d).map Node.ofDefinition)
  let roots := match (schemaBlocksOf d).getLast? with
    | some b => ⟨b.query, b.mutation, b.subscription⟩
    | none => defaultRoots nodes
  ⟨nodes, roots⟩

end Tree
end GraphqlCodegen.Schema
