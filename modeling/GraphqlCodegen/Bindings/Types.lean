import GraphqlCodegen.Bindings.Constants
/-!
# Type maps

The three interfaces that give every declared type its TypeScript types: what may be selected or
passed as an input (`ValueTypes`), the shape of an answer (`ModelTypes`), and the shape of an
answer with type names (`GraphQLTypes`).
-/

namespace GraphqlCodegen.Bindings

open GraphqlCodegen.Schema GraphqlCodegen.Script

/-- The type of a built-in scalar. -/
def builtinType : String → Option Ty
  | "String" | "ID" => some (.primitive .string)
  | "Int" | "Float" => some (.primitive .number)
  | "Boolean" => some (.primitive .boolean)
  | _ => none

/-- The type with further primitives allowed beside it. -/
def allowing (t : Ty) (extra : List Primitive) : Ty :=
  extra.foldl (fun t p => t.or (.primitive p)) t

/-- The name is that of an enum or a scalar, or is not declared: nothing is selected inside. -/
def isLeaf (t : Tree) (name : String) : Bool :=
  match t.get? name with
  | none => true
  | some n => match n.kind with
    | .scalar | .enum _ => true
    | _ => false

/-! ## Selections and inputs -/

/-- The name of the type map for selections and inputs. -/
def valueMap : String := "ValueTypes"

/-- What may stand for a field without fields of its own. -/
def scalarSelection : Ty := .ref "boolean | `@$\x7bstring\x7d`"

/-- A variable in place of an input. -/
def variableType : Ty := .ref "Variable<any, string>"

mutual

/-- The type of an input; one that is not non-null may be undefined or null. -/
def inputType (t : Tree) : TypeRef → Ty
  | .nonNull inner => strictInputType t inner
  | .list item => allowing (.array (inputType t item)) [.undefined, .null]
  | .named name => allowing (strictInputType t (.named name)) [.undefined, .null]

/-- The type of an input that is neither undefined nor null. -/
def strictInputType (t : Tree) : TypeRef → Ty
  | .nonNull inner => strictInputType t inner
  | .list item => .array (inputType t item)
  | .named name =>
    match builtinType name with
    | some b => b
    | none => match t.get? name with
      | some n => match n.kind with
        | .enum _ | .input _ => .lookup valueMap name
        | _ => .primitive .unknown
      | none => .primitive .unknown

end

/-- An input may be left out if it can be null or has a default. -/
def isOptionalInput (i : InputValue) : Bool := !i.type.isNonNull || i.default.isSome

def inputProperty (t : Tree) (i : InputValue) : Property Ty :=
  ⟨i.name, isOptionalInput i, (inputType t i.type).or variableType⟩

/-- What may be selected of a field without its arguments. -/
def bareSelection (t : Tree) (f : Field) : Ty :=
  if isLeaf t f.type.baseName then scalarSelection else .lookup valueMap f.type.baseName

/-- What may be selected of a field: with arguments, a pair of them and the selection; without all
of them, the selection alone if none of them is required. -/
def selectionProperty (t : Tree) (f : Field) : Property Ty :=
  let selection := bareSelection t f
  let pair : Ty := .tuple [.object (f.args.map (inputProperty t)), selection]
  ⟨f.name, true,
    if f.args.isEmpty then selection
    else if f.args.all isOptionalInput then pair.or selection
    else pair⟩

/-- What may be selected of one member of a union or interface. -/
def fragmentProperty (member : String) : Property Ty :=
  ⟨fragmentKey member, true, .lookup valueMap member⟩

/-- A selection with the name of the type beside it. -/
def aliased (properties : List (Property Ty)) : Ty := .apply "AliasType" (.object properties)

/-- What may be selected of a type, or passed for it. -/
def valueType (t : Tree) (n : Node) : Ty :=
  match n.kind with
  | .object _ fields => aliased (fields.map (selectionProperty t))
  | .interface fields =>
    aliased (fields.map (selectionProperty t)
      ++ (t.implementors n.name).map fun o => fragmentProperty o.name)
  | .union members => aliased (members.map fragmentProperty)
  | .input fields => .object (fields.map (inputProperty t))
  | .enum _ => .ref n.name
  | .scalar => .primitive .unknown

/-! ## Answers -/

/-- The two maps of answer types. -/
inductive AnswerMap where
  | model | graphql
  deriving DecidableEq, Repr

def AnswerMap.name : AnswerMap → String
  | .model => "ModelTypes"
  | .graphql => "GraphQLTypes"

mutual

/-- The type of an answer; one that is not non-null may be undefined. -/
def answerType (t : Tree) (map : AnswerMap) : TypeRef → Ty
  | .nonNull inner => strictAnswerType t map inner
  | .list item => allowing (.array (answerType t map item)) [.undefined]
  | .named name => allowing (strictAnswerType t map (.named name)) [.undefined]

/-- The type of an answer that is there. -/
def strictAnswerType (t : Tree) (map : AnswerMap) : TypeRef → Ty
  | .nonNull inner => strictAnswerType t map inner
  | .list item => .array (answerType t map item)
  | .named name =>
    match builtinType name with
    | some b => b
    | none => match t.get? name with
      | some n => match n.kind with
        | .enum _ => .ref name
        | _ => .lookup map.name name
      | none => .primitive .unknown

end

def answerProperty (t : Tree) (map : AnswerMap) (name : String) (type : TypeRef) : Property Ty :=
  ⟨name, !type.isNonNull, answerType t map type⟩

/-- One string or any of several. -/
def oneOf : List String → Ty
  | [name] => .literal name
  | names => .union (names.map Ty.literal)

/-- The property that tells which type an answer is of. -/
def typenameProperty (names : List String) : Property Ty := ⟨"__typename", false, oneOf names⟩

/-- The type name is among the answer's properties. -/
def AnswerMap.hasTypename : AnswerMap → Bool
  | .model => false
  | .graphql => true

/-- The shape of an answer of a type. -/
def answerShape (t : Tree) (map : AnswerMap) (n : Node) : Ty :=
  let properties (fields : List Field) : List (Property Ty) :=
    fields.map fun f => answerProperty t map f.name f.type
  match n.kind with
  | .object _ fields =>
    .object ((if map.hasTypename then [typenameProperty [n.name]] else []) ++ properties fields)
  | .interface fields =>
    let names := (t.implementors n.name).map Node.name
    match names, map with
    | [], _ => .object (properties fields)
    | names, .model => .union (names.map (Ty.lookup map.name))
    | names, .graphql => .object (typenameProperty names :: properties fields)
  | .union members => .union (members.map (Ty.lookup map.name))
  | .input fields => .object (fields.map fun f => answerProperty t map f.name f.type)
  | .enum _ => .ref n.name
  | .scalar =>
    match map with
    | .model => .primitive .unknown
    | .graphql => .ref ("ScalarTag<\"" ++ n.name ++ "\">")

end GraphqlCodegen.Bindings
