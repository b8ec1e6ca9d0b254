import GraphqlCodegen.Introspection.Sdl
import GraphqlCodegen.Proofs.Sdl.Constant
import GraphqlCodegen.Proofs.Sdl.Strings
import GraphqlCodegen.Schema.Merge

/-!
# What a described schema stands for

`FullType.node` gives the node of the schema tree that a described type stands for, without a schema
text in between: names, kinds, members and types as they are described, a default value as the
constant that its text is read as, a description as the value of the block string it is written as.
`Schema.WellFormed` collects what a described schema has to keep to in order to be written and read
back: it asks for nothing in types that are not written, or in lists that a type's kind does not use.
-/

namespace GraphqlCodegen.Introspection

open Sdl (constant? nestingLimit)
open Sdl.Lexer (Lexes isNameText nesting)

/-! ## Meaning -/

namespace TypeRef

/-- The type that a reference stands for. -/
def type : TypeRef → Schema.TypeRef
  | .mk .nonNull _ (some inner) => .nonNull inner.type
  | .mk .list _ (some inner) => .list inner.type
  | .mk _ name _ => .named (name.getD "")

end TypeRef

/-- What a description is read back as, if anything is written for it. -/
def readDescription (indent : String) : Option String → Option String
  | none | some "" => none
  | some d => some (Sdl.BlockString.writtenValue indent.toList d)

/-- A default value as the tree keeps it. -/
def readDefault (text : Option String) : Option String :=
  (text.bind constant?).map Sdl.Value.text

/-- An argument is written without its description. -/
def InputValue.argument (v : InputValue) : Schema.InputValue :=
  ⟨v.name, none, v.type.type, readDefault v.defaultValue⟩

def InputValue.inputField (v : InputValue) : Schema.InputValue :=
  ⟨v.name, readDescription "  " v.description, v.type.type, readDefault v.defaultValue⟩

def Field.field (f : Field) : Schema.Field :=
  ⟨f.name, readDescription "  " f.description, f.type.type, f.args.map InputValue.argument⟩

def EnumValue.value (v : EnumValue) : Schema.EnumValue :=
  ⟨v.name, readDescription "  " v.description⟩

/-- The names of plain references. -/
def namesOf (refs : Option (List TypeRef)) : List String :=
  (refs.getD []).map fun r => r.type.baseName

/-- What a described type declares. A wrapper is no type to declare; it counts as a scalar here. -/
def FullType.nodeKind (t : FullType) : Schema.NodeKind :=
  match t.kind with
  | .object => .object (namesOf t.interfaces) ((t.fields.getD []).map Field.field)
  | .interface => .interface ((t.fields.getD []).map Field.field)
  | .union => .union (namesOf t.possibleTypes)
  | .enum => .enum ((t.enumValues.getD []).map EnumValue.value)
  | .inputObject => .input ((t.inputFields.getD []).map InputValue.inputField)
  | .scalar | .list | .nonNull => .scalar

/-- The node that a described type stands for. -/
def FullType.node (t : FullType) : Schema.Node :=
  ⟨t.name, readDescription "" t.description, t.nodeKind⟩

/-! ## Well-formed descriptions -/

/-- A chain of wrappers around a named type: no non-null wrapper directly inside another one, and
lists no deeper than there is room for brackets. -/
inductive TypeRef.WellFormed : Nat → TypeRef → Prop
  | named {room : Nat} {kind : Kind} {name : String} {ofType : Option TypeRef} :
    kind ≠ .list → kind ≠ .nonNull → isNameText name = true → WellFormed room (.mk kind (some name) ofType)
  | list {room : Nat} {name : Option String} {inner : TypeRef} :
    WellFormed room inner → WellFormed (room + 1) (.mk .list name (some inner))
  | nonNull {room : Nat} {name : Option String} {inner : TypeRef} :
    inner.kind ≠ .nonNull → WellFormed room inner → WellFormed room (.mk .nonNull name (some inner))

/-- A reference without wrappers. -/
def TypeRef.IsPlain (r : TypeRef) : Prop := r.WellFormed 0 ∧ r.kind ≠ .nonNull

/-- The text is one constant value, without comments, whose brackets there is room for. -/
def IsConstant (room : Nat) (text : String) : Prop :=
  (∃ ts, Lexes text.toList ts ∧ nesting ts ≤ room) ∧ (constant? text).isSome = true

/-- All blank characters of a description are ASCII. -/
def AsciiBlanks (description : Option String) : Prop :=
  ∀ d ∈ description, ∀ c ∈ d.toList, Text.isBlank c = true → c.toNat < 128

structure InputValue.WellFormed (room : Nat) (v : InputValue) : Prop where
  name : isNameText v.name = true
  type : v.type.WellFormed room
  default : ∀ d ∈ v.defaultValue, IsConstant room d

/-- The fields of a type are written inside braces, their arguments inside parentheses as well. -/
structure Field.WellFormed (f : Field) : Prop where
  name : isNameText f.name = true
  description : AsciiBlanks f.description
  args : ∀ a ∈ f.args, a.WellFormed (nestingLimit - 2)
  type : f.type.WellFormed (nestingLimit - 1)

structure EnumValue.WellFormed (v : EnumValue) : Prop where
  name : isNameText v.name = true
  description : AsciiBlanks v.description

structure InputField.WellFormed (v : InputValue) : Prop where
  value : v.WellFormed (nestingLimit - 1)
  description : AsciiBlanks v.description

/-- The members that a type of this kind is written with are there and well formed. -/
def FullType.MembersWellFormed (t : FullType) : Prop :=
  match t.kind with
  | .scalar => True
  | .object | .interface =>
    (∀ i ∈ t.interfaces.getD [], i.IsPlain) ∧ t.fields.getD [] ≠ [] ∧ ∀ f ∈ t.fields.getD [], f.WellFormed
  | .union => t.possibleTypes.getD [] ≠ [] ∧ ∀ m ∈ t.possibleTypes.getD [], m.IsPlain
  | .enum => t.enumValues.getD [] ≠ [] ∧ ∀ v ∈ t.enumValues.getD [], v.WellFormed
  | .inputObject => t.inputFields.getD [] ≠ [] ∧ ∀ v ∈ t.inputFields.getD [], InputField.WellFormed v
  | .list | .nonNull => False

structure FullType.WellFormed (t : FullType) : Prop where
  name : isNameText t.name = true
  description : AsciiBlanks t.description
  members : t.MembersWellFormed

namespace Schema

/-- The types that are written. -/
def printed (s : Schema) : List FullType := s.types.filter FullType.isPrinted

/-- The operations start from types with names, something is written, and all that is written is
well formed. -/
structure WellFormed (s : Schema) : Prop where
  query : ∀ n ∈ s.queryType, isNameText n = true
  mutation : ∀ n ∈ s.mutationType, isNameText n = true
  subscription : ∀ n ∈ s.subscriptionType, isNameText n = true
  nonempty : s.printed ≠ []
  types : ∀ t ∈ s.printed, t.WellFormed

end Schema
end GraphqlCodegen.Introspection
