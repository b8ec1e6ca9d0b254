import GraphqlCodegen.Introspection.Schema
import GraphqlCodegen.Schema.TypeRef
import GraphqlCodegen.Sdl.BlockString
import GraphqlCodegen.Json.Writer
/-!
# Introspection results as schema text

The described types are written as type definitions, in their order. Types of the introspection
system itself and built-in scalars are left out. A schema block is written only if some operation
starts from a type that does not carry the operation's default name.
-/

namespace GraphqlCodegen.Introspection

/-- Why a result cannot be written as schema text. -/
inductive SdlError where
  /-- A wrapper does not say what it wraps. -/
  | noInner (kind : Kind)
  /-- A reference that is no wrapper does not say a name. -/
  | noName (kind : Kind)
  /-- A wrapper is listed as a type. -/
  | wrapperListed (kind : Kind) (name : String)
  deriving DecidableEq, Repr

def SdlError.message : SdlError → String
  | .noInner k => k.label ++ " type reference without ofType"
  | .noName k => k.label ++ " type reference without a name"
  | .wrapperListed k name => "wrapper kind " ++ k.label ++ " used as named type " ++ name

/-- Writes a part of a schema text, or tells why it cannot. -/
abbrev Printer := Except SdlError

/-- A type as it is written behind a colon. -/
def TypeRef.text : TypeRef → Printer String
  | .mk .nonNull _ (some inner) => do return (← inner.text) ++ "!"
  | .mk .nonNull _ none => .error (.noInner .nonNull)
  | .mk .list _ (some inner) => do return "[" ++ (← inner.text) ++ "]"
  | .mk .list _ none => .error (.noInner .list)
  | .mk _ (some name) _ => .ok name
  | .mk k none _ => .error (.noName k)

/-- A description as a block string on lines of its own; nothing for an empty one. -/
def descriptionText (description : Option String) (indent : String) : String :=
  match description with
  | none | some "" => ""
  | some d => String.ofList (Sdl.BlockString.written indent.toList d.toList)

/-- The reason that needs no words. -/
def defaultReason : String := "No longer supported"

/-- The directive behind a deprecated field or value. -/
def deprecationText (isDeprecated : Bool) (reason : Option String) : String :=
  if !isDeprecated then ""
  else match reason with
    | some r =>
      if r = defaultReason then " @deprecated"
      else " @deprecated(reason: " ++ Json.quoted r ++ ")"
    | none => " @deprecated"

/-- A name with its type and default. -/
def InputValue.text (v : InputValue) : Printer String := do
  let type ← v.type.text
  return v.name ++ ": " ++ type ++ match v.defaultValue with
    | some d => " = " ++ d
    | none => ""

/-- The arguments of a field between parentheses; nothing if there are none. -/
def argumentsText (args : List InputValue) : Printer String :=
  if args.isEmpty then .ok ""
  else do return "(" ++ Text.joined ", " (← args.mapM InputValue.text) ++ ")"

/-- A field on a line of its own, below its description. -/
def Field.text (f : Field) : Printer String := do
  let args ← argumentsText f.args
  let type ← f.type.text
  return descriptionText f.description "  " ++ "  " ++ f.name ++ args ++ ": " ++ type
    ++ deprecationText f.isDeprecated f.deprecationReason ++ "\n"

def EnumValue.text (v : EnumValue) : String :=
  descriptionText v.description "  " ++ "  " ++ v.name
    ++ deprecationText v.isDeprecated v.deprecationReason ++ "\n"

/-- An input field on a line of its own, below its description. -/
def inputFieldText (v : InputValue) : Printer String := do
  let text ← v.text
  return descriptionText v.description "  " ++ "  " ++ text ++ "\n"

def implementsText (interfaces : List TypeRef) : Printer String := do
  let names ← interfaces.mapM TypeRef.text
  return if names.isEmpty then "" else " implements " ++ Text.joined " & " names

/-- A keyword and a name with members between braces. -/
def bracedText (head : String) (members : List String) : String :=
  head ++ " \x7b\n" ++ Text.concat members ++ "\x7d\n"

/-- The definition of a type. -/
def FullType.text (t : FullType) : Printer String := do
  let body ← match t.kind with
    | .scalar => pure ("scalar " ++ t.name ++ "\n")
    | .object => do
      let interfaces ← implementsText (t.interfaces.getD [])
      pure (bracedText ("type " ++ t.name ++ interfaces) (← (t.fields.getD []).mapM Field.text))
    | .interface => do
      let interfaces ← implementsText (t.interfaces.getD [])
      pure (bracedText ("interface " ++ t.name ++ interfaces)
        (← (t.fields.getD []).mapM Field.text))
    | .union => do
      let members ← (t.possibleTypes.getD []).mapM TypeRef.text
      pure ("union " ++ t.name ++ " = " ++ Text.joined " | " members ++ "\n")
    | .enum => pure (bracedText ("enum " ++ t.name) ((t.enumValues.getD []).map EnumValue.text))
    | .inputObject => do
      pure (bracedText ("input " ++ t.name) (← (t.inputFields.getD []).mapM inputFieldText))
    | .list => .error (.wrapperListed .list t.name)
    | .nonNull => .error (.wrapperListed .nonNull t.name)
  return descriptionText t.description "" ++ body

/-- The type is written: it belongs to the schema and is no built-in scalar. -/
def FullType.isPrinted (t : FullType) : Bool :=
  !("__".toList.isPrefixOf t.name.toList
    || (t.kind = .scalar && GraphqlCodegen.Schema.builtinScalars.contains t.name))

namespace Schema

/-- The operations with their default names and the types they start from. -/
def roots (s : Schema) : List (String × String × Option String) :=
  [("query", "Query", s.queryType), ("mutation", "Mutation", s.mutationType),
    ("subscription", "Subscription", s.subscriptionType)]

/-- Some operation starts from a type that does not carry its default name. -/
def needsBlock (s : Schema) : Bool :=
  s.roots.any fun (_, default, root) => root.isSome && root != some default

def blockText (s : Schema) : String :=
  bracedText "schema" (s.roots.filterMap fun (operation, _, root) =>
    root.map fun name => "  " ++ operation ++ ": " ++ name ++ "\n")

/-- The schema as text: the schema block if it is needed, and the types, a blank line between each
two. -/
def toSdl (s : Schema) : Printer String := do
  let types ← (s.types.filter FullType.isPrinted).mapM FullType.text
  return Text.joined "\n" ((if s.needsBlock then [s.blockText] else []) ++ types)

end Schema
end GraphqlCodegen.Introspection
