import GraphqlCodegen.Introspection.Schema
import GraphqlCodegen.Json.Number
import GraphqlCodegen.Text.Shown
import GraphqlCodegen.Text.Lines
/-!
# Introspection results from JSON

Each part of a result is a record: an object with a member per field, or an array that holds the
fields in their order. Unknown members of an object are passed over. The members of an object are
looked at in key order and the first that is wrong is reported; a required one that is missing is
reported after that.
-/

namespace GraphqlCodegen.Introspection

/-- What was found where something else was expected. -/
inductive Found where
  | null
  | boolean (b : Bool)
  | integer (i : Int)
  | float (x : Number.Binary64)
  | string (s : String)
  | sequence
  | map
  deriving DecidableEq, Repr

inductive DecodeError where
  | missing (field : String)
  | wrongType (found : Found) (expected : String)
  | unknownKind (name : String)
  /-- A kind that is an object has one key. -/
  | notOneKey
  /-- An array ends before the field with this index. -/
  | tooShort (index : Nat) (record : String) (size : Nat)
  /-- An array with this many elements has more than the record has fields. -/
  | tooLong (length : Nat)
  deriving DecidableEq, Repr

/-- The kinds by the names that a result gives them. -/
def kindNames : List (String × Kind) :=
  [("SCALAR", .scalar), ("OBJECT", .object), ("INTERFACE", .interface), ("UNION", .union),
    ("ENUM", .enum), ("INPUT_OBJECT", .inputObject), ("LIST", .list), ("NON_NULL", .nonNull)]

/-- A number with every place written and at least one place behind the point. -/
def pointedText (x : Number.Binary64) : String :=
  let text := x.plain
  if text.toList.contains '.' then text else text ++ ".0"

def Found.message : Found → String
  | .null => "null"
  | .boolean b => "boolean `" ++ (if b then "true" else "false") ++ "`"
  | .integer i => "integer `" ++ String.ofList (Number.Decimal.intText i) ++ "`"
  | .float x => "floating point `" ++ pointedText x ++ "`"
  | .string s => "string " ++ Text.shown s
  | .sequence => "sequence"
  | .map => "map"

def numberText (n : Nat) : String := String.ofList (Nat.toDigits 10 n)

def DecodeError.message : DecodeError → String
  | .missing field => "missing field `" ++ field ++ "`"
  | .wrongType found expected => "invalid type: " ++ found.message ++ ", expected " ++ expected
  | .unknownKind name =>
    "unknown variant `" ++ name ++ "`, expected one of "
      ++ Text.joined ", " (kindNames.map fun p => "`" ++ p.1 ++ "`")
  | .notOneKey => "invalid value: map, expected map with a single key"
  | .tooShort index record size =>
    "invalid length " ++ numberText index ++ ", expected struct " ++ record ++ " with "
      ++ numberText size ++ (if size = 1 then " element" else " elements")
  | .tooLong length =>
    "invalid length " ++ numberText length ++ ", expected fewer elements in array"

namespace Decode

open Json (Value)

abbrev Result (α : Type) := Except DecodeError α

def found : Value → Found
  | .null => .null
  | .bool b => .boolean b
  | .int i => .integer i
  | .float x => .float x
  | .string s => .string s
  | .array _ => .sequence
  | .object _ => .map

def wrong {α : Type} (v : Value) (expected : String) : Result α :=
  .error (.wrongType (found v) expected)

def string : Value → Result String
  | .string s => .ok s
  | v => wrong v "a string"

def boolean : Value → Result Bool
  | .bool b => .ok b
  | v => wrong v "a boolean"

def nullable {α : Type} (decode : Value → Result α) : Value → Result (Option α)
  | .null => .ok none
  | v => (decode v).map some

def sequence {α : Type} (decode : Value → Result α) : Value → Result (List α)
  | .array items => items.mapM decode
  | v => wrong v "a sequence"

/-- A kind by its name. -/
def kindNamed (name : String) : Result Kind :=
  match kindNames.find? (·.1 == name) with
  | some p => .ok p.2
  | none => .error (.unknownKind name)

/-- A kind is its name, or an object with the name as its only key and null under it. -/
def kind : Value → Result Kind
  | .string s => kindNamed s
  | .object [(name, v)] => do
    let k ← kindNamed name
    match v with
    | .null => return k
    | v => wrong v "unit"
  | .object _ => .error .notOneKey
  | v => wrong v "string or map"

/-! ## Records -/

/-- What happens if a field is not there. -/
inductive Presence where
  /-- An object has to have it, and so has an array. -/
  | required
  /-- Only an array has to have it. -/
  | optional
  /-- Neither has to have it. -/
  | defaulted
  deriving DecidableEq, Repr

/-- The written parts of a record. -/
inductive Row where
  | members (entries : List (String × Value))
  | elements (items : List Value)

/-- A field of a record, decoded if it is there. -/
structure Slot (α : Type) where
  key : String
  presence : Presence
  result : Option (Result α)

/-- How decoding a field went, without its value. -/
structure Outcome where
  key : String
  presence : Presence
  fault : Option (Option DecodeError)

def Row.of (record : String) : Value → Result Row
  | .object entries => .ok (.members entries)
  | .array items => .ok (.elements items)
  | v => wrong v ("struct " ++ record)

/-- The field with a key and an index. -/
def Row.slot {α : Type} (r : Row) (index : Nat) (key : String) (presence : Presence)
    (decode : Value → Result α) : Slot α :=
  match r with
  | .members entries => ⟨key, presence, (Entries.get? key entries).map decode⟩
  | .elements items => ⟨key, presence, items[index]?.map decode⟩

def Slot.outcome {α : Type} (s : Slot α) : Outcome :=
  ⟨s.key, s.presence, s.result.map fun
    | .ok _ => none
    | .error e => some e⟩

/-- The first error among the members of an object, in key order. -/
def firstFault (entries : List (String × Value)) (outcomes : List Outcome) :
    Option DecodeError :=
  entries.findSome? fun e =>
    (outcomes.find? (·.key == e.1)).bind fun o => o.fault.bind id

/-- The first error among the elements of an array, in their order. -/
def firstGap (record : String) (size : Nat) : Nat → List Outcome → Option DecodeError
  | _, [] => none
  | index, o :: os =>
    match o.fault with
    | some (some e) => some e
    | some none => firstGap record size (index + 1) os
    | none =>
      if o.presence = .defaulted then firstGap record size (index + 1) os
      else some (.tooShort index record size)

/-- Refuses a record if one of its fields is wrong or missing. -/
def Row.check (r : Row) (record : String) (outcomes : List Outcome) : Result Unit :=
  let problem := match r with
    | .members entries =>
      (firstFault entries outcomes).or
        ((outcomes.find? fun o => o.presence = .required && o.fault.isNone).map
          fun o => .missing o.key)
    | .elements items =>
      (firstGap record outcomes.length 0 outcomes).or
        (if items.length > outcomes.length then some (.tooLong items.length) else none)
  match problem with
  | some e => .error e
  | none => .ok ()

/-- The value of a required field. -/
def Slot.value {α : Type} (s : Slot α) : Result α :=
  s.result.getD (.error (.missing s.key))

/-- The value of a field that may be missing. -/
def Slot.valueOr {α : Type} (s : Slot α) (default : α) : Result α :=
  s.result.getD (.ok default)

/-! ## The parts of a result -/

def rootName (v : Value) : Result String := do
  let row ← Row.of "NamedRef" v
  let name := row.slot 0 "name" .required string
  row.check "NamedRef" [name.outcome]
  name.value

mutual

/-- How deep arrays and objects lie inside one another. -/
def depth : Value → Nat
  | .array items => depthItems items + 1
  | .object entries => depthEntries entries + 1
  | _ => 0

def depthItems : List Value → Nat
  | [] => 0
  | v :: vs => max (depth v) (depthItems vs)

def depthEntries : List (String × Value) → Nat
  | [] => 0
  | (_, v) :: es => max (depth v) (depthEntries es)

end

/-- A type reference that is at most `fuel` records deep. -/
def typeRefWithin : Nat → Value → Result TypeRef
  | 0, v => wrong v "struct TypeRef"
  | fuel + 1, v => do
    let row ← Row.of "TypeRef" v
    let k := row.slot 0 "kind" .required kind
    let name := row.slot 1 "name" .optional (nullable string)
    let inner := row.slot 2 "ofType" .optional (nullable (typeRefWithin fuel))
    row.check "TypeRef" [k.outcome, name.outcome, inner.outcome]
    return .mk (← k.value) (← name.valueOr none) (← inner.valueOr none)

def typeRef (v : Value) : Result TypeRef := typeRefWithin (depth v + 1) v

def inputValue (v : Value) : Result InputValue := do
  let row ← Row.of "InputValue" v
  let name := row.slot 0 "name" .required string
  let description := row.slot 1 "description" .optional (nullable string)
  let type := row.slot 2 "type" .required typeRef
  let default := row.slot 3 "defaultValue" .optional (nullable string)
  row.check "InputValue" [name.outcome, description.outcome, type.outcome, default.outcome]
  return ⟨← name.value, ← description.valueOr none, ← type.value, ← default.valueOr none⟩

def field (v : Value) : Result Field := do
  let row ← Row.of "Field" v
  let name := row.slot 0 "name" .required string
  let description := row.slot 1 "description" .optional (nullable string)
  let args := row.slot 2 "args" .defaulted (sequence inputValue)
  let type := row.slot 3 "type" .required typeRef
  let deprecated := row.slot 4 "isDeprecated" .defaulted boolean
  let reason := row.slot 5 "deprecationReason" .optional (nullable string)
  row.check "Field" [name.outcome, description.outcome, args.outcome, type.outcome,
    deprecated.outcome, reason.outcome]
  return ⟨← name.value, ← description.valueOr none, ← args.valueOr [], ← type.value,
    ← deprecated.valueOr false, ← reason.valueOr none⟩

def enumValue (v : Value) : Result EnumValue := do
  let row ← Row.of "EnumValue" v
  let name := row.slot 0 "name" .required string
  let description := row.slot 1 "description" .optional (nullable string)
  let deprecated := row.slot 2 "isDeprecated" .defaulted boolean
  let reason := row.slot 3 "deprecationReason" .optional (nullable string)
  row.check "EnumValue" [name.outcome, description.outcome, deprecated.outcome, reason.outcome]
  return ⟨← name.value, ← description.valueOr none, ← deprecated.valueOr false,
    ← reason.valueOr none⟩

def fullType (v : Value) : Result FullType := do
  let row ← Row.of "FullType" v
  let k := row.slot 0 "kind" .required kind
  let name := row.slot 1 "name" .required string
  let description := row.slot 2 "description" .optional (nullable string)
  let fields := row.slot 3 "fields" .optional (nullable (sequence field))
  let inputs := row.slot 4 "inputFields" .optional (nullable (sequence inputValue))
  let interfaces := row.slot 5 "interfaces" .optional (nullable (sequence typeRef))
  let values := row.slot 6 "enumValues" .optional (nullable (sequence enumValue))
  let possible := row.slot 7 "possibleTypes" .optional (nullable (sequence typeRef))
  row.check "FullType" [k.outcome, name.outcome, description.outcome, fields.outcome,
    inputs.outcome, interfaces.outcome, values.outcome, possible.outcome]
  return ⟨← k.value, ← name.value, ← description.valueOr none, ← fields.valueOr none,
    ← inputs.valueOr none, ← interfaces.valueOr none, ← values.valueOr none,
    ← possible.valueOr none⟩

end Decode

open Decode in
/-- The schema that a JSON value describes. -/
def Schema.decode (v : Json.Value) : Except DecodeError Schema := do
  let row ← Row.of "IntrospectionSchema" v
  let query := row.slot 0 "queryType" .optional (nullable rootName)
  let mutation := row.slot 1 "mutationType" .optional (nullable rootName)
  let subscription := row.slot 2 "subscriptionType" .optional (nullable rootName)
  let types := row.slot 3 "types" .required (sequence fullType)
  row.check "IntrospectionSchema"
    [query.outcome, mutation.outcome, subscription.outcome, types.outcome]
  return ⟨← query.valueOr none, ← mutation.valueOr none, ← subscription.valueOr none,
    ← types.value⟩

end GraphqlCodegen.Introspection
