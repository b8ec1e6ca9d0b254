import GraphqlCodegen.Sdl.Document
import GraphqlCodegen.Sdl.Lexer
import GraphqlCodegen.Entries
/-!
# Reading schema documents

One token decides each step, so a text that is no document is refused at its first token that
cannot continue. A few rules are checked on what has been read: an extension has to add something,
a schema block names each operation at most once, a directive's location has to be one of the
known ones; these are refused where the keyword or the location stands.

Every reader that repeats takes a fuel; any above twice the number of tokens is enough, because
a bracket inside a value is one token and takes two steps.
-/

namespace GraphqlCodegen.Sdl

open GraphqlCodegen.Schema (TypeRef)

/-- Reads a part of a document from its tokens, or fails at a place. -/
abbrev Reader := StateT Tokens (Except Position)

namespace Reader

variable {α : Type}

/-- Fails at the next token. -/
def refuse : Reader α := fun ts => .error ts.place

/-- Fails at a place that has been passed. -/
def refuseAt (p : Position) : Reader α := fun _ => .error p

/-- The next token, which stays. -/
def peek : Reader (Option Token) := fun ts => .ok (ts.head?, ts)

/-- The place of the next token. -/
def here : Reader Position := fun ts => .ok (ts.place, ts)

/-- Drops the next token. -/
def skip : Reader Unit := fun ts =>
  match ts with
  | .cons _ _ rest => .ok ((), rest)
  | ts => .error ts.place

/-- Reads the given token. -/
def expect (t : Token) : Reader Unit := do
  if (← peek) = some t then skip else refuse

/-- Reads the given token if it comes next, and tells whether it did. -/
def accept (t : Token) : Reader Bool := do
  if (← peek) = some t then do skip; return true else return false

/-- Reads a name. -/
def name : Reader String := do
  match ← peek with
  | some (.name n) => do skip; return n
  | _ => refuse

/-- Reads items as long as a token comes with which one begins. -/
def many (begins : Token → Bool) (item : Reader α) : Nat → Reader (List α)
  | 0 => refuse
  | fuel + 1 => do
    match ← peek with
    | some t =>
      if begins t then do
        let x ← item
        return x :: (← many begins item fuel)
      else return []
    | none => return []

/-- Reads one item and then more of them. -/
def many1 (begins : Token → Bool) (item : Reader α) (fuel : Nat) : Reader (List α) := do
  let x ← item
  return x :: (← many begins item fuel)

/-- Reads items between brackets, at least one; nothing at all if the opening bracket is not
there. -/
def bracketed (left right : Char) (begins : Token → Bool) (item : Reader α) (fuel : Nat) :
    Reader (List α) := do
  if ← accept (.mark left) then do
    let xs ← many1 begins item fuel
    expect (.mark right)
    return xs
  else return []

/-- Reads items with a mark between each two, which may also stand in front of the first. -/
def separated (sep : Char) (item : Reader α) (fuel : Nat) : Reader (List α) := do
  let _ ← accept (.mark sep)
  let x ← item
  return x :: (← many (· = .mark sep) (do expect (.mark sep); item) fuel)

end Reader

open Reader

def isName : Token → Bool
  | .name _ => true
  | _ => false

/-- A name, or the string that describes what it names. -/
def beginsDescribed : Token → Bool
  | .name _ | .string _ => true
  | _ => false

/-- A token that begins a value. -/
def beginsValue : Token → Bool
  | .name _ | .int _ | .float _ | .string _ => true
  | .mark c => c = '[' || c = '{' || c = '$'
  | .spread => false

/-- Reads a string in front of a definition, if there is one. -/
def description : Reader (Option String) := do
  match ← peek with
  | some (.string s) => do skip; return some s
  | _ => return none

/-! ## Types and values -/

/-- Reads a type with its wrappers. -/
def typeRef : Nat → Reader TypeRef
  | 0 => refuse
  | fuel + 1 => do
    let inner ← do
      if ← accept (.mark '[') then do
        let item ← typeRef fuel
        expect (.mark ']')
        pure (TypeRef.list item)
      else do
        pure (TypeRef.named (← name))
    if ← accept (.mark '!') then return .nonNull inner else return inner

mutual

/-- Reads a value; a constant one may hold no variable. -/
def value (constant : Bool) : Nat → Reader Value
  | 0 => refuse
  | fuel + 1 => do
    match ← peek with
    | some (.name n) => do
      skip
      return if n = "true" then .boolean true
        else if n = "false" then .boolean false
        else if n = "null" then .null
        else .enum n
    | some (.int i) => do skip; return .int i
    | some (.float x) => do skip; return .float x
    | some (.string s) => do skip; return .string s
    | some (.mark '[') => do skip; return .list (← items constant fuel)
    | some (.mark '{') => do skip; return .object (Entries.ofList (← entries constant fuel))
    | some (.mark '$') =>
      if constant then refuse else do skip; return .variable (← name)
    | _ => refuse

/-- Reads the items of a list and the bracket behind them. -/
def items (constant : Bool) : Nat → Reader (List Value)
  | 0 => refuse
  | fuel + 1 => do
    if ← accept (.mark ']') then return []
    else do
      let x ← value constant fuel
      return x :: (← items constant fuel)

/-- Reads the entries of an object and the brace behind them. -/
def entries (constant : Bool) : Nat → Reader (List (String × Value))
  | 0 => refuse
  | fuel + 1 => do
    if ← accept (.mark '}') then return []
    else do
      let key ← name
      expect (.mark ':')
      let x ← value constant fuel
      return (key, x) :: (← entries constant fuel)

end

/-! ## Directives, arguments and fields -/

/-- Reads a name with a value for it. -/
def argument (fuel : Nat) : Reader (String × Value) := do
  let key ← name
  expect (.mark ':')
  return (key, ← value false fuel)

def directive (fuel : Nat) : Reader Directive := do
  expect (.mark '@')
  let n ← name
  return ⟨n, ← bracketed '(' ')' isName (argument fuel) fuel⟩

def directives (fuel : Nat) : Reader (List Directive) :=
  many (· = .mark '@') (directive fuel) fuel

def inputValue (fuel : Nat) : Reader InputValue := do
  let text ← description
  let n ← name
  expect (.mark ':')
  let type ← typeRef fuel
  let default ← do
    if ← accept (.mark '=') then pure (some (← value true fuel)) else pure none
  return ⟨text, n, type, default, ← directives fuel⟩

def arguments (fuel : Nat) : Reader (List InputValue) :=
  bracketed '(' ')' beginsDescribed (inputValue fuel) fuel

def field (fuel : Nat) : Reader Field := do
  let text ← description
  let n ← name
  let args ← arguments fuel
  expect (.mark ':')
  let type ← typeRef fuel
  return ⟨text, n, args, type, ← directives fuel⟩

def enumValue (fuel : Nat) : Reader EnumValue := do
  let text ← description
  let n ← name
  return ⟨text, n, ← directives fuel⟩

/-- Reads the interfaces behind `implements`, if there are any. -/
def implemented (fuel : Nat) : Reader (List String) := do
  if ← accept (.name "implements") then separated '&' name fuel else return []

def fields (fuel : Nat) : Reader (List Field) :=
  bracketed '{' '}' beginsDescribed (field fuel) fuel

/-! ## Definitions -/

/-- What stands behind the keyword of a type definition. -/
structure NamedBody where
  name : String
  directives : List Directive
  body : TypeBody

/-- The keywords of type definitions. -/
inductive TypeKeyword where
  | scalar | object | interface | union | enum | input
  deriving DecidableEq, Repr

def TypeKeyword.ofName : String → Option TypeKeyword
  | "scalar" => some .scalar
  | "type" => some .object
  | "interface" => some .interface
  | "union" => some .union
  | "enum" => some .enum
  | "input" => some .input
  | _ => none

/-- Reads what stands behind the keyword of a type definition or extension. -/
def namedBody (fuel : Nat) : TypeKeyword → Reader NamedBody
  | .scalar => do
    let n ← name
    return ⟨n, ← directives fuel, .scalar⟩
  | .object => do
    let n ← name
    let interfaces ← implemented fuel
    let ds ← directives fuel
    return ⟨n, ds, .object interfaces (← fields fuel)⟩
  | .interface => do
    let n ← name
    let interfaces ← implemented fuel
    let ds ← directives fuel
    return ⟨n, ds, .interface interfaces (← fields fuel)⟩
  | .union => do
    let n ← name
    let ds ← directives fuel
    if ← accept (.mark '=') then return ⟨n, ds, .union (← separated '|' name fuel)⟩
    else return ⟨n, ds, .union []⟩
  | .enum => do
    let n ← name
    let ds ← directives fuel
    return ⟨n, ds, .enum (← bracketed '{' '}' beginsDescribed (enumValue fuel) fuel)⟩
  | .input => do
    let n ← name
    let ds ← directives fuel
    return ⟨n, ds, .input (← bracketed '{' '}' beginsDescribed (inputValue fuel) fuel)⟩

/-- An extension adds something: a directive, or a member of the type. The interfaces of an
interface do not count. -/
def NamedBody.adds (b : NamedBody) : Bool :=
  !b.directives.isEmpty || match b.body with
    | .scalar => false
    | .object interfaces fields => !interfaces.isEmpty || !fields.isEmpty
    | .interface _ fields => !fields.isEmpty
    | .union members => !members.isEmpty
    | .enum values => !values.isEmpty
    | .input fields => !fields.isEmpty

/-- Reads an operation of a schema block with the type it starts from. -/
def rootEntry : Reader (String × String) := do
  let operation ← name
  expect (.mark ':')
  return (operation, ← name)

/-- Sets an operation that is not set yet. -/
def SchemaBlock.set? (b : SchemaBlock) (entry : String × String) : Option SchemaBlock :=
  match entry.1 with
  | "query" => if b.query.isNone then some { b with query := some entry.2 } else none
  | "mutation" => if b.mutation.isNone then some { b with mutation := some entry.2 } else none
  | "subscription" =>
    if b.subscription.isNone then some { b with subscription := some entry.2 } else none
  | _ => none

/-- Reads what stands behind the keyword of a schema block, which stood at `place`. -/
def schemaBlock (fuel : Nat) (place : Position) : Reader SchemaBlock := do
  let ds ← directives fuel
  expect (.mark '{')
  let roots ← many isName rootEntry fuel
  expect (.mark '}')
  match roots.foldlM SchemaBlock.set? ⟨ds, none, none, none⟩ with
  | some block => return block
  | none => refuseAt place

/-- Where a directive may be used. -/
def directiveLocations : List String :=
  ["QUERY", "MUTATION", "SUBSCRIPTION", "FIELD", "FRAGMENT_DEFINITION", "FRAGMENT_SPREAD",
    "INLINE_FRAGMENT", "SCHEMA", "SCALAR", "OBJECT", "FIELD_DEFINITION", "ARGUMENT_DEFINITION",
    "INTERFACE", "UNION", "ENUM", "ENUM_VALUE", "INPUT_OBJECT", "INPUT_FIELD_DEFINITION",
    "VARIABLE_DEFINITION"]

/-- Reads a place where a directive may be used. -/
def location : Reader String := do
  let place ← here
  let n ← name
  if directiveLocations.contains n then return n else refuseAt place

/-- Reads what stands behind the keyword of a directive definition. -/
def directiveDefinition (fuel : Nat) (text : Option String) : Reader DirectiveDefinition := do
  expect (.mark '@')
  let n ← name
  let args ← arguments fuel
  let repeatable ← accept (.name "repeatable")
  expect (.name "on")
  match ← peek with
  | some (.mark '|') | some (.name _) =>
    return ⟨text, n, args, repeatable, ← separated '|' location fuel⟩
  | _ => return ⟨text, n, args, repeatable, []⟩

/-- Reads the definition of a type or a directive, behind its description. -/
def described (fuel : Nat) (text : Option String) : Reader Definition := do
  match ← peek with
  | some (.name keyword) =>
    match TypeKeyword.ofName keyword with
    | some k => do
      skip
      let b ← namedBody fuel k
      return .type ⟨text, b.name, b.directives, b.body⟩
    | none =>
      if keyword = "directive" then do
        skip
        return .directive (← directiveDefinition fuel text)
      else refuse
  | _ => refuse

/-- Reads what stands behind `extend`. -/
def extension (fuel : Nat) : Reader TypeExtension := do
  let place ← here
  match TypeKeyword.ofName (← name) with
  | some k => do
    let b ← namedBody fuel k
    if b.adds then return ⟨b.name, b.directives, b.body⟩ else refuseAt place
  | none => refuseAt place

def definition (fuel : Nat) : Reader Definition := do
  let place ← here
  match ← peek with
  | some (.name "schema") => do skip; return .schema (← schemaBlock fuel place)
  | some (.name "extend") => do skip; return .extension (← extension fuel)
  | _ => described fuel (← description)

/-- Reads definitions up to the end of the text. -/
def document : Nat → Reader Document
  | 0 => refuse
  | fuel + 1 => do
    let d ← definition fuel
    match (← get : Tokens) with
    | .finish _ => return [d]
    | _ => return d :: (← document fuel)

/-- The definitions of a text, or the place where it stops to be a document. -/
def parse (text : String) : Except Position Document := do
  let tokens := Tokens.ofText text.toList
  let (definitions, _) ← document (2 * tokens.length + 2) tokens
  return definitions

end GraphqlCodegen.Sdl
