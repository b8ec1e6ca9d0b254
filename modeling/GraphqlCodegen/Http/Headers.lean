import GraphqlCodegen.Text.Blank
/-!
# Header fields

Fields by name in the order in which they were added; names are in lower case. A field given by the
user is read from `Name: Value`, where the value is all that stands behind the first colon.
-/

namespace GraphqlCodegen.Http

structure Header where
  name : String
  value : String
  deriving DecidableEq, Repr

/-- Fields in the order in which they were added; a name may have several values. -/
abbrev Headers := List Header

/-- Why a field that was given cannot be sent. -/
inductive HeaderError where
  | noColon (text : String)
  | invalidName (text : String)
  | invalidValue (text : String)
  deriving DecidableEq, Repr

def HeaderError.message : HeaderError → String
  | .noColon text => "Invalid header '" ++ text ++ "', expected 'Name: Value'"
  | .invalidName text => "Invalid header name in '" ++ text ++ "': invalid HTTP header name"
  | .invalidValue text => "Invalid header value in '" ++ text ++ "': failed to parse header value"

namespace Header

/-- A character of a token. -/
def isTokenChar (c : Char) : Bool :=
  c.isAlphanum
    || ['!', '#', '$', '%', '&', '\'', '*', '+', '-', '.', '^', '_', '\x60', '|', '~'].contains c

/-- The greatest length of a name. -/
def nameLimit : Nat := 65535

/-- A text that can be the name of a field. -/
def isName (cs : List Char) : Bool := !cs.isEmpty && cs.length ≤ nameLimit && cs.all isTokenChar

/-- A character of a value: no control but the tab. -/
def isValueChar (c : Char) : Bool := c = '\t' || (0x20 ≤ c.toNat && c.toNat != 0x7f)

/-- The name that the characters of a name stand for: case does not matter. -/
def nameOf (cs : List Char) : String := String.ofList (cs.map Char.toLower)

/-- Reads a field. -/
def parse (text : String) : Except HeaderError Header :=
  let cs := text.toList
  match cs.dropWhile (· != ':') with
  | [] => .error (.noColon text)
  | _ :: value =>
    let name := Text.trim (cs.takeWhile (· != ':'))
    let value := Text.trim value
    if !isName name then .error (.invalidName text)
    else if !value.all isValueChar then .error (.invalidValue text)
    else .ok ⟨nameOf name, String.ofList value⟩

end Header

namespace Headers

/-- Reads fields; the first that cannot be read fails. -/
def parse (texts : List String) : Except HeaderError Headers := texts.mapM Header.parse

/-- The first value of a name. -/
def get? (hs : Headers) (name : String) : Option String :=
  (hs.find? (·.name == name)).map (·.value)

/-- The values of a name. -/
def values (hs : Headers) (name : String) : List String :=
  (hs.filter (·.name == name)).map (·.value)

/-- Fields that take the place of all others of their names. -/
def overlay (hs added : Headers) : Headers :=
  hs.filter (fun h => !added.any (·.name == h.name)) ++ added

end Headers
end GraphqlCodegen.Http
