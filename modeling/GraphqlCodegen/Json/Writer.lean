import GraphqlCodegen.Json.Number
import GraphqlCodegen.Text.Lines
/-!
# Writing JSON

A value on one line, or spread over lines with four spaces of indentation a level.
-/

namespace GraphqlCodegen.Json

/-- The hexadecimal digit of a number below sixteen. -/
def hexDigit (n : Nat) : Char := Nat.digitChar n

/-- A character inside quotes: quote, backslash and controls below `U+0020` are escaped. -/
def quotedChar (c : Char) : List Char :=
  if c = '"' then ['\\', '"']
  else if c = '\\' then ['\\', '\\']
  else if c = '\x08' then ['\\', 'b']
  else if c = '\x0c' then ['\\', 'f']
  else if c = '\n' then ['\\', 'n']
  else if c = '\r' then ['\\', 'r']
  else if c = '\t' then ['\\', 't']
  else if c.toNat < 0x20 then
    ['\\', 'u', '0', '0', hexDigit (c.toNat / 16), hexDigit (c.toNat % 16)]
  else [c]

/-- A string between quotes. -/
def quoted (s : String) : String :=
  String.ofList ('"' :: s.toList.flatMap quotedChar ++ ['"'])

/-- A value without parts. -/
def atomText : Value → String
  | .null => "null"
  | .bool b => if b then "true" else "false"
  | .int i => String.ofList (GraphqlCodegen.Number.Decimal.intText i)
  | .float x => String.ofList (Number.floatText x)
  | .string s => quoted s
  | .array _ => "[]"
  | .object _ => "\x7b\x7d"

mutual

/-- A value on one line, without spaces. -/
def compact : Value → String
  | .array items => "[" ++ Text.joined "," (compactItems items) ++ "]"
  | .object entries => "\x7b" ++ Text.joined "," (compactEntries entries) ++ "\x7d"
  | v => atomText v

def compactItems : List Value → List String
  | [] => []
  | v :: vs => compact v :: compactItems vs

def compactEntries : List (String × Value) → List String
  | [] => []
  | (k, v) :: es => (quoted k ++ ":" ++ compact v) :: compactEntries es

end

/-- A line end and the indentation of a level. -/
def lineBreak (level : Nat) : String := String.ofList ('\n' :: List.replicate (4 * level) ' ')

mutual

/-- A value at a level of indentation, every item and entry on a line of its own. -/
def prettyAt (level : Nat) : Value → String
  | .array (v :: vs) =>
    "[" ++ Text.joined "," (prettyItems (level + 1) (v :: vs)) ++ lineBreak level ++ "]"
  | .object (e :: es) =>
    "\x7b" ++ Text.joined "," (prettyEntries (level + 1) (e :: es)) ++ lineBreak level ++ "\x7d"
  | v => atomText v

def prettyItems (level : Nat) : List Value → List String
  | [] => []
  | v :: vs => (lineBreak level ++ prettyAt level v) :: prettyItems level vs

def prettyEntries (level : Nat) : List (String × Value) → List String
  | [] => []
  | (k, v) :: es =>
    (lineBreak level ++ quoted k ++ ": " ++ prettyAt level v) :: prettyEntries level es

end

/-- A value spread over lines. -/
def pretty (v : Value) : String := prettyAt 0 v

end GraphqlCodegen.Json
