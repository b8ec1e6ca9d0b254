import GraphqlCodegen.Text.Lines
import GraphqlCodegen.Text.Blank
import GraphqlCodegen.Number.Shortest
import GraphqlCodegen.Sdl.BlockString
/-!
# Values of the schema language

The values that arguments of directives and defaults of inputs are given, and their printed form.
-/

namespace GraphqlCodegen.Sdl

open GraphqlCodegen.Number (Binary64)

inductive Value where
  | variable (name : String)
  | int (value : Int)
  | float (value : Binary64)
  | string (value : String)
  | boolean (value : Bool)
  | null
  | enum (name : String)
  | list (items : List Value)
  /-- The entries stand in key order. -/
  | object (entries : List (String × Value))

namespace Value

/-- A character that stands for itself inside a quoted or block string: `U+0020` to `U+FFFF`. -/
def isPlain (c : Char) : Bool := 0x20 ≤ c.toNat && c.toNat ≤ 0xFFFF

/-- The code point in decimal, with zeros in front up to four digits. -/
def paddedCode (c : Char) : List Char :=
  let digits := Nat.toDigits 10 c.toNat
  List.replicate (4 - digits.length) '0' ++ digits

/-- A character as it is written between quotes. -/
def quotedChar (c : Char) : List Char :=
  if c = '\r' then ['\\', 'r']
  else if c = '\n' then ['\\', 'n']
  else if c = '\t' then ['\\', 't']
  else if c = '"' then ['\\', '"']
  else if c = '\\' then ['\\', '\\']
  else if isPlain c then [c]
  else '\\' :: 'u' :: paddedCode c

/-- A line of a block string: two spaces in front, blank lines left empty. -/
def blockLine (line : List Char) : List Char :=
  if line.all Text.isBlank then ['\n']
  else ' ' :: ' ' :: BlockString.escape line ++ ['\n']

/-- A string is written as a block if it has a line feed and no character that would need a
code. -/
def isBlock (cs : List Char) : Bool :=
  cs.contains '\n' && cs.all (fun c => c = '\r' || c = '\n' || c = '\t' || isPlain c)

/-- The written form of a string. -/
def stringText (cs : List Char) : List Char :=
  if isBlock cs then
    '"' :: '"' :: '"' :: '\n' :: (Text.lines cs).flatMap blockLine ++ ['"', '"', '"']
  else '"' :: cs.flatMap quotedChar ++ ['"']

mutual

/-- The printed form of a value. -/
def text : Value → String
  | .variable name => "$" ++ name
  | .int i => String.ofList (Number.Decimal.intText i)
  | .float x => x.plain
  | .string s => String.ofList (stringText s.toList)
  | .boolean b => if b then "true" else "false"
  | .null => "null"
  | .enum name => name
  | .list items => "[" ++ Text.joined ", " (itemTexts items) ++ "]"
  | .object entries => "\x7b" ++ Text.joined ", " (entryTexts entries) ++ "\x7d"

/-- The printed forms of the items of a list. -/
def itemTexts : List Value → List String
  | [] => []
  | v :: vs => text v :: itemTexts vs

/-- The printed forms of the entries of an object. -/
def entryTexts : List (String × Value) → List String
  | [] => []
  | (k, v) :: es => (k ++ ": " ++ text v) :: entryTexts es

end

end Value
end GraphqlCodegen.Sdl
