/-!
# Strings and keys of a settings file

How a string is written: in the plainest of the five forms that can hold it. A key stands bare if it
is made of ASCII letters, digits, underscores and hyphens.
-/

namespace GraphqlCodegen.Toml

/-- The forms of a string. -/
inductive Form where
  | basic
  | literal
  | multilineBasic
  | multilineLiteral
  deriving DecidableEq, Repr

/-- A control character that only an escape can stand for. -/
def isControl (c : Char) : Bool := (c.toNat < 0x20 && c != '\t' && c != '\n') || c.toNat = 0x7f

/-- The length of the longest run of a character; `run` is the length of the run so far. -/
def longestRun (c : Char) (run : Nat) : List Char → Nat
  | [] => run
  | d :: ds => if d = c then longestRun c (run + 1) ds else max run (longestRun c 0 ds)

/-- The form holds the text without escapes. -/
def Form.fits (cs : List Char) : Form → Bool
  | .basic => !cs.any fun c => isControl c || c = '\\' || c = '"' || c = '\n'
  | .literal => !cs.any fun c => isControl c || c = '\'' || c = '\n'
  | .multilineBasic => !(cs.any fun c => isControl c || c = '\\') && longestRun '"' 0 cs ≤ 2
  | .multilineLiteral => !cs.any isControl && longestRun '\'' 0 cs ≤ 2

/-- The form in which a text is written: the first that fits, or else one with escapes. -/
def formOf (cs : List Char) : Form :=
  match [Form.basic, .literal, .multilineBasic, .multilineLiteral].find? (·.fits cs) with
  | some form => form
  | none => if cs.contains '\n' then .multilineBasic else .basic

/-- Two digits of a code in capitals. -/
def codeDigits (c : Char) : List Char :=
  [(Nat.digitChar (c.toNat / 16)).toUpper, (Nat.digitChar (c.toNat % 16)).toUpper]

/-- A character between double quotes, quotes and line feeds apart. -/
def escapedChar (c : Char) : List Char :=
  if c = '\x08' then ['\\', 'b']
  else if c = '\t' then ['\\', 't']
  else if c = '\x0c' then ['\\', 'f']
  else if c = '\r' then ['\\', 'r']
  else if c = '\\' then ['\\', '\\']
  else if isControl c then ['\\', 'u', '0', '0'] ++ codeDigits c
  else [c]

/-- A text between double quotes. -/
def basicBody (cs : List Char) : List Char :=
  cs.flatMap fun c =>
    if c = '"' then ['\\', '"'] else if c = '\n' then ['\\', 'n'] else escapedChar c

/-- A text between three double quotes: of three quotes in a row the third is escaped. The quotes
that stand in front of the text in a row are counted. -/
def multilineBody (quotes : Nat) : List Char → List Char
  | [] => []
  | c :: cs =>
    if c = '"' then
      if quotes = 2 then '\\' :: '"' :: multilineBody 0 cs
      else '"' :: multilineBody (quotes + 1) cs
    else if c = '\n' then '\n' :: multilineBody 0 cs
    else escapedChar c ++ multilineBody 0 cs

/-- A line feed behind the opening quotes of a text with line feeds; it is no part of the text. -/
def firstBreak (cs : List Char) : List Char := if cs.contains '\n' then ['\n'] else []

/-- A text in one of the forms. -/
def Form.write (cs : List Char) : Form → List Char
  | .basic => '"' :: basicBody cs ++ ['"']
  | .literal => '\'' :: cs ++ ['\'']
  | .multilineBasic =>
    ['"', '"', '"'] ++ firstBreak cs ++ multilineBody 0 cs ++ ['"', '"', '"']
  | .multilineLiteral => ['\'', '\'', '\''] ++ firstBreak cs ++ cs ++ ['\'', '\'', '\'']

/-- A string as a value. -/
def writeString (cs : List Char) : List Char := (formOf cs).write cs

/-- A character of a bare key. -/
def isBareChar (c : Char) : Bool := c.isAlphanum || c = '_' || c = '-'

def isBare (cs : List Char) : Bool := !cs.isEmpty && cs.all isBareChar

/-- A key: bare, or on one line between quotes. -/
def writeKey (cs : List Char) : List Char :=
  if isBare cs then cs
  else if Form.basic.fits cs then Form.basic.write cs
  else if Form.literal.fits cs then Form.literal.write cs
  else Form.basic.write cs

/-- The line that gives a key a string. -/
def writeEntry (key value : String) : String :=
  String.ofList (writeKey key.toList ++ [' ', '=', ' '] ++ writeString value.toList ++ ['\n'])

end GraphqlCodegen.Toml
