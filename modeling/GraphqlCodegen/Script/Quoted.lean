/-!
# Strings and keys of scripts

A string stands between double quotes with a backslash in front of each quote and backslash. A key
of an object or an enum stands bare if it is an identifier made of ASCII letters, digits,
underscores and dollar signs, and between quotes otherwise.
-/

namespace GraphqlCodegen.Script

/-- A character as it stands between quotes. -/
def escapeChar (c : Char) : List Char :=
  if c = '\\' then ['\\', '\\'] else if c = '"' then ['\\', '"'] else [c]

/-- A string as it stands between quotes. -/
def escape (s : String) : String := String.ofList (s.toList.flatMap escapeChar)

/-- A string between quotes. -/
def quoted (s : String) : String := "\"" ++ escape s ++ "\""

theorem toList_quoted (s : String) (rest : List Char) :
    (quoted s).toList ++ rest = '"' :: (s.toList.flatMap escapeChar ++ '"' :: rest) := by
  simp [quoted, escape]

def isKeyStart (c : Char) : Bool := c.isAlpha || c = '_' || c = '$'

def isKeyChar (c : Char) : Bool := c.isAlphanum || c = '_' || c = '$'

/-- The key cannot stand bare. -/
def needsQuotes (key : String) : Bool :=
  match key.toList with
  | [] => true
  | c :: cs => !(isKeyStart c && (c :: cs).all isKeyChar)

/-- A key as it is written. -/
def keyText (key : String) : String := if needsQuotes key then quoted key else key

end GraphqlCodegen.Script
