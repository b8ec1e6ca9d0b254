import GraphqlCodegen.Toml.Definitions
import GraphqlCodegen.Toml.Scalar
/-!
# Values of a settings file

Strings, other scalars, arrays and inline tables. Of a value only the text is kept if it is a
string.
-/

namespace GraphqlCodegen.Toml

/-- The text of a value that is a string; other values have none. -/
abbrev Value := Option String

/-- Keys that an inline table defines, each once. -/
def areDistinct (paths : List (List String)) : Bool :=
  (paths.foldlM (fun cs path => assign path cs) ([] : Children)).isSome

mutual

/-- A value. -/
def value : Nat → Reader Value
  | 0, _ => none
  | fuel + 1, cs =>
    match cs with
    | '"' :: _ => (string cs).map fun r => (some (String.ofList r.1), r.2)
    | '\'' :: _ => (string cs).map fun r => (some (String.ofList r.1), r.2)
    | '[' :: rest => (items fuel (skipTrivia rest)).map fun rest => (none, rest)
    | '\x7b' :: rest => do
      let (paths, rest) ← pairs fuel (skipTrivia rest)
      if areDistinct paths then some (none, rest) else none
    | cs =>
      let (word, rest) := splitWord cs
      if isScalar word then some (none, rest) else none

/-- What stands behind the items of an array and its closing bracket. -/
def items : Nat → List Char → Option (List Char)
  | 0, _ => none
  | fuel + 1, cs =>
    match cs with
    | ']' :: rest => some rest
    | cs => do
      let (_, rest) ← value fuel cs
      match skipTrivia rest with
      | ',' :: rest => items fuel (skipTrivia rest)
      | ']' :: rest => some rest
      | _ => none

/-- The keys of an inline table, up to its closing brace. -/
def pairs : Nat → Reader (List (List String))
  | 0, _ => none
  | fuel + 1, cs =>
    match cs with
    | '\x7d' :: rest => some ([], rest)
    | cs => do
      let (path, _, rest) ← pair fuel cs
      match skipTrivia rest with
      | ',' :: rest => do
        let (more, rest) ← pairs fuel (skipTrivia rest)
        return (path :: more, rest)
      | '\x7d' :: rest => return ([path], rest)
      | _ => none

/-- A key with its value. -/
def pair : Nat → List Char → Option (List String × Value × List Char)
  | 0, _ => none
  | fuel + 1, cs => do
    let (path, rest) ← key (cs.length + 1) cs
    match skipSpace rest with
    | '=' :: rest => do
      let (v, rest) ← value fuel (skipSpace rest)
      return (path, v, rest)
    | _ => none

end

end GraphqlCodegen.Toml
