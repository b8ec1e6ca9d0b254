import GraphqlCodegen.Text.Hex
import GraphqlCodegen.Toml.Quoted
/-!
# Parts of a settings file

Blanks and comments, strings, and keys: each is read from the front of a text, and what is left is
given back.
-/

namespace GraphqlCodegen.Toml

/-- Reads something from the front of a text. -/
abbrev Reader (α : Type) := List Char → Option (α × List Char)

def isSpace (c : Char) : Bool := c = ' ' || c = '\t'

def skipSpace (cs : List Char) : List Char := cs.dropWhile isSpace

/-- What stands behind a line end. -/
def lineEnd? : List Char → Option (List Char)
  | '\n' :: cs => some cs
  | '\r' :: '\n' :: cs => some cs
  | _ => none

/-- A character of a comment or a string, line ends apart. -/
def isPlain (c : Char) : Bool := c = '\t' || (0x20 ≤ c.toNat && c.toNat != 0x7f)

/-- What stands behind a comment, if one begins here: the line end is left. -/
def skipComment : List Char → List Char
  | '#' :: cs => cs.dropWhile isPlain
  | cs => cs

/-- Skips blanks, comments and line ends, each step at least one character. -/
def skipTriviaWithin : Nat → List Char → List Char
  | 0, cs => cs
  | fuel + 1, cs =>
    match skipComment (skipSpace cs) with
    | [] => []
    | rest => match lineEnd? rest with
      | some next => skipTriviaWithin fuel next
      | none => rest

def skipTrivia (cs : List Char) : List Char := skipTriviaWithin (cs.length + 1) cs

/-! ## Strings -/

/-- The character of a code, if it has one. -/
def charOfCode? (digits : List Char) : Option Char := do
  let n ← Text.hexValue? digits
  if n.isValidChar then some (Char.ofNat n) else none

/-- An escape behind its backslash. -/
def escape : Reader Char
  | 'b' :: cs => some ('\x08', cs)
  | 't' :: cs => some ('\t', cs)
  | 'n' :: cs => some ('\n', cs)
  | 'f' :: cs => some ('\x0c', cs)
  | 'r' :: cs => some ('\r', cs)
  | 'e' :: cs => some ('\x1b', cs)
  | '"' :: cs => some ('"', cs)
  | '\\' :: cs => some ('\\', cs)
  | 'x' :: cs => code 2 cs
  | 'u' :: cs => code 4 cs
  | 'U' :: cs => code 8 cs
  | _ => none
where
  code (count : Nat) (cs : List Char) : Option (Char × List Char) := do
    if cs.length < count then none
    else return (← charOfCode? (cs.take count), cs.drop count)

/-- The rest of a string behind its opening quote. -/
def basicRest : Nat → Reader (List Char)
  | 0, _ => none
  | _ + 1, [] => none
  | _ + 1, '"' :: cs => some ([], cs)
  | fuel + 1, '\\' :: cs => do
    let (c, cs) ← escape cs
    let (text, rest) ← basicRest fuel cs
    return (c :: text, rest)
  | fuel + 1, c :: cs => do
    if !isPlain c then none
    let (text, rest) ← basicRest fuel cs
    return (c :: text, rest)

/-- The rest of a literal string behind its opening quote. -/
def literalRest : Reader (List Char)
  | [] => none
  | c :: cs =>
    if c = '\'' then some ([], cs)
    else if !isPlain c then none
    else (literalRest cs).map fun r => (c :: r.1, r.2)

/-- How many quotes stand in front, up to five. -/
def quotesInFront (quote : Char) (cs : List Char) : Nat :=
  ((cs.take 5).takeWhile (· = quote)).length

/-- The rest of a string over several lines behind its opening quotes; two quotes in front of the
closing ones belong to it. A backslash at the end of a line hides all blanks behind it. -/
def multilineRest (quote : Char) : Nat → Reader (List Char)
  | 0, _ => none
  | _ + 1, [] => none
  | fuel + 1, c :: cs =>
    if c = quote then
      let n := quotesInFront quote (c :: cs)
      if n ≥ 3 then some (List.replicate (n - 3) quote, (c :: cs).drop n)
      else (multilineRest quote fuel cs).map fun r => (c :: r.1, r.2)
    else if c = '\\' && quote = '"' then
      match lineEnd? (skipSpace cs) with
      | some next => multilineRest quote fuel (next.dropWhile isHidden)
      | none => do
        let (c, cs) ← escape cs
        let (text, rest) ← multilineRest quote fuel cs
        return (c :: text, rest)
    else match lineEnd? (c :: cs) with
      | some next => (multilineRest quote fuel next).map fun r =>
          ((c :: cs).take (cs.length + 1 - next.length) ++ r.1, r.2)
      | none =>
        if !isPlain c then none
        else (multilineRest quote fuel cs).map fun r => (c :: r.1, r.2)
where
  isHidden (c : Char) : Bool := isSpace c || c = '\n' || c = '\r'

/-- A string over several lines behind its opening quotes: a line end that it begins with is no part
of it. -/
def multiline (quote : Char) (cs : List Char) : Option (List Char × List Char) :=
  let body := (lineEnd? cs).getD cs
  multilineRest quote (body.length + 1) body

/-- A string on one line. -/
def quotedLine : Reader (List Char)
  | '"' :: cs => basicRest (cs.length + 1) cs
  | '\'' :: cs => literalRest cs
  | _ => none

/-- A string in any of its forms. -/
def string : Reader (List Char)
  | '"' :: '"' :: '"' :: cs => multiline '"' cs
  | '\'' :: '\'' :: '\'' :: cs => multiline '\'' cs
  | cs => quotedLine cs

/-! ## Keys -/

/-- One part of a key. -/
def simpleKey (cs : List Char) : Option (String × List Char) :=
  match cs.takeWhile isBareChar with
  | [] => (quotedLine cs).map fun r => (String.ofList r.1, r.2)
  | bare => some (String.ofList bare, cs.dropWhile isBareChar)

/-- A key: parts with a dot between each two. -/
def key : Nat → Reader (List String)
  | 0, _ => none
  | fuel + 1, cs => do
    let (first, rest) ← simpleKey cs
    match skipSpace rest with
    | '.' :: next => do
      let (more, rest) ← key fuel (skipSpace next)
      return (first :: more, rest)
    | _ => return ([first], rest)

end GraphqlCodegen.Toml
