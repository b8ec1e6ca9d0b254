import GraphqlCodegen.Json.Number
import GraphqlCodegen.Text.Hex
/-!
# Reading JSON

A text is one value with nothing but white space around it. At most 127 arrays and objects may lie
inside one another. Every reader gives its value and what follows.
-/

namespace GraphqlCodegen.Json

namespace Reader

def isSpace (c : Char) : Bool := c = ' ' || c = '\n' || c = '\t' || c = '\r'

def skipSpace (cs : List Char) : List Char := cs.dropWhile isSpace

/-! ## Strings -/

/-- The number that four hexadecimal digits stand for. -/
def codeUnit? (a b c d : Char) : Option Nat := Text.hexValue? [a, b, c, d]

def escaped? (c : Char) : Option Char :=
  if c = '"' || c = '\\' || c = '/' then some c
  else if c = 'b' then some '\x08'
  else if c = 'f' then some '\x0c'
  else if c = 'n' then some '\n'
  else if c = 'r' then some '\r'
  else if c = 't' then some '\t'
  else none

/-- Splits the text behind an opening quote at the closing one. Nothing is decoded yet. -/
def rawString : List Char → Option (List Char × List Char)
  | [] => none
  | c :: cs =>
    if c = '"' then some ([], cs)
    else if c = '\\' then match cs with
      | [] => none
      | d :: cs => (rawString cs).map fun (b, rest) => (c :: d :: b, rest)
    else if c.toNat < 0x20 then none
    else (rawString cs).map fun (b, rest) => (c :: b, rest)

/-- Decodes the text between quotes. The code of a character beyond `U+FFFF` is written as two
units. -/
def decode : List Char → Option (List Char)
  | [] => some []
  | '\\' :: 'u' :: a :: b :: c :: d :: cs => do
    let unit ← codeUnit? a b c d
    if 0xD800 ≤ unit && unit ≤ 0xDBFF then
      match cs with
      | '\\' :: 'u' :: a :: b :: c :: d :: cs => do
        let low ← codeUnit? a b c d
        if 0xDC00 ≤ low && low ≤ 0xDFFF then
          let x := Char.ofNat (0x10000 + (unit - 0xD800) * 0x400 + (low - 0xDC00))
          return x :: (← decode cs)
        else none
      | _ => none
    else if 0xDC00 ≤ unit && unit ≤ 0xDFFF then none
    else return Char.ofNat unit :: (← decode cs)
  | '\\' :: c :: cs => do
    let x ← escaped? c
    return x :: (← decode cs)
  | ['\\'] => none
  | c :: cs => do return c :: (← decode cs)

/-- Reads the rest of a string behind its opening quote. -/
def string (cs : List Char) : Option (String × List Char) := do
  let (raw, rest) ← rawString cs
  return (String.ofList (← decode raw), rest)

/-! ## Numbers -/

def digits (cs : List Char) : List Char × List Char :=
  (cs.takeWhile Char.isDigit, cs.dropWhile Char.isDigit)

/-- Reads a point and at least one digit, if a point comes next. -/
def fraction (cs : List Char) : Option (Option (List Char) × List Char) :=
  match cs with
  | '.' :: cs =>
    match digits cs with
    | ([], _) => none
    | (ds, rest) => some (some ds, rest)
  | cs => some (none, cs)

/-- Reads an exponent, if one comes next; tells whether it is negative. -/
def exponent (cs : List Char) : Option (Option (Bool × List Char) × List Char) :=
  match cs with
  | c :: cs =>
    if c = 'e' || c = 'E' then
      let (negative, cs) := match cs with
        | '-' :: cs => (true, cs)
        | '+' :: cs => (false, cs)
        | cs => (false, cs)
      match digits cs with
      | ([], _) => none
      | (ds, rest) => some (some (negative, ds), rest)
    else some (none, c :: cs)
  | [] => some (none, [])

/-- Reads a number. More than one digit before the point may not begin with zero. -/
def number (cs : List Char) : Option (Value × List Char) := do
  let (negative, cs) := match cs with
    | '-' :: cs => (true, cs)
    | cs => (false, cs)
  let (whole, cs) := digits cs
  match whole with
  | [] => none
  | '0' :: _ :: _ => none
  | _ =>
    let (frac, cs) ← fraction cs
    let (exp, cs) ← exponent cs
    return (← Number.ofParts ⟨negative, whole, frac, exp⟩, cs)

/-! ## Values -/

/-- Drops a word that the text begins with. -/
def word? : List Char → List Char → Option (List Char)
  | [], cs => some cs
  | w :: ws, c :: cs => if w = c then word? ws cs else none
  | _ :: _, [] => none

mutual

/-- Reads a value; `depth` more arrays and objects may be opened. -/
def value : Nat → Nat → List Char → Option (Value × List Char)
  | 0, _, _ => none
  | fuel + 1, depth, cs =>
    match skipSpace cs with
    | [] => none
    | c :: cs =>
      if c = '"' then (string cs).map fun (s, rest) => (.string s, rest)
      else if c = '[' then
        match depth with
        | 0 => none
        | d + 1 =>
          match skipSpace cs with
          | ']' :: rest => some (.array [], rest)
          | cs => (elements fuel d cs).map fun (vs, rest) => (.array vs, rest)
      else if c = '{' then
        match depth with
        | 0 => none
        | d + 1 =>
          match skipSpace cs with
          | '}' :: rest => some (.object [], rest)
          | cs => (members fuel d cs).map fun (es, rest) => (Value.ofPairs es, rest)
      else if c = 'n' then (word? ['u', 'l', 'l'] cs).map fun rest => (.null, rest)
      else if c = 't' then (word? ['r', 'u', 'e'] cs).map fun rest => (.bool true, rest)
      else if c = 'f' then (word? ['a', 'l', 's', 'e'] cs).map fun rest => (.bool false, rest)
      else number (c :: cs)

/-- Reads at least one element and the bracket behind the last. -/
def elements : Nat → Nat → List Char → Option (List Value × List Char)
  | 0, _, _ => none
  | fuel + 1, depth, cs => do
    let (v, cs) ← value fuel depth cs
    match skipSpace cs with
    | ',' :: cs => do
      let (vs, rest) ← elements fuel depth cs
      return (v :: vs, rest)
    | ']' :: rest => return ([v], rest)
    | _ => none

/-- Reads at least one member and the brace behind the last. -/
def members : Nat → Nat → List Char → Option (List (String × Value) × List Char)
  | 0, _, _ => none
  | fuel + 1, depth, cs => do
    match skipSpace cs with
    | '"' :: cs => do
      let (key, cs) ← string cs
      match skipSpace cs with
      | ':' :: cs => do
        let (v, cs) ← value fuel depth cs
        match skipSpace cs with
        | ',' :: cs => do
          let (es, rest) ← members fuel depth cs
          return ((key, v) :: es, rest)
        | '}' :: rest => return ([(key, v)], rest)
        | _ => none
      | _ => none
    | _ => none

end

end Reader

/-- How many arrays and objects may lie inside one another. -/
def depthLimit : Nat := 127

/-- The value of a text, if it is JSON. Each step takes a character, so the fuel is enough. -/
def parse? (text : List Char) : Option Value := do
  let (v, rest) ← Reader.value (2 * text.length + 2) depthLimit text
  if (Reader.skipSpace rest).isEmpty then return v else none

end GraphqlCodegen.Json
