import GraphqlCodegen.Sdl.Token
import GraphqlCodegen.Sdl.BlockString
import GraphqlCodegen.Text.Hex
/-!
# Reading tokens

Blank space, commas and comments stand between tokens. At most fifty brackets may be open at a
time; the bracket that would be one more is no token.
-/

namespace GraphqlCodegen.Sdl

open GraphqlCodegen.Number (Binary64 Magnitude)

namespace Lexer

mutual

/-- Skips what stands between tokens. A tab is eight columns wide; a carriage return and a
byte-order mark have no width. -/
def skipIgnored : Position → List Char → Position × List Char
  | p, [] => (p, [])
  | p, c :: cs =>
    if c = ' ' || c = ',' then skipIgnored (p.right 1) cs
    else if c = '\t' then skipIgnored (p.right 8) cs
    else if c = '\n' then skipIgnored p.newline cs
    else if c = '\r' || c = '\uFEFF' then skipIgnored p cs
    else if c = '#' then skipComment p cs
    else (p, c :: cs)

/-- Skips the rest of a comment, up to and with the line feed or carriage return that ends it. -/
def skipComment : Position → List Char → Position × List Char
  | p, [] => (p, [])
  | p, c :: cs =>
    if c = '\n' || c = '\r' then skipIgnored p.newline cs else skipComment p cs

end

/-! ## Names and numbers -/

def isNameStart (c : Char) : Bool := c.isAlpha || c = '_'

def isNameChar (c : Char) : Bool := c.isAlphanum || c = '_'

/-- A character that ends a number. -/
def endsNumber (c : Char) : Bool :=
  [' ', '\n', '\r', '\t', ',', '#', '!', '$', ':', '=', '@', '|', '&', '(', ')', '[', ']',
    '{', '}'].contains c

def digitsValue (cs : List Char) : Nat :=
  cs.foldl (fun n c => n * 10 + (c.toNat - '0'.toNat)) 0

/-- Zero, or digits that do not begin with zero; a minus sign may stand in front. -/
def isInt : List Char → Bool
  | '-' :: cs => cs = ['0'] || (cs.head? != some '0' && !cs.isEmpty && cs.all Char.isDigit)
  | cs => cs = ['0'] || (cs.head? != some '0' && !cs.isEmpty && cs.all Char.isDigit)

def intValue : List Char → Int
  | '-' :: cs => -(digitsValue cs : Int)
  | cs => digitsValue cs

/-- A sign with digits behind it, or digits that begin with one of `1` to `8`. -/
def isExponent : List Char → Bool
  | [] => false
  | c :: cs =>
    cs.all Char.isDigit &&
      (if c = '+' || c = '-' then !cs.isEmpty else '1' ≤ c && c ≤ '8')

def exponentValue : List Char → Int
  | '-' :: cs => -(digitsValue cs : Int)
  | '+' :: cs => digitsValue cs
  | cs => digitsValue cs

/-- Splits at the last character of a class and drops that character. -/
def splitLast (p : Char → Bool) : List Char → Option (List Char × List Char)
  | [] => none
  | c :: cs => match splitLast p cs with
    | some (before, after) => some (c :: before, after)
    | none => if p c then some ([], cs) else none

/-- The number with these parts. -/
def floatValue (whole fraction : List Char) (exponent : Int) : Binary64 :=
  let (negative, digits) := match whole with
    | '-' :: cs => (true, cs)
    | cs => (false, cs)
  ⟨negative, Magnitude.ofDecimal (digitsValue (digits ++ fraction))
    (exponent - fraction.length)⟩

/-- The integer has a place among those of 64 bits, one of them the sign. -/
def fitsWord (n : Int) : Bool := -0x8000000000000000 ≤ n && n < 0x8000000000000000

/-- The number that a whole word stands for. An integer has to fit into 64 bits. -/
def numberToken (word : List Char) : Option Token :=
  let (mantissa, exponent) := match splitLast (fun c => c = 'e' || c = 'E') word with
    | some (m, x) => (m, some x)
    | none => (word, none)
  match splitLast (· = '.') mantissa, exponent with
  | some (whole, fraction), none =>
    if isInt whole && !fraction.isEmpty && fraction.all Char.isDigit then
      some (.float (floatValue whole fraction 0))
    else none
  | some (whole, fraction), some x =>
    if isInt whole && !fraction.isEmpty && fraction.all Char.isDigit && isExponent x then
      some (.float (floatValue whole fraction (exponentValue x)))
    else none
  | none, some x =>
    if isInt mantissa && isExponent x then
      some (.float (floatValue mantissa [] (exponentValue x)))
    else none
  | none, none =>
    if isInt word && fitsWord (intValue word) then
      some (.int (intValue word))
    else none

/-! ## Quoted strings -/

/-- Splits the text behind an opening quote at the closing one, the first without a backslash that
counts. A line feed may not come before it. -/
def quotedBody : Bool → List Char → Option (List Char × List Char)
  | _, [] => none
  | escaped, c :: cs =>
    if c = '"' && !escaped then some ([], cs)
    else if c = '\n' then none
    else (quotedBody (!escaped && c == '\\') cs).map fun (b, rest) => (c :: b, rest)

/-- The character with the code that four characters stand for: hexadecimal digits, or a plus
sign and three of them. -/
def codedChar? (code : List Char) : Option Char := do
  let n ← match code with
    | '+' :: cs => Text.hexValue? cs
    | cs => Text.hexValue? cs
  if n.isValidChar then some (Char.ofNat n) else none

/-- The character that a letter behind a backslash stands for. -/
def escapedChar? (c : Char) : Option Char :=
  if c = '"' || c = '\\' || c = '/' then some c
  else if c = 'b' then some '\x10'
  else if c = 'f' then some '\x0c'
  else if c = 'n' then some '\n'
  else if c = 'r' then some '\r'
  else if c = 't' then some '\t'
  else none

/-- The value of a quoted string with the given text between its quotes. -/
def unquote : List Char → Option (List Char)
  | [] => some []
  | '\\' :: 'u' :: a :: b :: c :: d :: cs => do
    let x ← codedChar? [a, b, c, d]
    return x :: (← unquote cs)
  | '\\' :: c :: cs => do
    let x ← escapedChar? c
    return x :: (← unquote cs)
  | ['\\'] => none
  | c :: cs => do return c :: (← unquote cs)

/-! ## Tokens -/

def isMark (c : Char) : Bool :=
  ['(', ')', '[', ']', '{', '}', '!', '$', ':', '=', '@', '|', '&'].contains c

/-- Reads a string, quoted or block: the token, its text, and what follows. -/
def readString : List Char → Option (Token × List Char × List Char)
  | '"' :: '"' :: '"' :: cs => do
    let (raw, rest) ← BlockString.body false cs
    return (.string (String.ofList (BlockString.value raw)),
      '"' :: '"' :: '"' :: raw ++ ['"', '"', '"'], rest)
  | '"' :: cs => do
    let (raw, rest) ← quotedBody false cs
    return (.string (String.ofList (← unquote raw)), '"' :: raw ++ ['"'], rest)
  | _ => none

/-- Reads the token that a text begins with: the token, its text, and what follows. -/
def readToken : List Char → Option (Token × List Char × List Char)
  | [] => none
  | c :: cs =>
    if isMark c then some (.mark c, [c], cs)
    else if isNameStart c then
      let word := c :: cs.takeWhile isNameChar
      some (.name (String.ofList word), word, cs.dropWhile isNameChar)
    else if c = '-' || c.isDigit then
      let word := c :: cs.takeWhile (!endsNumber ·)
      (numberToken word).map fun t => (t, word, cs.dropWhile (!endsNumber ·))
    else if c = '"' then readString (c :: cs)
    else match c, cs with
      | '.', '.' :: '.' :: rest => some (.spread, ['.', '.', '.'], rest)
      | _, _ => none

/-- How many more brackets may be opened behind a token; nothing if it opens one too many. -/
def spend (budget : Nat) : Token → Option Nat
  | .mark c =>
    if c = '(' || c = '[' || c = '{' then
      match budget with
      | 0 => none
      | n + 1 => some n
    else if c = ')' || c = ']' || c = '}' then some (budget + 1)
    else some budget
  | _ => some budget

/-- Reads at most `fuel` tokens. -/
def tokensFrom : Nat → Nat → Position → List Char → Tokens
  | 0, _, p, _ => .stuck p
  | fuel + 1, budget, p, cs =>
    match skipIgnored p cs with
    | (p, []) => .finish p
    | (p, c :: cs) =>
      match readToken (c :: cs) with
      | none => .stuck p
      | some (token, text, rest) =>
        match spend budget token with
        | none => .stuck p
        | some budget => .cons token p (tokensFrom fuel budget (p.past text) rest)

end Lexer

/-- How many brackets may be open at a time. -/
def nestingLimit : Nat := 50

/-- The tokens of a text. Each takes at least one character, so the fuel is enough. -/
def Tokens.ofText (text : List Char) : Tokens :=
  Lexer.tokensFrom (text.length + 1) nestingLimit Position.start text

end GraphqlCodegen.Sdl
