import GraphqlCodegen.Number.Binary64
import GraphqlCodegen.Toml.Atoms
/-!
# Scalars of a settings file

The words that stand for values other than strings: truth values, integers of 64 bits, binary64
numbers, dates and times. Only strings are ever read out of the file, so that all there is to know
of such a word is whether it is one.
-/

namespace GraphqlCodegen.Toml

/-! ## Numbers -/

/-- Digits with single underscores between them; the digits alone. -/
def groupedDigits (isDigit : Char → Bool) : List Char → Option (List Char)
  | [] => none
  | [c] => if isDigit c then some [c] else none
  | c :: '_' :: cs => if isDigit c then (groupedDigits isDigit cs).map (c :: ·) else none
  | c :: cs => if isDigit c then (groupedDigits isDigit cs).map (c :: ·) else none

def digitsValue (base : Nat) (digits : List Char) : Nat :=
  digits.foldl (fun n c => n * base + (Text.hexDigit? c).getD 0) 0

/-- A sign, and what stands behind it. -/
def splitSign : List Char → Bool × List Char
  | '-' :: cs => (true, cs)
  | '+' :: cs => (false, cs)
  | cs => (false, cs)

def hasLeadingZero (digits : List Char) : Bool := digits.length > 1 && digits.head? = some '0'

def isOctal (c : Char) : Bool := '0' ≤ c && c ≤ '7'

def isBinary (c : Char) : Bool := c = '0' || c = '1'

def isHex (c : Char) : Bool := (Text.hexDigit? c).isSome

/-- What an integer stays below; a negative one may be as far from zero as this. -/
def integerLimit : Nat := 0x8000000000000000

/-- Digits in another base than ten. -/
def isBased (base : Nat) (isDigit : Char → Bool) (cs : List Char) : Bool :=
  match groupedDigits isDigit cs with
  | some digits => digitsValue base digits < integerLimit
  | none => false

def isDecimal (cs : List Char) : Bool :=
  let (negative, body) := splitSign cs
  match groupedDigits Char.isDigit body with
  | some digits =>
    !hasLeadingZero digits && digitsValue 10 digits < integerLimit + (if negative then 1 else 0)
  | none => false

def isInteger : List Char → Bool
  | '0' :: 'x' :: cs => isBased 16 isHex cs
  | '0' :: 'o' :: cs => isBased 8 isOctal cs
  | '0' :: 'b' :: cs => isBased 2 isBinary cs
  | cs => isDecimal cs

/-- The fraction behind a point, or none. -/
def fractionDigits : List Char → Option (List Char)
  | [] => some []
  | '.' :: cs => groupedDigits Char.isDigit cs
  | _ => none

/-- The exponent behind its mark, or none. -/
def exponentValue : List Char → Option Int
  | [] => some 0
  | _ :: cs =>
    let (negative, body) := splitSign cs
    (groupedDigits Char.isDigit body).map fun digits =>
      if negative then -(digitsValue 10 digits : Int) else digitsValue 10 digits

def isExponentMark (c : Char) : Bool := c = 'e' || c = 'E'

/-- A number with a fraction or an exponent that is not too large. -/
def isFloat (cs : List Char) : Bool :=
  let (_, body) := splitSign cs
  if body = "inf".toList || body = "nan".toList then true
  else
    let front := body.takeWhile (!isExponentMark ·)
    let whole := front.takeWhile (· != '.')
    match groupedDigits Char.isDigit whole, fractionDigits (front.dropWhile (· != '.')),
      exponentValue (body.dropWhile (!isExponentMark ·)) with
    | some ds, some fraction, some exponent =>
      !hasLeadingZero ds && (front.length < body.length || !fraction.isEmpty)
        && Number.Magnitude.ofDecimal (digitsValue 10 (ds ++ fraction))
          (exponent - fraction.length) != .infinite
    | _, _, _ => false

/-! ## Dates and times -/

/-- A number of exactly so many digits. -/
def fixedNumber (count : Nat) (cs : List Char) : Option (Nat × List Char) :=
  let digits := cs.take count
  if digits.length = count && digits.all Char.isDigit then
    some (digitsValue 10 digits, cs.drop count)
  else none

def isLeapYear (year : Nat) : Bool := year % 4 = 0 && (year % 100 != 0 || year % 400 = 0)

def daysOfMonth (year month : Nat) : Nat :=
  if month = 2 then (if isLeapYear year then 29 else 28)
  else if [4, 6, 9, 11].contains month then 30 else 31

/-- What stands behind a date. -/
def date (cs : List Char) : Option (List Char) := do
  let (year, cs) ← fixedNumber 4 cs
  let '-' :: cs := cs | none
  let (month, cs) ← fixedNumber 2 cs
  let '-' :: cs := cs | none
  let (day, cs) ← fixedNumber 2 cs
  if 1 ≤ month && month ≤ 12 && 1 ≤ day && day ≤ daysOfMonth year month then some cs else none

/-- What stands behind the seconds of a time, which may be left out. -/
def seconds : List Char → Option (List Char)
  | ':' :: cs => do
    let (second, cs) ← fixedNumber 2 cs
    if second > 60 then none
    else match cs with
      | '.' :: cs =>
        if (cs.takeWhile Char.isDigit).isEmpty then none else some (cs.dropWhile Char.isDigit)
      | cs => some cs
  | cs => some cs

/-- Hours and minutes. -/
def hourMinute (cs : List Char) : Option (List Char) := do
  let (hour, cs) ← fixedNumber 2 cs
  let ':' :: cs := cs | none
  let (minute, cs) ← fixedNumber 2 cs
  if hour ≤ 23 && minute ≤ 59 then some cs else none

def time (cs : List Char) : Option (List Char) := do seconds (← hourMinute cs)

/-- The rest of a time is its distance from the zero meridian, or nothing. -/
def isOffset : List Char → Bool
  | [] => true
  | ['Z'] => true
  | ['z'] => true
  | '+' :: cs => hourMinute cs = some []
  | '-' :: cs => hourMinute cs = some []
  | _ => false

def isDateTime (cs : List Char) : Bool :=
  match date cs with
  | some [] => true
  | some (c :: rest) =>
    (c = 'T' || c = 't' || c = ' ') && match time rest with
      | some rest => isOffset rest
      | none => false
  | none => time cs = some []

/-! ## Words -/

def isWordChar (c : Char) : Bool :=
  c.isAlphanum || c = '_' || c = '-' || c = '+' || c = '.' || c = ':'

/-- The word in front. A date with a time behind a space is one word. -/
def splitWord (cs : List Char) : List Char × List Char :=
  let word := cs.takeWhile isWordChar
  match date word, cs.dropWhile isWordChar with
  | some [], ' ' :: c :: rest =>
    if c.isDigit then
      (word ++ ' ' :: (c :: rest).takeWhile isWordChar, (c :: rest).dropWhile isWordChar)
    else (word, ' ' :: c :: rest)
  | _, rest => (word, rest)

/-- The word stands for a value. -/
def isScalar (word : List Char) : Bool :=
  word = "true".toList || word = "false".toList || isInteger word || isFloat word || isDateTime word

end GraphqlCodegen.Toml
