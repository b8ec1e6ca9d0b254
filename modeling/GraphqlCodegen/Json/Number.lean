import GraphqlCodegen.Json.Value
import GraphqlCodegen.Number.Shortest
/-!
# JSON numbers

Reading takes as many digits as fit into 64 bits and applies the power of ten behind them in one
multiplication or division, so a long number may come out next to the nearest one; a number too
large for binary64 is refused. Writing uses the shortest digits.
-/

namespace GraphqlCodegen.Json.Number

open GraphqlCodegen.Number (Binary64 Magnitude Decimal)

/-- The parts of a written number. -/
structure Parts where
  negative : Bool
  whole : List Char
  fraction : Option (List Char)
  exponent : Option (Bool × List Char)

def digitValue (c : Char) : Nat := c.toNat - '0'.toNat

/-- What an integer of 64 bits stays below, without a sign bit and with one. -/
def wordLimit : Nat := 0x10000000000000000

def signedLimit : Nat := 0x8000000000000000

/-- Takes digits into a number as long as it fits into 64 bits; the rest are left over. -/
def absorb : Nat → List Char → Nat × List Char
  | n, [] => (n, [])
  | n, c :: cs =>
    if n * 10 + digitValue c < wordLimit then absorb (n * 10 + digitValue c) cs else (n, c :: cs)

/-- A power of ten from `10 ^ 0` to `10 ^ 308`, rounded. -/
def power (n : Nat) : Magnitude := Magnitude.ofRatio (Nat.pow 10 n) 1

/-- Divides by a power of ten, in steps of `10 ^ 308`. -/
def divide : Nat → Magnitude → Nat → Magnitude
  | 0, _, _ => .zero
  | steps + 1, x, n =>
    if n ≤ 308 then x.div (power n) else divide steps (x.div (power 308)) (n - 308)

/-- The magnitude `significand * 10 ^ exponent`, unless it is too large. Two divisions by
`10 ^ 308` leave nothing of a significand below `2 ^ 64`. -/
def scaled (significand : Nat) (exponent : Int) : Option Magnitude :=
  let x := Magnitude.ofRatio significand 1
  match exponent with
  | .ofNat n =>
    if n ≤ 308 then
      match x.mul (power n) with
      | .infinite => none
      | y => some y
    else if significand = 0 then some .zero
    else none
  | .negSucc n => some (divide 3 x (n + 1))

/-- The value of the parts of a number. -/
def ofParts (p : Parts) : Option Value := do
  let (s, left) := absorb 0 p.whole
  match p.fraction, p.exponent, left with
  | none, none, [] =>
    if p.negative then
      if s = 0 ∨ s > signedLimit then return .float ⟨true, Magnitude.ofRatio s 1⟩
      else return .int (-(s : Int))
    else return .int s
  | fraction, exponent, _ =>
    let digits := fraction.getD []
    let (s, rest) := absorb s digits
    let shift : Int := (left.length : Int) - (digits.length - rest.length : Nat)
    let power : Int := match exponent with
      | none => 0
      | some (true, ds) => -((absorb 0 ds).1 : Int)
      | some (false, ds) => (absorb 0 ds).1
    let m ← scaled s (shift + power)
    return .float ⟨p.negative, m⟩

/-- A number with the shortest digits: whole numbers keep one zero behind the point, and an
exponent is written below `1e-5` and from `1e16` on. -/
def floatText (x : Binary64) : List Char :=
  let d := x.magnitude.shortest
  let body :=
    if d.digits.isEmpty then ['0', '.', '0']
    else if -5 ≤ d.point - 1 && d.point - 1 ≤ 15 then
      if (d.digits.length : Int) ≤ d.point then d.positional ++ ['.', '0'] else d.positional
    else d.scientific
  if x.negative then '-' :: body else body

end GraphqlCodegen.Json.Number
