/-!
# Binary64 numbers

The numbers that a schema or a JSON text can hold beside integers. A magnitude is
`mantissa * 2 ^ exponent`; all the arithmetic is exact on natural numbers and rounds once, to the
nearest magnitude, a tie going to the even mantissa.
-/

namespace GraphqlCodegen.Number

/-- What a binary64 number is without its sign. A finite one has a mantissa below `2 ^ 53` and an
exponent from `-1074` to `971`; the mantissa is below `2 ^ 52` only at the least exponent. -/
inductive Magnitude where
  | finite (mantissa : Nat) (exponent : Int)
  | infinite
  deriving DecidableEq, Repr

structure Binary64 where
  negative : Bool
  magnitude : Magnitude
  deriving DecidableEq, Repr

/-- The integer nearest to `num / den`, a half going to the even one. -/
def roundHalfEven (num den : Nat) : Nat :=
  let q := num / den
  let r := num % den
  if 2 * r < den || (2 * r == den && q % 2 == 0) then q else q + 1

namespace Magnitude

def zero : Magnitude := .finite 0 (-1074)

/-- The least mantissa above the least exponent, `2 ^ 52`; every mantissa is below twice of it. -/
def leastNormal : Nat := 0x10000000000000

/-- `num / den / 2 ^ e` as a numerator and a denominator. -/
def scale (num den : Nat) (e : Int) : Nat × Nat :=
  match e with
  | .ofNat e => (num, den * Nat.pow 2 e)
  | .negSucc e => (num * Nat.pow 2 (e + 1), den)

/-- The magnitude nearest to `num / den`. -/
def ofRatio (num den : Nat) : Magnitude :=
  if num = 0 then zero
  else
    let low : Int := (num.log2 : Int) - den.log2 - 53
    let (n, d) := scale num den low
    let e := max (if n / d < 2 * leastNormal then low else low + 1) (-1074)
    let (n, d) := scale num den e
    let m := roundHalfEven n d
    let (m, e) := if m = 2 * leastNormal then (leastNormal, e + 1) else (m, e)
    if e > 971 then infinite else finite m e

/-- The magnitude nearest to `digits * 10 ^ exponent`. Exponents that are far out of range are
decided without the power. -/
def ofDecimal (digits : Nat) (exponent : Int) : Magnitude :=
  if digits = 0 then zero
  else if exponent > 400 then infinite
  else if exponent < -(400 + (digits.log2 : Int)) then zero
  else match exponent with
    | .ofNat e => ofRatio (digits * Nat.pow 10 e) 1
    | .negSucc e => ofRatio digits (Nat.pow 10 (e + 1))

/-- The exact value as a numerator and a denominator; nothing for the infinite magnitude. -/
def ratio? : Magnitude → Option (Nat × Nat)
  | .finite m (.ofNat e) => some (m * Nat.pow 2 e, 1)
  | .finite m (.negSucc e) => some (m, Nat.pow 2 (e + 1))
  | .infinite => none

/-- The product, rounded once. -/
def mul (x y : Magnitude) : Magnitude :=
  match x.ratio?, y.ratio? with
  | some (a, b), some (c, d) => ofRatio (a * c) (b * d)
  | _, _ => infinite

/-- The quotient, rounded once. -/
def div (x y : Magnitude) : Magnitude :=
  match x.ratio?, y.ratio? with
  | some (a, b), some (c, d) => ofRatio (a * d) (b * c)
  | some _, none => zero
  | none, _ => infinite

/-- Zero is the finite magnitude with mantissa zero. -/
def isZero : Magnitude → Bool
  | .finite m _ => m == 0
  | .infinite => false

end Magnitude
end GraphqlCodegen.Number
