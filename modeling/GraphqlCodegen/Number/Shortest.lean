import GraphqlCodegen.Number.Binary64
/-!
# Shortest digits

The fewest decimal digits that read back as a given magnitude, and of those the ones nearest to it,
with the two ways to lay such digits out: all places written, or one digit before the point and an
exponent.
-/

namespace GraphqlCodegen.Number

/-- The value `0.d₁d₂… * 10 ^ point`. -/
structure Decimal where
  digits : List Char
  point : Int
  deriving DecidableEq, Repr

/-- The digits without the zeros that they end with. -/
def stripZeros (digits : List Char) : List Char :=
  (digits.reverse.dropWhile (· == '0')).reverse

/-- `num / den / 10 ^ e` as a numerator and a denominator. -/
def scaleTen (num den : Nat) (e : Int) : Nat × Nat :=
  match e with
  | .ofNat e => (num, den * Nat.pow 10 e)
  | .negSucc e => (num * Nat.pow 10 (e + 1), den)

/-- The number of digits before the point in `num / den`: the least `p` with `num / den < 10 ^ p`.
The estimate from the binary lengths is off by at most two. -/
def pointOf (num den : Nat) : Int :=
  let estimate := (((num.log2 : Int) - den.log2) * 30103).fdiv 100000
  let below (p : Int) : Bool :=
    let (n, d) := scaleTen num den p
    n < d
  match [estimate - 1, estimate, estimate + 1].find? below with
  | some p => p
  | none => estimate + 2

namespace Magnitude

/-- The numbers that round to `mantissa * 2 ^ exponent` lie between these two multiples of
`2 ^ (exponent - 2)`. A mantissa that is a power of two is nearer to its lower neighbour. -/
def bounds (mantissa : Nat) (exponent : Int) : Nat × Nat :=
  if mantissa = Magnitude.leastNormal ∧ exponent > -1074 then (4 * mantissa - 1, 4 * mantissa + 2)
  else (4 * mantissa - 2, 4 * mantissa + 2)

/-- The digits on the grid of `count` places that read back as `mantissa * 2 ^ exponent`, if
one of the two grid points around it does; of two the nearer. -/
def digitsOn (mantissa : Nat) (exponent : Int) (count : Nat) : Option Decimal :=
  let (num, den) := scale (4 * mantissa) 1 (-(exponent - 2))
  let (low, high) := bounds mantissa exponent
  let (lowNum, lowDen) := scale low 1 (-(exponent - 2))
  let (highNum, highDen) := scale high 1 (-(exponent - 2))
  let point := pointOf num den
  let grid := point - count
  let (n, d) := scaleTen num den grid
  let down := n / d
  let inside (x : Nat) : Bool :=
    let (ln, ld) := scaleTen lowNum lowDen grid
    let (hn, hd) := scaleTen highNum highDen grid
    if mantissa % 2 = 0 then ln ≤ x * ld && x * hd ≤ hn else ln < x * ld && x * hd < hn
  let pick (x : Nat) : Decimal :=
    let digits := Nat.toDigits 10 x
    ⟨stripZeros digits, point + (digits.length : Int) - count⟩
  match inside down, inside (down + 1) with
  | true, true => some (if 2 * (n % d) ≤ d then pick down else pick (down + 1))
  | true, false => some (pick down)
  | false, true => some (pick (down + 1))
  | false, false => none

/-- The fewest digits that read back; seventeen always do. Zero has no digits. -/
def shortest : Magnitude → Decimal
  | .infinite => ⟨[], 0⟩
  | .finite 0 _ => ⟨[], 0⟩
  | .finite m e =>
    match ((List.range 17).map (· + 1)).findSome? (digitsOn m e) with
    | some d => d
    | none => ⟨[], 0⟩

end Magnitude

namespace Decimal

/-- All places written: `0.001`, `1.5`, `1000`. No point without digits behind it. -/
def positional (d : Decimal) : List Char :=
  if d.digits.isEmpty then ['0']
  else if d.point ≤ 0 then
    '0' :: '.' :: List.replicate (-d.point).toNat '0' ++ d.digits
  else if (d.digits.length : Int) ≤ d.point then
    d.digits ++ List.replicate (d.point.toNat - d.digits.length) '0'
  else
    d.digits.take d.point.toNat ++ '.' :: d.digits.drop d.point.toNat

/-- The text of an integer. -/
def intText (i : Int) : List Char :=
  match i with
  | .ofNat n => Nat.toDigits 10 n
  | .negSucc n => '-' :: Nat.toDigits 10 (n + 1)

/-- One digit before the point and a signed exponent: `1.5e+20`, `1e-7`. -/
def scientific (d : Decimal) : List Char :=
  let exponent := d.point - 1
  let mark := if exponent < 0 then intText exponent else '+' :: intText exponent
  match d.digits with
  | [] => ['0']
  | [a] => a :: 'e' :: mark
  | a :: rest => a :: '.' :: rest ++ 'e' :: mark

end Decimal

/-- Every place written and no exponent: `1.5`, `-0`, `inf`. -/
def Binary64.plain (x : Binary64) : String :=
  let body := match x.magnitude with
    | .infinite => ['i', 'n', 'f']
    | m => m.shortest.positional
  String.ofList (if x.negative then '-' :: body else body)

end GraphqlCodegen.Number
