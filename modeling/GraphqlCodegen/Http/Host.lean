import GraphqlCodegen.Http.Percent
/-!
# Hosts

The host of a URL: a name, or an address in one of the two forms. Names are made of ASCII characters
and are written in lower case; a name whose last part is a number has to be an address.
-/

namespace GraphqlCodegen.Http

/-- Why a text is no URL. -/
inductive UrlError where
  /-- There is no scheme. -/
  | relative
  | emptyHost
  | invalidPort
  | invalidIpv4
  | invalidIpv6
  /-- The name of the host cannot be one. -/
  | invalidDomain
  | invalidCharacter
  deriving DecidableEq, Repr

def UrlError.message : UrlError → String
  | .relative => "relative URL without a base"
  | .emptyHost => "empty host"
  | .invalidPort => "invalid port number"
  | .invalidIpv4 => "invalid IPv4 address"
  | .invalidIpv6 => "invalid IPv6 address"
  | .invalidDomain => "invalid international domain name"
  | .invalidCharacter => "invalid domain character"

namespace Host

/-- The parts between separators, one more than there are separators. -/
def splitBy (separator : Char) : List Char → List (List Char)
  | [] => [[]]
  | c :: cs =>
    if c = separator then [] :: splitBy separator cs
    else match splitBy separator cs with
      | [] => [[c]]
      | part :: parts => (c :: part) :: parts

def decimalText (n : Nat) : List Char := Nat.toDigits 10 n

def hexText (n : Nat) : List Char := Nat.toDigits 16 n

/-- The number that digits of a base stand for, if they are all digits of it. -/
def digitsValue? (base : Nat) (cs : List Char) : Option Nat :=
  cs.foldlM (fun n c => do
    let d ← Text.hexDigit? c
    if d < base then some (n * base + d) else none) 0

/-! ## Addresses of four bytes -/

/-- A part of an address: hexadecimal behind `0x`, octal behind `0`, decimal else. -/
def ipv4Part? : List Char → Option Nat
  | [] => none
  | '0' :: 'x' :: cs => digitsValue? 16 cs
  | '0' :: 'X' :: cs => digitsValue? 16 cs
  | '0' :: c :: cs => digitsValue? 8 (c :: cs)
  | cs => digitsValue? 10 cs

/-- The parts of a name, without an empty one at its end. -/
def parts (name : List Char) : List (List Char) :=
  let ps := splitBy '.' name
  if ps.getLast? = some [] then ps.dropLast else ps

/-- The last part is a number, so that the name has to be an address. -/
def endsInNumber (name : List Char) : Bool :=
  match (parts name).getLast? with
  | none | some [] => false
  | some last => last.all Char.isDigit || (ipv4Part? last).isSome

/-- The address as a number: the last part fills the bytes that the parts before it leave. -/
def ipv4? (name : List Char) : Option Nat := do
  let numbers ← (parts name).mapM ipv4Part?
  let last ← numbers.getLast?
  let before := numbers.dropLast
  if before.length > 3 || before.any (· > 255) || last ≥ Nat.pow 256 (4 - before.length) then none
  else
    let high := before.foldl (fun n b => n * 256 + b) 0
    some (high * Nat.pow 256 (4 - before.length) + last)

def ipv4Text (n : Nat) : List Char :=
  decimalText (n / 0x1000000) ++ '.' :: decimalText (n / 0x10000 % 256) ++ '.' ::
    decimalText (n / 0x100 % 256) ++ '.' :: decimalText (n % 256)

/-! ## Addresses of eight groups -/

/-- A group of one to four hexadecimal digits. -/
def ipv6Group? (cs : List Char) : Option Nat :=
  if 1 ≤ cs.length && cs.length ≤ 4 then digitsValue? 16 cs else none

/-- A decimal byte without leading zeros. -/
def byte? (cs : List Char) : Option Nat :=
  if cs.isEmpty || (cs.length > 1 && cs.head? = some '0') then none
  else (digitsValue? 10 cs).filter (· ≤ 255)

/-- Four decimal bytes as two groups. -/
def ipv4Groups? (cs : List Char) : Option (List Nat) := do
  match ← (splitBy '.' cs).mapM byte? with
  | [a, b, c, d] => some [a * 256 + b, c * 256 + d]
  | _ => none

/-- Groups with a colon between each two; the last may be an address of four bytes. -/
def ipv6Groups? (cs : List Char) : Option (List Nat) := do
  let pieces := splitBy ':' cs
  let last ← pieces.getLast?
  let before ← pieces.dropLast.mapM ipv6Group?
  let tail ← if last.contains '.' then ipv4Groups? last else (ipv6Group? last).map ([·])
  return before ++ tail

/-- The text before and behind the first double colon. -/
def splitDouble (before : List Char) : List Char → Option (List Char × List Char)
  | ':' :: ':' :: cs => some (before.reverse, cs)
  | c :: cs => splitDouble (c :: before) cs
  | [] => none

/-- The eight groups of an address: a double colon stands for one or more groups of zeros. -/
def ipv6? (cs : List Char) : Option (List Nat) := do
  match splitDouble [] cs with
  | none =>
    let groups ← ipv6Groups? cs
    if groups.length = 8 then some groups else none
  | some (left, right) =>
    let first ← if left.isEmpty then some [] else (splitBy ':' left).mapM ipv6Group?
    let last ← if right.isEmpty then some [] else ipv6Groups? right
    let missing := 8 - (first.length + last.length)
    if missing = 0 then none else some (first ++ List.replicate missing 0 ++ last)

/-- The length of the zeros that groups begin with. -/
def zeros (groups : List Nat) : Nat := (groups.takeWhile (· = 0)).length

/-- Where the longest run of zeros begins, and its length; the first of several. -/
def longestZeros (start : Nat) (best : Nat × Nat) : List Nat → Nat × Nat
  | [] => best
  | g :: gs =>
    longestZeros (start + 1) (if zeros (g :: gs) > best.2 then (start, zeros (g :: gs)) else best) gs

/-- Groups with a colon between each two. -/
def groupsText : List Nat → List Char
  | [] => []
  | [g] => hexText g
  | g :: gs => hexText g ++ ':' :: groupsText gs

/-- An address in brackets: the longest run of two or more zeros is left out. -/
def ipv6Text (groups : List Nat) : List Char :=
  let (start, count) := longestZeros 0 (0, 1) groups
  let body :=
    if count < 2 then groupsText groups
    else groupsText (groups.take start) ++ [':', ':'] ++ groupsText (groups.drop (start + count))
  '[' :: body ++ [']']

/-! ## Names -/

/-- Characters that no name may hold. -/
def isForbidden (c : Char) : Bool :=
  c.toNat ≤ 0x20 || c.toNat = 0x7f
    || ['#', '/', ':', '<', '>', '?', '@', '[', '\\', ']', '^', '|'].contains c

/-- A name in lower case, if all its characters may stand in one. -/
def domain? (cs : List Char) : Option (List Char) :=
  if cs.any fun c => isForbidden c || c = '%' || c.toNat ≥ 0x80 then none
  else some (cs.map Char.toLower)

/-- A text between brackets. -/
def bracketed? : List Char → Option (Option (List Char))
  | '[' :: cs => some (if cs.getLast? = some ']' then some cs.dropLast else none)
  | _ => none

def ipv6OfBrackets (inner : Option (List Char)) : Except UrlError (List Char) :=
  match inner.bind ipv6? with
  | some groups => .ok (ipv6Text groups)
  | none => .error .invalidIpv6

/-- The host of a web URL, in its normal form. -/
def web (cs : List Char) : Except UrlError (List Char) :=
  match bracketed? cs with
  | some inner => ipv6OfBrackets inner
  | none =>
    match (String.fromUTF8? ⟨(percentDecode cs).toArray⟩).bind fun s => domain? s.toList with
    | none => .error .invalidDomain
    | some [] => .error .emptyHost
    | some name =>
      if endsInNumber name then
        match ipv4? name with
        | some n => .ok (ipv4Text n)
        | none => .error .invalidIpv4
      else .ok name

/-- The host of any other URL keeps its characters. -/
def opaqueHost (cs : List Char) : Except UrlError (List Char) :=
  match bracketed? cs with
  | some inner => ipv6OfBrackets inner
  | none =>
    if cs.any isForbiddenOpaque then .error .invalidCharacter
    else .ok (percentEncode (fun _ => false) cs)
where
  isForbiddenOpaque (c : Char) : Bool :=
    ['\x00', '\t', '\n', '\r', ' ', '#', '/', ':', '<', '>', '?', '@', '[', '\\', ']', '^',
      '|'].contains c

end Host
end GraphqlCodegen.Http
