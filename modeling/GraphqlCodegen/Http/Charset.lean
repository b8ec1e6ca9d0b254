import GraphqlCodegen.Http.CodePage
import GraphqlCodegen.Http.Headers
/-!
# Character sets

How the bytes of a body become text. A byte order mark decides; without one it is the character set
that the content type names, and else UTF-8. Bytes that stand for no character become `U+FFFD`.
-/

namespace GraphqlCodegen.Http

inductive Charset where
  | utf8
  | utf16 (bigEndian : Bool)
  | codePage (page : CodePage)
  /-- Bytes from `0x80` on stand for characters of private use. -/
  | privateUse
  /-- Character sets whose bytes are never read. -/
  | unread
  deriving DecidableEq, Repr

namespace Charset

open CodePage (replacement)

/-! ## UTF-8 -/

/-- What is known of a character of several bytes: the bits so far, how many bytes are missing, and
the range of the next. -/
structure Pending where
  bits : Nat
  missing : Nat
  low : Nat
  high : Nat
  deriving DecidableEq, Repr

/-- The first byte of a character: the character, what follows of it, or nothing. -/
def firstByte (b : Nat) : Char ⊕ Option Pending :=
  if b < 0x80 then .inl (Char.ofNat b)
  else if 0xc2 ≤ b && b ≤ 0xdf then .inr (some ⟨b - 0xc0, 1, 0x80, 0xbf⟩)
  else if b = 0xe0 then .inr (some ⟨0, 2, 0xa0, 0xbf⟩)
  else if b = 0xed then .inr (some ⟨13, 2, 0x80, 0x9f⟩)
  else if 0xe1 ≤ b && b ≤ 0xef then .inr (some ⟨b - 0xe0, 2, 0x80, 0xbf⟩)
  else if b = 0xf0 then .inr (some ⟨0, 3, 0x90, 0xbf⟩)
  else if b = 0xf4 then .inr (some ⟨4, 3, 0x80, 0x8f⟩)
  else if 0xf1 ≤ b && b ≤ 0xf3 then .inr (some ⟨b - 0xf0, 3, 0x80, 0xbf⟩)
  else .inr none

/-- A byte where a character begins: the characters that it ends, and what it begins. -/
def beginAt (b : Nat) : List Char × Option Pending :=
  match firstByte b with
  | .inl c => ([c], none)
  | .inr (some p) => ([], some p)
  | .inr none => ([replacement], none)

/-- One byte: the characters that it ends, and what is pending behind it. A byte out of its range
ends the character in front of it and begins a new one. -/
def utf8Step (pending : Option Pending) (b : Nat) : List Char × Option Pending :=
  match pending with
  | none => beginAt b
  | some p =>
    if p.low ≤ b && b ≤ p.high then
      let bits := p.bits * 64 + (b - 0x80)
      if p.missing = 1 then ([Char.ofNat bits], none)
      else ([], some ⟨bits, p.missing - 1, 0x80, 0xbf⟩)
    else
      let (cs, next) := beginAt b
      (replacement :: cs, next)

def decodeUtf8 (pending : Option Pending) : List UInt8 → List Char
  | [] => if pending.isSome then [replacement] else []
  | b :: bs =>
    let (cs, next) := utf8Step pending b.toNat
    cs ++ decodeUtf8 next bs

/-! ## UTF-16 -/

/-- The units of two bytes; a byte left over at the end becomes no unit. -/
def units (bigEndian : Bool) : List UInt8 → List (Option Nat)
  | [] => []
  | [_] => [none]
  | a :: b :: bs =>
    some (if bigEndian then a.toNat * 256 + b.toNat else b.toNat * 256 + a.toNat)
      :: units bigEndian bs

def isLead (u : Nat) : Bool := 0xd800 ≤ u && u ≤ 0xdbff

def isTrail (u : Nat) : Bool := 0xdc00 ≤ u && u ≤ 0xdfff

/-- Units as characters; half a pair is replaced. -/
def ofUnits : List (Option Nat) → List Char
  | [] => []
  | none :: us => replacement :: ofUnits us
  | [some u] => [if isLead u || isTrail u then replacement else Char.ofNat u]
  | some u :: some v :: us =>
    if isLead u && isTrail v then
      Char.ofNat (0x10000 + (u - 0xd800) * 0x400 + (v - 0xdc00)) :: ofUnits us
    else
      (if isLead u || isTrail u then replacement else Char.ofNat u) :: ofUnits (some v :: us)
  | some u :: none :: us =>
    if isLead u then replacement :: ofUnits us
    else (if isTrail u then replacement else Char.ofNat u) :: ofUnits (none :: us)

/-! ## Private use -/

/-- The character of a byte: from `0x80` on the bytes follow `U+F780`. -/
def privateChar (b : UInt8) : Char :=
  if b.toNat < 0x80 then Char.ofNat b.toNat else Char.ofNat (b.toNat - 0x80 + 0xf780)

/-! ## Names -/

/-- The names of each character set. -/
def labels : List (Charset × List String) := [
  (.utf8, ["unicode-1-1-utf-8", "unicode11utf8", "unicode20utf8", "utf-8", "utf8",
    "x-unicode20utf8"]),
  (.utf16 true, ["unicodefffe", "utf-16be"]),
  (.utf16 false, ["csunicode", "iso-10646-ucs-2", "ucs-2", "unicode", "unicodefeff", "utf-16",
    "utf-16le"]),
  (.privateUse, ["x-user-defined"]),
  (.unread, ["csiso2022kr", "hz-gb-2312", "iso-2022-cn", "iso-2022-cn-ext", "iso-2022-kr",
    "replacement"])]
  ++ CodePage.all.map fun page => (.codePage page, page.labels)

def isLabelSpace (c : Char) : Bool := [' ', '\t', '\n', '\x0c', '\r'].contains c

/-- The character set of a name; case and spaces around it do not matter. -/
def ofLabel? (label : List Char) : Option Charset :=
  let name := ((label.dropWhile isLabelSpace).reverse.dropWhile isLabelSpace).reverse.map
    Char.toLower
  (labels.find? fun l => l.2.any (·.toList == name)).map (·.1)

/-! ## The content type -/

/-- A character of a quoted parameter. -/
def isQuotedChar (c : Char) : Bool := 0x20 ≤ c.toNat && c.toNat < 0x7f

/-- The rest of a quoted parameter behind its opening quote, and what follows the closing one. -/
def quotedValue (escaped : Bool) : List Char → Option (List Char × List Char)
  | [] => none
  | c :: cs =>
    if !isQuotedChar c then none
    else if escaped then (quotedValue false cs).map fun r => (c :: r.1, r.2)
    else if c = '"' then some ([], cs)
    else (quotedValue (c = '\\') cs).map fun r => (c :: r.1, r.2)

/-- The value of a parameter, and what follows it: the next semicolon or nothing. -/
def parameterValue : List Char → Option (List Char × List Char)
  | '"' :: cs => do
    let (value, rest) ← quotedValue false cs
    return (value, rest.dropWhile (· = ' '))
  | cs => some (cs.takeWhile Header.isTokenChar, cs.dropWhile Header.isTokenChar)

/-- The parameters behind a media type; each begins with a semicolon, so the length of the text is
fuel enough. -/
def parameters : Nat → List Char → Option (List (List Char × List Char))
  | 0, _ => none
  | _ + 1, [] => some []
  | fuel + 1, c :: cs =>
    if c != ';' then none
    else
      let cs := cs.dropWhile (· = ' ')
      if cs.isEmpty then some []
      else
        let name := cs.takeWhile Header.isTokenChar
        match cs.dropWhile Header.isTokenChar with
        | '=' :: value => do
          if name.isEmpty then none
          let (value, rest) ← parameterValue value
          return (name.map Char.toLower, value) :: (← parameters fuel rest)
        | _ => none

/-- The character set that a content type names, if it is well formed. -/
def named? (contentType : List Char) : Option (List Char) := do
  let kind := contentType.takeWhile Header.isTokenChar
  match contentType.dropWhile Header.isTokenChar with
  | '/' :: cs =>
    if kind.isEmpty || (cs.takeWhile Header.isTokenChar).isEmpty then none
    let found ← parameters (cs.length + 1) (cs.dropWhile Header.isTokenChar)
    return (← found.find? (·.1 == "charset".toList)).2
  | _ => none

/-- The character set of a body whose bytes do not say it. -/
def ofContentType (contentType : Option String) : Charset :=
  ((contentType.bind fun t => named? t.toList).bind ofLabel?).getD .utf8

/-! ## The whole -/

/-- The text of bytes in a character set. -/
def decode : Charset → List UInt8 → List Char
  | .utf8, bytes => decodeUtf8 none bytes
  | .utf16 bigEndian, bytes => ofUnits (units bigEndian bytes)
  | .codePage page, bytes => page.decode bytes
  | .privateUse, bytes => bytes.map privateChar
  | .unread, bytes => if bytes.isEmpty then [] else [replacement]

/-- The text of a body. A byte order mark is no part of it. -/
def bodyText (contentType : Option String) : List UInt8 → String
  | 0xef :: 0xbb :: 0xbf :: bytes => String.ofList (decode .utf8 bytes)
  | 0xff :: 0xfe :: bytes => String.ofList (decode (.utf16 false) bytes)
  | 0xfe :: 0xff :: bytes => String.ofList (decode (.utf16 true) bytes)
  | bytes => String.ofList (decode (ofContentType contentType) bytes)

end Charset
end GraphqlCodegen.Http
