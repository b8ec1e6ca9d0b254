import GraphqlCodegen.Text.Hex
/-!
# Percent-encoding

Bytes that a part of a URL cannot hold stand there as a percent sign and two hexadecimal digits.
What has to be encoded depends on the part; everything outside ASCII and all controls always do.
-/

namespace GraphqlCodegen.Http

/-- A digit of an encoded byte. -/
def upperHexDigit (n : Nat) : Char := (Nat.digitChar n).toUpper

/-- An encoded byte. -/
def encodedByte (b : UInt8) : List Char :=
  ['%', upperHexDigit (b.toNat / 16), upperHexDigit (b.toNat % 16)]

/-- The bytes of a character, encoded. -/
def encodedChar (c : Char) : List Char := (String.utf8EncodeChar c).flatMap encodedByte

/-- The character is a control or is outside ASCII. -/
def isUnsafe (c : Char) : Bool := c.toNat < 0x20 || 0x7f ≤ c.toNat

/-- A text in which the characters that a test finds are encoded, besides controls and all that is
outside ASCII. -/
def percentEncode (isEncoded : Char → Bool) (cs : List Char) : List Char :=
  cs.flatMap fun c => if isUnsafe c || isEncoded c then encodedChar c else [c]

/-- What is encoded in a fragment. -/
def isEncodedInFragment (c : Char) : Bool := [' ', '"', '<', '>', '\x60'].contains c

/-- What is encoded in a path. -/
def isEncodedInPath (c : Char) : Bool :=
  isEncodedInFragment c || ['#', '?', '\x7b', '\x7d'].contains c

/-- What is encoded in a user name or password. -/
def isEncodedInUserinfo (c : Char) : Bool :=
  isEncodedInPath c || ['/', ':', ';', '=', '@', '[', '\\', ']', '^', '|'].contains c

/-- What is encoded in a query; the quote only where the scheme is a web scheme. -/
def isEncodedInQuery (isWeb : Bool) (c : Char) : Bool :=
  [' ', '"', '#', '<', '>'].contains c || (isWeb && c = '\'')

/-- The bytes behind a percent-encoded text. A percent sign without two digits stands for itself. -/
def percentDecode : List Char → List UInt8
  | [] => []
  | '%' :: a :: b :: cs =>
    match Text.hexDigit? a, Text.hexDigit? b with
    | some x, some y => UInt8.ofNat (16 * x + y) :: percentDecode cs
    | _, _ => '%'.toUInt8 :: percentDecode (a :: b :: cs)
  | c :: cs => String.utf8EncodeChar c ++ percentDecode cs

/-- A text as the name or the value of a form field: a space becomes a plus sign. -/
def formEncode (cs : List Char) : List Char :=
  cs.flatMap fun c =>
    if c.isAlphanum || ['*', '-', '.', '_'].contains c then [c]
    else if c = ' ' then ['+']
    else encodedChar c

end GraphqlCodegen.Http
