import GraphqlCodegen.Script.Quoted
import GraphqlCodegen.Text.Hex

/-!
# Literals and keys as the language reads them

A literal between double quotes is read character by character up to the quote that ends it, and stands for code units of 16
bits (`readLiteral`). No line ends within it, but the separators of lines and of paragraphs may stand in it. Behind a backslash
stands an escape sequence, or the end of a line that is left out; octal escapes are none, since modules are strict code.

A string is written as a literal that stands for it, except that an end of a line in it is written as it is: the text is no
literal then (`quoted_denotes`). A key that is not quoted is an identifier.
-/

namespace GraphqlCodegen.Script

/-! ## Reading a literal -/

/-- The code units of a code point: itself, or two of the surrogates. -/
def codeUnits (n : Nat) : List Nat :=
  if n < 0x10000 then [n] else [0xD800 + (n - 0x10000) / 0x400, 0xDC00 + (n - 0x10000) % 0x400]

/-- The code units that a string has as a value of the language. -/
def unitsOf (s : String) : List Nat := s.toList.flatMap fun c => codeUnits c.toNat

/-- The character ends a line of a literal. -/
def endsLiteral (c : Char) : Bool := c = '\n' || c = '\r'

/-- A character behind a backslash that stands for another one, or for itself. -/
def singleEscape : Char → List Nat
  | 'b' => [8]
  | 't' => [9]
  | 'n' => [10]
  | 'v' => [11]
  | 'f' => [12]
  | 'r' => [13]
  | c => codeUnits c.toNat

/-- What stands behind a backslash: its code units, and the number of its characters. -/
def escapeSequence : List Char → Option (List Nat × Nat)
  | 'x' :: a :: b :: _ => (Text.hexValue? [a, b]).map fun n => ([n], 3)
  | 'u' :: '{' :: cs =>
    let digits := cs.takeWhile (· != '}')
    if digits.isEmpty || digits.length = cs.length then none
    else match Text.hexValue? digits with
      | some n => if n ≤ 0x10FFFF then some (codeUnits n, digits.length + 3) else none
      | none => none
  | 'u' :: a :: b :: c :: d :: _ => (Text.hexValue? [a, b, c, d]).map fun n => ([n], 5)
  | '0' :: cs => if cs.head?.any Char.isDigit then none else some ([0], 1)
  | '\r' :: '\n' :: _ => some ([], 2)
  | c :: _ =>
    if endsLiteral c || c = '\u2028' || c = '\u2029' then some ([], 1)
    else if c.isDigit || c = 'x' || c = 'u' then none
    else some (singleEscape c, 1)
  | [] => none

/-- The code units up to the quote that ends the literal, and what stands behind it. As many characters as given have been read
with an escape sequence in front of them. -/
def readCharacters : Nat → List Char → Option (List Nat × List Char)
  | _, [] => none
  | k + 1, _ :: cs => readCharacters k cs
  | 0, c :: cs =>
    if c = '"' then some ([], cs)
    else if endsLiteral c then none
    else if c = '\\' then
      (escapeSequence cs).bind fun (units, k) => (readCharacters k cs).map fun (us, rest) => (units ++ us, rest)
    else (readCharacters 0 cs).map fun (us, rest) => (codeUnits c.toNat ++ us, rest)

/-- A literal between double quotes, and what stands behind it. -/
def readLiteral : List Char → Option (List Nat × List Char)
  | '"' :: cs => readCharacters 0 cs
  | _ => none

/-! ## What is written is read -/

/-- A line ends within the string. -/
def HasLineEnd (s : String) : Prop := ∃ c ∈ s.toList, endsLiteral c = true

instance (s : String) : Decidable (HasLineEnd s) := List.decidableBEx _ _

/-- A character as it is written is read as its code units, unless it ends a line. -/
theorem readCharacters_escapeChar (c : Char) (cs : List Char) : readCharacters 0 (escapeChar c ++ cs) =
    if endsLiteral c then none else (readCharacters 0 cs).map fun (us, rest) => (codeUnits c.toNat ++ us, rest) := by
  unfold escapeChar
  split
  · rename_i h
    subst h
    simp [readCharacters, escapeSequence, endsLiteral, singleEscape]
  · rename_i hbackslash
    split
    · rename_i h
      subst h
      simp [readCharacters, escapeSequence, endsLiteral, singleEscape]
    · rename_i hquote
      simp [readCharacters, hbackslash, hquote]

theorem readCharacters_escape (cs rest : List Char) : readCharacters 0 (cs.flatMap escapeChar ++ '"' :: rest) =
    if cs.any endsLiteral then none else some (cs.flatMap fun c => codeUnits c.toNat, rest) := by
  induction cs with
  | nil => simp [readCharacters]
  | cons c cs ih =>
    rw [List.flatMap_cons, List.append_assoc, readCharacters_escapeChar, ih, List.any_cons]
    cases endsLiteral c with
    | true => rfl
    | false =>
      cases cs.any endsLiteral with
      | true => rfl
      | false => rfl

theorem readLiteral_quoted (s : String) (rest : List Char) :
    readLiteral ((quoted s).toList ++ rest) = if HasLineEnd s then none else some (unitsOf s, rest) := by
  rw [toList_quoted, readLiteral, readCharacters_escape]
  by_cases h : HasLineEnd s
  · rw [if_pos h, if_pos (List.any_eq_true.2 h)]
  · rw [if_neg h, if_neg fun hany => h (List.any_eq_true.1 hany), unitsOf]

/-! ## Keys -/

/-- The character may begin an identifier; of those beyond ASCII none is used here. -/
def IsIdentifierStart (c : Char) : Prop := c = '$' ∨ c = '_' ∨ 'A' ≤ c ∧ c ≤ 'Z' ∨ 'a' ≤ c ∧ c ≤ 'z'

/-- A name of an identifier that is made of ASCII characters. Reserved words are names too. -/
def IsIdentifierName : List Char → Prop
  | [] => False
  | c :: cs => IsIdentifierStart c ∧ ∀ x ∈ cs, IsIdentifierStart x ∨ '0' ≤ x ∧ x ≤ '9'

theorem isKeyStart_iff (c : Char) : isKeyStart c = true ↔ IsIdentifierStart c := by
  have hupper : c.isUpper = true ↔ 'A' ≤ c ∧ c ≤ 'Z' := decide_eq_true_iff
  have hlower : c.isLower = true ↔ 'a' ≤ c ∧ c ≤ 'z' :=
    Bool.and_eq_true_iff.trans (and_congr decide_eq_true_iff decide_eq_true_iff)
  have hletter : c.isAlpha = (c.isUpper || c.isLower) := rfl
  simp only [isKeyStart, hletter, hupper, hlower, Bool.or_eq_true, decide_eq_true_eq, IsIdentifierStart]
  constructor
  · rintro (((h | h) | h) | h)
    · exact .inr (.inr (.inl h))
    · exact .inr (.inr (.inr h))
    · exact .inr (.inl h)
    · exact .inl h
  · rintro (h | h | h | h)
    · exact .inr h
    · exact .inl (.inr h)
    · exact .inl (.inl (.inl h))
    · exact .inl (.inl (.inr h))

theorem isKeyChar_iff (c : Char) : isKeyChar c = true ↔ IsIdentifierStart c ∨ '0' ≤ c ∧ c ≤ '9' := by
  have hdigit : c.isDigit = true ↔ '0' ≤ c ∧ c ≤ '9' := by simp [Char.isDigit, Char.le_def]
  rw [← isKeyStart_iff, ← hdigit]
  simp only [isKeyChar, isKeyStart, Char.isAlphanum, Bool.or_eq_true]
  grind

theorem needsQuotes_eq_false_iff (key : String) : needsQuotes key = false ↔ IsIdentifierName key.toList := by
  unfold needsQuotes
  cases key.toList with
  | nil => simp [IsIdentifierName]
  | cons c cs =>
    simp only [Bool.not_eq_false', Bool.and_eq_true, List.all_eq_true, List.mem_cons, forall_eq_or_imp, isKeyStart_iff,
      isKeyChar_iff, IsIdentifierName]
    exact ⟨fun h => ⟨h.1, h.2.2⟩, fun h => ⟨h.1, .inl h.1, h.2⟩⟩

/-- A string is written as a literal that stands for it, whatever follows, or as no literal at all if a line ends within it. A key
is written in the same way, or as it is if it is an identifier. -/
theorem quoted_denotes (s : String) :
    (∀ rest, readLiteral ((quoted s).toList ++ rest) = if HasLineEnd s then none else some (unitsOf s, rest)) ∧
    (keyText s = quoted s ∧ ¬IsIdentifierName s.toList ∨ keyText s = s ∧ IsIdentifierName s.toList) := by
  refine ⟨readLiteral_quoted s, ?_⟩
  rw [← needsQuotes_eq_false_iff, keyText]
  cases needsQuotes s with
  | true => exact .inl ⟨rfl, by simp⟩
  | false => exact .inr ⟨rfl, rfl⟩

end GraphqlCodegen.Script
