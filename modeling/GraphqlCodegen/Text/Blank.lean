/-!
# Blank characters

The characters of the Unicode property White_Space, and the trimming of a text by them. Source
arguments, header fields and response bodies are trimmed with this class, and a line is blank when
it holds nothing else.
-/

namespace GraphqlCodegen.Text

/-- The character has the Unicode property White_Space. -/
def isBlank (c : Char) : Bool :=
  let n := c.toNat
  (9 ≤ n && n ≤ 13) || n == 0x20 || n == 0x85 || n == 0xA0 || n == 0x1680
    || (0x2000 ≤ n && n ≤ 0x200A) || n == 0x2028 || n == 0x2029 || n == 0x202F || n == 0x205F
    || n == 0x3000

/-- All that core calls white space is blank. -/
theorem isBlank_of_isWhitespace {c : Char} (h : c.isWhitespace = true) : isBlank c = true := by
  simp only [Char.isWhitespace, Bool.or_eq_true, decide_eq_true_eq] at h
  rcases h with ((h | h) | h) | h <;> subst h <;> decide

/-- The text without the blank characters it begins with. -/
def trimStart (cs : List Char) : List Char := cs.dropWhile isBlank

/-- The text without the blank characters it ends with. -/
def trimEnd (cs : List Char) : List Char := (cs.reverse.dropWhile isBlank).reverse

/-- The text without the blank characters at both its ends. -/
def trim (cs : List Char) : List Char := trimEnd (trimStart cs)

/-- A string without the blank characters at both its ends. -/
def trimmed (s : String) : String := String.ofList (trim s.toList)

@[simp] theorem trimStart_nil : trimStart [] = [] := rfl

/-- Trimming the end keeps a text whose last character is not blank. -/
theorem trimEnd_concat {c : Char} (h : isBlank c = false) (cs : List Char) :
    trimEnd (cs ++ [c]) = cs ++ [c] := by
  simp [trimEnd, h]

end GraphqlCodegen.Text
