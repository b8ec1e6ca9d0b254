import GraphqlCodegen.Text.Lines
import GraphqlCodegen.Text.Blank
/-!
# Block strings

A block string stands between triple quotes; a triple quote inside is written with a backslash in
front. Its value loses the blank lines at both ends and the indentation that all its lines but the
first have in common.
-/

namespace GraphqlCodegen.Sdl.BlockString

open GraphqlCodegen.Text

/-- A backslash in front of each triple quote, from left to right. -/
def escape : List Char → List Char
  | '"' :: '"' :: '"' :: cs => '\\' :: '"' :: '"' :: '"' :: escape cs
  | c :: cs => c :: escape cs
  | [] => []

/-- Takes the backslash away from each triple quote that has one. -/
def unescape : List Char → List Char
  | '\\' :: '"' :: '"' :: '"' :: cs => '"' :: '"' :: '"' :: unescape cs
  | c :: cs => c :: unescape cs
  | [] => []

/-- Splits the text behind opening triple quotes at the closing ones: the first triple quote, each
looked for behind the one before, that has no backslash in front. -/
def body : Bool → List Char → Option (List Char × List Char)
  | escaped, '"' :: '"' :: '"' :: cs =>
    if escaped then (body false cs).map fun (b, rest) => ('"' :: '"' :: '"' :: b, rest)
    else some ([], cs)
  | _, c :: cs => (body (c == '\\') cs).map fun (b, rest) => (c :: b, rest)
  | _, [] => none

/-- Nothing but blank characters. -/
def isBlankLine (line : List Char) : Bool := line.all isBlank

/-- Length in UTF-8. -/
def size : List Char → Nat
  | [] => 0
  | c :: cs => c.utf8Size + size cs

/-- Length of the blank characters that a line begins with; nothing for a blank line. -/
def indent? (line : List Char) : Option Nat :=
  if isBlankLine line then none else some (size (line.takeWhile isBlank))

/-- Takes a length of text away. -/
def dropSize : Nat → List Char → List Char
  | n, c :: cs => if n = 0 then c :: cs else dropSize (n - c.utf8Size) cs
  | _, [] => []

/-- Takes the margin away from a line that is long enough. -/
def dedent (margin : Nat) (line : List Char) : List Char :=
  if margin ≤ size line then dropSize margin line else line

/-- The least indentation of the lines that are not blank. -/
def margin? (lines : List (List Char)) : Option Nat :=
  (lines.filterMap indent?).min?

/-- All lines but the first lose their common indentation. -/
def dedentTail : List (List Char) → List (List Char)
  | [] => []
  | first :: rest =>
    first :: match margin? rest with
      | none => rest
      | some n => rest.map (dedent n)

/-- Drops the blank lines at both ends. -/
def dropBlankEnds (ls : List (List Char)) : List (List Char) :=
  ((ls.dropWhile isBlankLine).reverse.dropWhile isBlankLine).reverse

/-- The value of a block string with the given text between its quotes. -/
def value (raw : List Char) : List Char :=
  unescape (unlines (dropBlankEnds (dedentTail (lines raw))))

/-- A text as a block string on lines of its own, each with an indentation in front. -/
def written (indent text : List Char) : List Char :=
  let quotes := indent ++ ['"', '"', '"', '\n']
  quotes ++ (lines (escape text)).flatMap (fun line => indent ++ line ++ ['\n']) ++ quotes

end GraphqlCodegen.Sdl.BlockString
