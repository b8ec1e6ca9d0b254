import GraphqlCodegen.Number.Binary64
/-!
# Tokens of the schema language

A text is read as its tokens, each with the place where it begins. Reading stops at the end of the
text or at the first place where no token begins.
-/

namespace GraphqlCodegen.Sdl

open GraphqlCodegen.Number (Binary64)

/-- A place in a text: lines and columns count from one, columns in characters. -/
structure Position where
  line : Nat
  column : Nat
  deriving DecidableEq, Repr

namespace Position

def start : Position := ⟨1, 1⟩

/-- The place `n` columns to the right. -/
def right (p : Position) (n : Nat) : Position := ⟨p.line, p.column + n⟩

/-- The beginning of the next line. -/
def newline (p : Position) : Position := ⟨p.line + 1, 1⟩

/-- The place behind a token's text. -/
def past (p : Position) (text : List Char) : Position :=
  text.foldl (fun p c => if c = '\n' then p.newline else p.right 1) p

end Position

inductive Token where
  | name (text : String)
  /-- One of the characters `( ) [ ] { } ! $ : = @ | &`. -/
  | mark (c : Char)
  /-- Three dots. -/
  | spread
  | int (value : Int)
  | float (value : Binary64)
  | string (value : String)
  deriving DecidableEq, Repr

/-- The tokens of a text with their places, and where reading them ended. -/
inductive Tokens where
  /-- The text ends. -/
  | finish (place : Position)
  /-- No token begins here. -/
  | stuck (place : Position)
  | cons (token : Token) (place : Position) (rest : Tokens)
  deriving Repr

namespace Tokens

/-- The place of the next token, or of the end. -/
def place : Tokens → Position
  | .finish p => p
  | .stuck p => p
  | .cons _ p _ => p

/-- The next token. -/
def head? : Tokens → Option Token
  | .cons t _ _ => some t
  | _ => none

/-- How many tokens there are. -/
def length : Tokens → Nat
  | .cons _ _ rest => rest.length + 1
  | _ => 0

/-- The tokens without their places. -/
def toList : Tokens → List Token
  | .cons t _ rest => t :: rest.toList
  | _ => []

end Tokens
end GraphqlCodegen.Sdl
