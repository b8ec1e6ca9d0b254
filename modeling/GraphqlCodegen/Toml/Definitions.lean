/-!
# Definitions of a settings file

Which keys have been defined, and how: a file that defines a key twice, or makes a table of
something that is none, is not valid.
-/

namespace GraphqlCodegen.Toml

/-- How a table came to be. -/
inductive Origin where
  /-- It has a header of its own. -/
  | header
  /-- The header of a table inside it mentions it. -/
  | implied
  /-- A key with dots mentions it. -/
  | dotted
  deriving DecidableEq, Repr

/-- What a key stands for. -/
inductive Node where
  | value
  | table (origin : Origin) (children : List (String × Node))
  /-- Tables under one key, of which only the last can still change. -/
  | array (last : List (String × Node))

/-- The keys of a table with what they stand for. -/
abbrev Children := List (String × Node)

/-- Changes what a key stands for, if that can be done. -/
def change (key : String) (f : Option Node → Option Node) : Children → Option Children
  | [] => (f none).map fun n => [(key, n)]
  | (k, n) :: rest =>
    if k = key then (f (some n)).map fun n => (k, n) :: rest
    else (change key f rest).map ((k, n) :: ·)

/-- Gives a key a value. The tables in front of its last part are made by it, or were made by other
keys with dots. -/
def assign : List String → Children → Option Children
  | [] => fun _ => none
  | [key] => change key fun
    | none => some .value
    | some _ => none
  | [table, key] => change table fun
    | none => (assign [key] []).map (.table .dotted)
    | some (.table .dotted cs) => (assign [key] cs).map (.table .dotted)
    | some _ => none
  | table :: next :: more => change table fun
    | none => (assign (next :: more) []).map (.table .dotted)
    | some (.table .header _) => none
    | some (.table origin cs) => (assign (next :: more) cs).map (.table origin)
    | some (.array last) => (assign (next :: more) last).map .array
    | some .value => none

/-- Changes the table that a header leads to; tables that are missing on the way are implied. -/
def inTable : List String → (Children → Option Children) → Children → Option Children
  | [], f => f
  | key :: keys, f => change key fun
    | none => (inTable keys f []).map (.table .implied)
    | some (.table origin cs) => (inTable keys f cs).map (.table origin)
    | some (.array last) => (inTable keys f last).map .array
    | some .value => none

/-- A table that has no header yet. -/
def openTable : Option Node → Option Node
  | none => some (.table .header [])
  | some (.table .implied cs) => some (.table .header cs)
  | some _ => none

/-- One more table under a key. -/
def openElement : Option Node → Option Node
  | none => some (.array [])
  | some (.array _) => some (.array [])
  | some _ => none

/-- A header. -/
structure Header where
  path : List String
  /-- It begins one of several tables under its key. -/
  isElement : Bool
  deriving DecidableEq, Repr

/-- Defines the table of a header. -/
def Header.define (h : Header) (cs : Children) : Option Children := do
  let key ← h.path.getLast?
  inTable h.path.dropLast (change key (if h.isElement then openElement else openTable)) cs

end GraphqlCodegen.Toml
