/-!
# Paths

A path is a text whose parts stand between slashes. Slashes in a row count as one, and a part `.`
counts only where the path begins with it. Taking a path apart keeps the text of what is left.
-/

namespace GraphqlCodegen.Disk

/-- A part of a path, and where it ends in the path. -/
structure Segment where
  name : List Char
  stop : Nat
  deriving DecidableEq, Repr

namespace Path

/-- The text between slashes, with the places where it ends; `current` is the part that has been
read so far, and ends at `place`. -/
def split (current : List Char) (place : Nat) : List Char → List Segment
  | [] => [⟨current, place⟩]
  | c :: cs =>
    if c = '/' then ⟨current, place⟩ :: split [] (place + 1) cs
    else split (current ++ [c]) (place + 1) cs

/-- The path begins at the root. -/
def isAbsolute (path : List Char) : Bool := path.head? = some '/'

/-- A part that names something, or steps up. -/
def isStep (s : Segment) : Bool := !s.name.isEmpty && s.name != ['.']

/-- The parts that count. -/
def segments (path : List Char) : List Segment :=
  match split [] 0 path with
  | [] => []
  | first :: rest =>
    (if isStep first || first.name = ['.'] then [first] else []) ++ rest.filter isStep

/-- The names of the parts, for walking along the path: those that are not empty. -/
def names (path : List Char) : List (List Char) :=
  ((split [] 0 path).filter fun s => !s.name.isEmpty).map Segment.name

/-- The last part, if it is a name and no step up. -/
def fileName (path : String) : Option String :=
  match (segments path.toList).getLast? with
  | some s =>
    if s.name = ['.'] || s.name = ['.', '.'] then none else some (String.ofList s.name)
  | none => none

/-- The path without its last part; nothing for a path without parts. -/
def parent (path : String) : Option String :=
  match (segments path.toList).reverse with
  | [] => none
  | [_] => some (if isAbsolute path.toList then "/" else "")
  | _ :: before :: _ => some (String.ofList (path.toList.take before.stop))

/-- One path behind another, with a slash between them unless the first ends with one. An absolute
path replaces what stands in front of it. -/
def join (directory name : String) : String :=
  let cs := directory.toList
  if isAbsolute name.toList then name
  else if cs.isEmpty || cs.getLast? = some '/' then directory ++ name
  else directory ++ "/" ++ name

/-- The path and all its parents, the path first; neither the root nor the empty path is among
them. Each parent has fewer parts, so the fuel is enough. -/
def ancestorsWithin : Nat → String → List String
  | 0, _ => []
  | fuel + 1, path =>
    match parent path with
    | none => []
    | some p => path :: ancestorsWithin fuel p

def ancestors (path : String) : List String :=
  ancestorsWithin ((segments path.toList).length + 1) path

end Path
end GraphqlCodegen.Disk
