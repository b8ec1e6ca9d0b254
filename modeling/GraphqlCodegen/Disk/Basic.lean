import GraphqlCodegen.Disk.Path
/-!
# The disk

Files and directories by their place below the working directory, and what can be done with them.
A step that fails says why, and may have changed the disk before it did: directories that were
created on the way stay.
-/

namespace GraphqlCodegen.Disk

/-- Why a step failed. -/
inductive Error where
  | notFound
  | exists
  | notDirectory
  | isDirectory
  | nameTooLong
  | notText
  | zeroByte
  /-- Another cause, in words. -/
  | other (text : String)
  deriving DecidableEq, Repr

def Error.message : Error → String
  | .notFound => "No such file or directory (os error 2)"
  | .exists => "File exists (os error 17)"
  | .notDirectory => "Not a directory (os error 20)"
  | .isDirectory => "Is a directory (os error 21)"
  | .nameTooLong => "File name too long (os error 36)"
  | .notText => "stream did not contain valid UTF-8"
  | .zeroByte => "file name contained an unexpected NUL byte"
  | .other text => text

/-- The names that lead to an entry from the working directory, or from the root behind an empty
name. -/
abbrev Place := List String

/-- The working directory. -/
def Place.here : Place := []

/-- The root of all absolute paths. -/
def Place.top : Place := [""]

/-- The directory above a place. Nothing is above the root, and what is above the working directory
is not known. -/
def Place.up (place : Place) : Place := if place = top then top else place.dropLast

inductive Entry where
  | directory
  | file (content : ByteArray)

end Disk

/-- Every entry by its place. The working directory and the root are always there. -/
structure Disk where
  entries : List (Disk.Place × Disk.Entry)

namespace Disk

def empty : Disk := ⟨[]⟩

/-- What stands at a place. -/
def get? (d : Disk) (place : Place) : Option Entry :=
  if place = Place.here || place = Place.top then some .directory
  else (d.entries.find? (·.1 == place)).map (·.2)

/-- Puts an entry at a place, instead of what stood there. -/
def put (d : Disk) (place : Place) (entry : Entry) : Disk :=
  ⟨(place, entry) :: d.entries.filter (·.1 != place)⟩

/-! ## Walking -/

/-- The greatest length of a name in bytes. -/
def nameLimit : Nat := 255

/-- The greatest length of a path in bytes. -/
def pathLimit : Nat := 4095

/-- Steps from a directory into another one along names, all of which have to be directories. -/
def enter (d : Disk) (place : Place) : List String → Except Error Place
  | [] => .ok place
  | name :: rest =>
    if name = "." then d.enter place rest
    else if name = ".." then d.enter place.up rest
    else if name.utf8ByteSize > nameLimit then .error .nameTooLong
    else match d.get? (place ++ [name]) with
      | none => .error .notFound
      | some (.file _) => .error .notDirectory
      | some .directory => d.enter (place ++ [name]) rest

/-- A path taken apart for walking. -/
structure Route where
  start : Place
  names : List String
  endsInSlash : Bool

/-- The route along a path; it is checked before the disk is looked at. -/
def route (path : String) : Except Error Route :=
  let cs := path.toList
  if cs.contains '\x00' then .error .zeroByte
  else if cs.isEmpty then .error .notFound
  else if path.utf8ByteSize > pathLimit then .error .nameTooLong
  else .ok ⟨if Path.isAbsolute cs then Place.top else Place.here,
    (Path.names cs).map String.ofList, cs.getLast? = some '/'⟩

/-- The last name of a route, if it is one by which an entry can be created. -/
def Route.last? (r : Route) : Option String :=
  r.names.getLast?.filter fun name => name != "." && name != ".."

/-- The place that a path leads to, with what stands there. A path that ends in a slash leads to a
directory only. -/
def find (d : Disk) (path : String) : Except Error (Place × Option Entry) := do
  let r ← route path
  match r.last?, r.endsInSlash with
  | some name, false =>
    let directory ← d.enter r.start r.names.dropLast
    if name.utf8ByteSize > nameLimit then throw .nameTooLong
    else return (directory ++ [name], d.get? (directory ++ [name]))
  | _, _ => return (← d.enter r.start r.names, some .directory)

/-- A directory stands where the path leads. -/
def isDirectory (d : Disk) (path : String) : Bool :=
  match d.find path with
  | .ok (_, some .directory) => true
  | _ => false

/-! ## Reading -/

/-- The bytes of a file. -/
def readBytes (d : Disk) (path : String) : Except Error ByteArray := do
  match ← d.find path with
  | (_, none) => throw .notFound
  | (_, some .directory) => throw .isDirectory
  | (_, some (.file content)) => return content

/-- The text of a file. -/
def readText (d : Disk) (path : String) : Except Error String := do
  let content ← d.readBytes path
  match String.fromUTF8? content with
  | some text => return text
  | none => throw .notText

/-! ## Writing -/

/-- The disk with a file created or overwritten. -/
def write (d : Disk) (path text : String) : Except Error Disk := do
  let r ← route path
  let directory ← d.enter r.start r.names.dropLast
  match r.last?, r.endsInSlash with
  | some name, false =>
    if name.utf8ByteSize > nameLimit then throw .nameTooLong
    else match d.get? (directory ++ [name]) with
      | some .directory => throw .isDirectory
      | _ => return d.put (directory ++ [name]) (.file text.toUTF8)
  | _, _ => throw .isDirectory

/-- The disk with one directory created. -/
def makeDirectory (d : Disk) (path : String) : Except Error Disk := do
  let r ← route path
  let directory ← d.enter r.start r.names.dropLast
  match r.last? with
  | some name =>
    if name.utf8ByteSize > nameLimit then throw .nameTooLong
    else match d.get? (directory ++ [name]) with
      | some _ => throw .exists
      | none => return d.put (directory ++ [name]) .directory
  | none => throw .exists

/-- Creates the first of several paths as a directory, and before it the others if it is they that
are missing. Directories that are there already are left alone. What was created before a failure
stays. -/
def makeAll (d : Disk) : List String → Disk × Option Error
  | [] => (d, none)
  | path :: parents =>
    match d.makeDirectory path with
    | .ok d => (d, none)
    | .error .notFound =>
      match makeAll d parents with
      | (d, some e) => (d, some e)
      | (d, none) => match d.makeDirectory path with
        | .ok d => (d, none)
        | .error e => (d, if d.isDirectory path then none else some e)
    | .error e => (d, if d.isDirectory path then none else some e)

/-- Creates a directory and the parents that it lacks. -/
def makeDirectories (d : Disk) (path : String) : Disk × Option Error :=
  d.makeAll (Path.ancestors path)

end Disk
end GraphqlCodegen
