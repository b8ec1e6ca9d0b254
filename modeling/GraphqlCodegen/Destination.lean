import GraphqlCodegen.Disk.Path
/-!
# Destinations

Where a file is put: a directory and the name in it. A path given by the user names a file if it
ends like one, and a directory otherwise.
-/

namespace GraphqlCodegen

structure Destination where
  directory : String
  filename : String
  deriving DecidableEq, Repr

namespace Destination

open Disk (Path.fileName Path.parent Path.join)

/-- The working directory. -/
def here : String := "."

/-- The path ends in one of the extensions, by its text alone. -/
def namesFile (path : String) (extensions : List String) : Bool :=
  extensions.any fun extension => extension.toList.isSuffixOf path.toList

/-- The directory that a file named by a path is in. -/
def directoryOf (path : String) : String :=
  match Path.parent path with
  | none | some "" => here
  | some directory => directory

/-- The destination that a path stands for: the file that it names, or the default name in the
directory that it names. -/
def resolve (path : String) (extensions : List String) (default : String) : Destination :=
  match namesFile path extensions, Path.fileName path with
  | true, some filename => ⟨directoryOf path, filename⟩
  | _, _ => ⟨path, default⟩

/-- The path of the file. -/
def path (d : Destination) : String := Path.join d.directory d.filename

end Destination
end GraphqlCodegen
