import GraphqlCodegen.Failure
/-!
# Writing artifacts

The files of a generator are written one after the other: first the directory of a file, then the
file. The first step that fails ends the writing of this generator, and of no other.
-/

namespace GraphqlCodegen

/-- One step that changes the disk. -/
inductive Step where
  | makeDirectories (path : String)
  | writeFile (path content : String)
  deriving DecidableEq, Repr

/-- Takes a step. One that fails may have created some of the directories. -/
def Step.take (d : Disk) : Step → Disk × Option Failure
  | .makeDirectories path =>
    let (d, failure) := d.makeDirectories path
    (d, failure.map (.unwritable path))
  | .writeFile path content =>
    match d.write path content with
    | .ok d => (d, none)
    | .error e => (d, some (.unwritable path e))

/-- The path of the file that a step completes. -/
def Step.completed : Step → List String
  | .makeDirectories _ => []
  | .writeFile path _ => [path]

/-- The steps that write a file. -/
def Artifact.steps (a : Artifact) : List Step :=
  [.makeDirectories a.destination.directory, .writeFile a.path a.content]

/-- What a generator still has to do and what it has done, or why it stopped. -/
structure Progress where
  pending : List Step
  written : List String
  failure : Option Failure
  deriving DecidableEq, Repr

namespace Progress

/-- The beginning of a generator's writing. -/
def start (artifacts : List Artifact) : Progress := ⟨artifacts.flatMap Artifact.steps, [], none⟩

/-- A generator that failed before there was anything to write. -/
def stopped (failure : Failure) : Progress := ⟨[], [], some failure⟩

/-- Takes the next step, if there is one. -/
def advance (d : Disk) (p : Progress) : Disk × Progress :=
  match p.pending with
  | [] => (d, p)
  | step :: rest =>
    match step.take d with
    | (d, none) => (d, ⟨rest, p.written ++ step.completed, p.failure⟩)
    | (d, some failure) => (d, ⟨[], p.written, some failure⟩)

/-- Takes all steps. Each step leaves fewer of them, so their number is fuel enough. -/
def finishWithin : Nat → Disk → Progress → Disk × Progress
  | 0, d, p => (d, p)
  | fuel + 1, d, p =>
    let (d, p) := p.advance d
    finishWithin fuel d p

def finish (d : Disk) (p : Progress) : Disk × Progress := finishWithin p.pending.length d p

/-- The paths of the files that were written, or why not all of them were. -/
def result (p : Progress) : Except Failure (List String) :=
  match p.failure with
  | some failure => .error failure
  | none => .ok p.written

end Progress

/-- Writes one file. -/
def Artifact.write (d : Disk) (a : Artifact) : Disk × Except Failure String :=
  let (d, p) := (Progress.start [a]).finish d
  (d, p.result.map fun _ => a.path)

end GraphqlCodegen
