import GraphqlCodegen.CommandLine.Command
/-!
# The program

Carries out a command on the files of this machine: the files that the command can touch are read,
the command is carried out on them, and what it changed is written back. No endpoint is asked from
here, so every request stays without an answer.
-/

namespace GraphqlCodegen.Main

open GraphqlCodegen.CommandLine

/-- The path of a place. -/
def pathOf (place : Disk.Place) : String := "/".intercalate place

/-- The places on the way to a path, the nearest first. -/
def placesTo (path : String) : List Disk.Place :=
  match Disk.route path with
  | .ok r => (List.range r.names.length).map fun n => r.start ++ r.names.take (n + 1)
  | .error _ => []

/-- What stands at a place of this machine. -/
def entryAt (place : Disk.Place) : IO (Option Disk.Entry) := do
  try
    return some (.file (← IO.FS.readBinFile (pathOf place)))
  catch
    | .noFileOrDirectory .. => return none
    | _ => return some .directory

/-- Adds to a disk what stands on the way to paths. -/
def look (d : Disk) (paths : List String) : IO Disk := do
  let mut d := d
  for place in paths.flatMap placesTo do
    if (d.get? place).isNone then
      if let some entry ← entryAt place then
        d := d.put place entry
  return d

/-- The paths that a command reads and writes, as far as the settings are known. -/
def touched (a : Arguments) (d : Disk) : List String :=
  let source := (resolve a.options.source (Settings.load d a.settingsPath)).toOption.map (·.source)
  let generators := Generator.all.filter (Generator.isRequested a.options)
  (source.map Source.text).toList ++
    (generators.flatMap (Generator.destinations a.options)).map Destination.path

/-- The part of this machine's files that a command sees. -/
def view (texts : List String) : IO Disk :=
  match Arguments.parse texts with
  | .error _ => return Disk.empty
  | .ok a => do
    let d ← look Disk.empty [a.settingsPath]
    look d (touched a d)

/-- Writes back what a command changed: directories before what is in them. -/
def writeBack (before after : Disk) : IO Unit := do
  for (place, entry) in after.entries.mergeSort fun a b => a.1.length ≤ b.1.length do
    match entry, before.get? place with
    | .directory, some _ => pure ()
    | .directory, none => IO.FS.createDirAll (pathOf place)
    | .file content, some (.file old) =>
      if old != content then IO.FS.writeBinFile (pathOf place) content
    | .file content, _ => IO.FS.writeBinFile (pathOf place) content

end GraphqlCodegen.Main

open GraphqlCodegen in
def main (args : List String) : IO UInt32 := do
  let before ← Main.view args
  let done := CommandLine.command args before fun _ => none
  Main.writeBack before done.disk
  IO.print done.stdout
  IO.eprint done.stderr
  return done.exitCode.toUInt32
