import GraphqlCodegen.Resolution
import GraphqlCodegen.Schema.Merge
import GraphqlCodegen.Writing
/-!
# Runs

A run finds its source, remembers it, gets the schema text, reads it once, and lets every generator
that is asked for write its files. What fails before the schema is read ends the run and nothing is
written; a generator that fails is reported beside the others.
-/

namespace GraphqlCodegen

/-- What a run did once the schema was read. -/
structure Report where
  /-- The files that were written, generator by generator. -/
  written : List String
  /-- One failure for each generator that failed. -/
  failures : List Failure
  deriving DecidableEq, Repr

def Report.isSuccess (r : Report) : Bool := r.failures.isEmpty

/-- What a run starts from: the settings, the disk, and what answers requests. -/
structure Surroundings where
  settings : Settings
  disk : Disk
  endpoint : Http.Endpoint

/-- What a run leaves behind. -/
structure Outcome where
  result : Except Failure Report
  settings : Settings
  disk : Disk
  /-- The requests that were sent. -/
  requests : List Http.Request

/-- The request by which a schema is got, if it comes from an endpoint and a request can be made. -/
def requestFor (source : Source) (o : Options) : List Http.Request :=
  match source with
  | .url url => (schemaRequest url o.method o.headers).toOption.toList
  | .path _ => []

/-- Gets the schema text. -/
def acquire (e : Http.Endpoint) (d : Disk) (source : Source) (o : Options) :
    Except Failure String :=
  match source with
  | .url url => (fetchSchema e url o.method o.headers).mapError (.unfetched url)
  | .path path => (d.readText path).mapError (.unreadable path)

/-- Reads a schema text. -/
def readSchema (text : String) : Except Failure Schema.Tree :=
  match Sdl.parse text with
  | .ok document => .ok (Schema.Tree.ofDocument document)
  | .error place => .error (.invalidSchema (.at place))

/-- The text of a schema and what it says. -/
def schemaInput (e : Http.Endpoint) (d : Disk) (source : Source) (o : Options) :
    Except Failure SchemaInput := do
  let text ← acquire e d source o
  return ⟨text, ← readSchema text, source⟩

/-- What a generator has to write. -/
def Generator.begin (input : SchemaInput) (o : Options) (g : Generator) : Progress :=
  match g.artifacts input o with
  | .ok artifacts => Progress.start artifacts
  | .error cause => Progress.stopped (.ungenerated g (.jsonSchema cause))

/-- Lets generators write one after the other. -/
def finishAll (d : Disk) : List Progress → Disk × List Progress
  | [] => (d, [])
  | p :: ps =>
    let (d, p) := p.finish d
    let (d, ps) := finishAll d ps
    (d, p :: ps)

/-- The report on generators that have finished. -/
def Report.ofResults : List (Except Failure (List String)) → Report
  | [] => ⟨[], []⟩
  | .ok paths :: rest =>
    let r := ofResults rest
    ⟨paths ++ r.written, r.failures⟩
  | .error failure :: rest =>
    let r := ofResults rest
    ⟨r.written, failure :: r.failures⟩

/-- Lets all generators write that are asked for. -/
def generateAll (generators : List Generator) (input : SchemaInput) (o : Options) (d : Disk) :
    Disk × Report :=
  let (d, ps) := finishAll d ((generators.filter (·.isRequested o)).map (·.begin input o))
  (d, .ofResults (ps.map Progress.result))

/-- One run with the given generators. -/
def runWith (generators : List Generator) (o : Options) (w : Surroundings) : Outcome :=
  match resolve o.source w.settings with
  | .error failure => ⟨.error failure, w.settings, w.disk, []⟩
  | .ok resolved =>
    let (settings, disk) := resolved.remember w.settings w.disk o.saveOnInput
    let requests := requestFor resolved.source o
    match schemaInput w.endpoint disk resolved.source o with
    | .error failure => ⟨.error failure, settings, disk, requests⟩
    | .ok input =>
      let (disk, report) := generateAll generators input o disk
      ⟨.ok report, settings, disk, requests⟩

/-- One run with all generators. -/
def run (o : Options) (w : Surroundings) : Outcome := runWith Generator.all o w

end GraphqlCodegen
