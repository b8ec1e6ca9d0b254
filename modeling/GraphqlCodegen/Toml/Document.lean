import GraphqlCodegen.Toml.Value
/-!
# Settings files

A settings file as its lines, so that setting a key leaves all other lines as they are. Comments and
blank lines belong to what stands behind them. Keys stand in the order in which the file first
mentions them, and lines whose keys begin alike stand together.
-/

namespace GraphqlCodegen.Toml

/-- A key with its value, as it is written. -/
structure Line where
  path : List String
  value : Value
  text : String
  deriving DecidableEq, Repr

/-- A table with its header as it is written, and its lines. -/
structure Section where
  header : Header
  head : String
  lines : List Line
  deriving DecidableEq, Repr

structure Document where
  /-- The keys at the top, in the order in which they were first mentioned. -/
  keys : List String
  /-- The lines in front of all headers. -/
  lines : List Line
  sections : List Section
  /-- What stands behind the last line. -/
  tail : String
  deriving DecidableEq, Repr

def Document.empty : Document := ⟨[], [], [], ""⟩

/-! ## Reading -/

/-- The characters in front of what is left, without carriage returns. -/
def consumed (cs rest : List Char) : List Char :=
  (cs.take (cs.length - rest.length)).filter (· != '\r')

/-- A text that ends its line. -/
def endedLine (cs : List Char) : String :=
  String.ofList (if cs.getLast? = some '\n' then cs else cs ++ ['\n'])

/-- What stands behind the blanks and the comment at the end of a line, and the line end. -/
def closeLine (cs : List Char) : Option (List Char) :=
  match skipComment (skipSpace cs) with
  | [] => some []
  | rest => lineEnd? rest

/-- A key between brackets. -/
def bracketedKey (cs : List Char) : Option (List String × List Char) := do
  let (path, rest) ← key (cs.length + 1) (skipSpace cs)
  match skipSpace rest with
  | ']' :: rest => some (path, rest)
  | _ => none

/-- A header. -/
def header : Reader Header
  | '[' :: '[' :: cs => do
    let (path, rest) ← bracketedKey cs
    match rest with
    | ']' :: rest => some (⟨path, true⟩, rest)
    | _ => none
  | '[' :: cs => do
    let (path, rest) ← bracketedKey cs
    some (⟨path, false⟩, rest)
  | _ => none

/-- A header or a line, with the text that it is written as. -/
inductive Statement where
  | header (header : Header) (text : String)
  | line (line : Line)
  deriving DecidableEq, Repr

/-- One statement with all that stands in front of it. -/
def statement (cs : List Char) : Option (Statement × List Char) :=
  match skipTrivia cs with
  | '[' :: body => do
    let (h, rest) ← header ('[' :: body)
    let rest ← closeLine rest
    return (.header h (endedLine (consumed cs rest)), rest)
  | body => do
    let (path, v, rest) ← pair (body.length + 1) body
    let rest ← closeLine rest
    return (.line ⟨path, v, endedLine (consumed cs rest)⟩, rest)

/-- All statements, and what stands behind the last. -/
def statements : Nat → Reader (List Statement)
  | 0, _ => none
  | fuel + 1, cs =>
    match skipTrivia cs with
    | [] => some ([], cs)
    | _ => do
      let (s, rest) ← statement cs
      let (more, tail) ← statements fuel rest
      return (s :: more, tail)

/-- What the statements so far have defined, and the header that they stand under. -/
structure Definitions where
  under : List String
  children : Children

def Statement.define (d : Definitions) : Statement → Option Definitions
  | .header h _ => (h.define d.children).map fun cs => ⟨h.path, cs⟩
  | .line l => (inTable d.under (assign l.path) d.children).map fun cs => ⟨d.under, cs⟩

/-- No statement defines what another one has defined. -/
def areConsistent (ss : List Statement) : Bool :=
  (ss.foldlM Statement.define ⟨[], []⟩).isSome

/-- The lines in front of the first header, and the sections. -/
def arrange : List Statement → List Line × List Section
  | [] => ([], [])
  | .line l :: ss => let (lines, sections) := arrange ss; (l :: lines, sections)
  | .header h text :: ss =>
    let (lines, sections) := arrange ss
    ([], ⟨h, text, lines⟩ :: sections)

/-- The first key of a path. -/
def root (path : List String) : String := path.headD ""

/-- The names of a list, each once, where it first stands. -/
def firsts : List String → List String
  | [] => []
  | n :: ns => n :: (firsts ns).filter (· != n)

/-- A file begins with this character or not; it is no part of the text. -/
def dropByteOrderMark : List Char → List Char
  | '\ufeff' :: cs => cs
  | cs => cs

/-- Reads a file, if it is valid. -/
def Document.read? (text : String) : Option Document := do
  let cs := dropByteOrderMark text.toList
  let (ss, tail) ← statements (cs.length + 1) cs
  if !areConsistent ss then none
  let (lines, sections) := arrange ss
  let roots := lines.map (root ·.path) ++ sections.map (root ·.header.path)
  return ⟨firsts roots, lines, sections, String.ofList (tail.filter (· != '\r'))⟩

/-! ## Looking up and setting -/

namespace Document

/-- The string under a key at the top. -/
def get? (d : Document) (key : String) : Option String :=
  (d.lines.find? (·.path == [key])).bind (·.value)

/-- The document with a string under a key. All that stood under the key is gone; a key that was
there keeps its place, and a new one comes behind the others. -/
def set (d : Document) (key value : String) : Document where
  keys := if d.keys.contains key then d.keys else d.keys ++ [key]
  lines := d.lines.filter (fun l => root l.path != key) ++ [⟨[key], some value, writeEntry key value⟩]
  sections := d.sections.filter fun s => root s.header.path != key
  tail := d.tail

end Document

/-! ## Writing -/

/-- The lines with the same first key put together, where the first of them stands, and so on for
the keys behind it. The depth is the number of parts of a path. -/
def grouped : Nat → List Line → (Line → List String) → List Line
  | 0, lines, _ => lines
  | depth + 1, lines, path =>
    (firsts (lines.map fun l => root (path l))).flatMap fun k =>
      grouped depth (lines.filter fun l => root (path l) == k) fun l => (path l).tail

/-- The greatest number of parts. -/
def depth (lines : List Line) : Nat := lines.foldl (fun n l => max n l.path.length) 0

/-- Lines in the order in which they are written. -/
def ordered (lines : List Line) : List Line := grouped (depth lines) lines Line.path

def Section.text (s : Section) : String :=
  s.head ++ String.join ((ordered s.lines).map Line.text)

/-- The lines at the top in the order of their keys. -/
def Document.topLines (d : Document) : List Line :=
  d.keys.flatMap fun k => ordered (d.lines.filter fun l => root l.path == k)

/-- The text of a document. -/
def Document.text (d : Document) : String :=
  String.join (d.topLines.map Line.text) ++ String.join (d.sections.map Section.text) ++ d.tail

end GraphqlCodegen.Toml
