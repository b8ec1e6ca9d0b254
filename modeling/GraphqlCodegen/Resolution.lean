import GraphqlCodegen.Failure
import GraphqlCodegen.Text.Blank
/-!
# Resolving the source

A source that is given counts before one that is remembered. One that is given is remembered for
later runs, if that is wanted and it is not remembered already.
-/

namespace GraphqlCodegen

/-- A source with its origin. -/
structure Resolved where
  source : Source
  /-- The user gave it for this run. -/
  given : Bool
  deriving DecidableEq, Repr

/-- The text of a source that is given, without blanks around it; a blank text is none. -/
def givenSource (text : Option String) : Option String :=
  (text.map Text.trimmed).filter (· != "")

/-- The source of a run. -/
def resolve (text : Option String) (s : Settings) : Except Failure Resolved :=
  match givenSource text, s.remembered? sourceKey with
  | some text, _ => .ok ⟨Source.classify text, true⟩
  | none, some text => .ok ⟨Source.classify text, false⟩
  | none, none => .error .missingSource

/-- The source is to be remembered. -/
def Resolved.needsSaving (r : Resolved) (s : Settings) (saveOnInput : Bool) : Bool :=
  r.given && saveOnInput && s.get? sourceKey != some r.source.text

/-- The settings and the disk after the source is remembered, if it is to be. Whether the file could
be written makes no difference to a run. -/
def Resolved.remember (r : Resolved) (s : Settings) (d : Disk) (saveOnInput : Bool) :
    Settings × Disk :=
  if r.needsSaving s saveOnInput then
    let (s, d, _) := s.set d sourceKey r.source.text
    (s, d)
  else (s, d)

end GraphqlCodegen
