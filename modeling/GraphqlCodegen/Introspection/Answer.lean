import GraphqlCodegen.Introspection.Decode
import GraphqlCodegen.Introspection.Sdl
import GraphqlCodegen.Json.Reader
import GraphqlCodegen.Json.Writer
/-!
# Answers of endpoints

The schema text in the body of a response. JSON has to carry the result of the introspection query;
any other text is taken for schema text as it is.
-/

namespace GraphqlCodegen.Introspection

/-- Why a body gives no schema. -/
inductive AnswerError where
  | empty
  | malformed (cause : DecodeError)
  | unprintable (cause : SdlError)
  /-- The endpoint reports errors. -/
  | reported (messages : List String)
  | noResult
  deriving DecidableEq, Repr

def AnswerError.message : AnswerError → String
  | .empty => "Empty response body"
  | .malformed cause => "Malformed introspection result: " ++ cause.message
  | .unprintable cause => cause.message
  | .reported messages => "GraphQL errors: " ++ Text.joined "; " messages
  | .noResult => "Response JSON carries no introspection result"

/-- The text of a reported error: its message, or all of it. -/
def reportedMessage (error : Json.Value) : String :=
  match (error.get? "message").bind Json.Value.asString? with
  | some message => message
  | none => Json.compact error

/-- The schema text for a result of the query. -/
def sdlOfResult (result : Json.Value) : Except AnswerError String := do
  let schema ← (Schema.decode result).mapError .malformed
  schema.toSdl.mapError .unprintable

/-- The schema text in a JSON body. A result comes before all errors. -/
def sdlOfJson (body : Json.Value) : Except AnswerError String :=
  match (body.get? "data").bind (·.get? "__schema") with
  | some result => sdlOfResult result
  | none =>
    match (body.get? "errors").bind Json.Value.asArray? with
    | some errors => .error (.reported (errors.map reportedMessage))
    | none => .error .noResult

/-- The schema text in a body. -/
def schemaText (body : String) : Except AnswerError String :=
  if body.toList.all Text.isBlank then .error .empty
  else match Json.parse? body.toList with
    | some json => sdlOfJson json
    | none => .ok body

end GraphqlCodegen.Introspection
