import GraphqlCodegen.Disk.Basic
import GraphqlCodegen.Http.Exchange
import GraphqlCodegen.Introspection.Answer
import GraphqlCodegen.Introspection.Query
/-!
# Acquiring a schema

The schema text of an endpoint, which is asked with the introspection query.
-/

namespace GraphqlCodegen

open Http Introspection

/-- Why an endpoint gives no schema text. -/
inductive FetchError where
  | invalidHeader (cause : HeaderError)
  | invalidUrl (cause : UrlError)
  /-- No request can be made for the URL; for a text that is no URL it is not said which. -/
  | unusableUrl (url : Option String)
  | noAnswer (url : String)
  | refused (status : Nat)
  | incompleteBody (url : String)
  | unusableBody (cause : AnswerError)
  /-- Another cause, in words. -/
  | other (text : String)
  deriving DecidableEq, Repr

namespace FetchError

/-- A place behind what happened there. -/
def atUrl (url : String) : String := " for url (" ++ url ++ ")"

def message : FetchError → String
  | .invalidHeader cause => cause.message
  | .invalidUrl cause => "Invalid URL: " ++ cause.message
  | .unusableUrl none => "Request failed: builder error"
  | .unusableUrl (some url) => "Request failed: builder error" ++ atUrl url
  | .noAnswer url => "Request failed: error sending request" ++ atUrl url
  | .refused status => "Server responded with status " ++ statusText status
  | .incompleteBody url =>
    "Failed to read response body: error decoding response body" ++ atUrl url
  | .unusableBody cause => cause.message
  | .other text => text

end FetchError

/-- The name of the query in a form and in the body of a request. -/
def queryField : String := "query"

/-- The body of a request that is posted. -/
def queryBody : String := Json.compact (Json.Value.ofPairs [(queryField, .string query)])

/-- The URL that is asked, and the body that is sent to it. -/
def queryUrl (method : Method) (url : String) : Except FetchError Url :=
  match method with
  | .get => ((Url.parse url).mapError .invalidUrl).map (·.withField queryField query)
  | .post => (Url.parse url).mapError fun _ => .unusableUrl none

/-- The request that asks an endpoint for its schema. -/
def schemaRequest (url : String) (method : Method) (headers : List String) :
    Except FetchError Request := do
  let user ← (Headers.parse headers).mapError .invalidHeader
  let target ← queryUrl method url
  let (target, own) := if target.hasHost then authenticate target else (target, [])
  if !isSendable target then throw (.unusableUrl (some target.text))
  let body := match method with
    | .get => ""
    | .post => queryBody
  return ⟨method, target, requestHeaders method body own user, body⟩

/-- The schema text that an endpoint gives for a request. -/
def answeredText (e : Endpoint) (request : Request) : Except FetchError String :=
  match e.send request with
  | none => .error (.noAnswer request.url.text)
  | some response =>
    if !isSuccess response.status then .error (.refused response.status)
    else match response.received with
      | none => .error (.incompleteBody request.url.text)
      | some bytes =>
        (schemaText (Charset.bodyText (response.headers.get? "content-type") bytes)).mapError
          .unusableBody

/-- The schema text of the endpoint at a URL. -/
def fetchSchema (e : Endpoint) (url : String) (method : Method) (headers : List String) :
    Except FetchError String := do
  answeredText e (← schemaRequest url method headers)

end GraphqlCodegen
