import GraphqlCodegen.Http.Base64
import GraphqlCodegen.Http.Charset
import GraphqlCodegen.Http.Status
import GraphqlCodegen.Http.Url
import GraphqlCodegen.Options
/-!
# Requests and responses

What is sent to an endpoint and what comes back. An endpoint is a function: the response that it
has for a request, or none if it cannot be reached or hangs up.
-/

namespace GraphqlCodegen.Http

structure Request where
  method : Method
  url : Url
  headers : Headers
  body : String
  deriving DecidableEq, Repr

structure Response where
  status : Nat
  headers : Headers
  body : List UInt8
  /-- The length that the response declares, if it is not that of its body. -/
  declaredLength : Option Nat
  deriving DecidableEq, Repr

/-- What answers requests. -/
abbrev Endpoint := Request → Option Response

/-! ## Requests -/

/-- The user name and password in a URL, as the text that authenticates with them. Names that are
no text are left in the URL. -/
def credentials (a : Authority) : Option (List UInt8) :=
  if !a.hasUserinfo || (String.fromUTF8? ⟨(percentDecode a.username).toArray⟩).isNone then none
  else
    let password := (a.password.map percentDecode).filter fun bytes =>
      (String.fromUTF8? ⟨bytes.toArray⟩).isSome
    some (percentDecode a.username ++ ':'.toUInt8 :: password.getD [])

/-- The field that authenticates, and the URL without its user name and password. -/
def authenticate (u : Url) : Url × Headers :=
  match u.authority with
  | none => (u, [])
  | some a =>
    match credentials a with
    | none => (u, [])
    | some text =>
      ({ u with authority := some { a with username := [], password := none } },
        [⟨"authorization", "Basic " ++ String.ofList (base64 text)⟩])

/-- The greatest length of a URL that can be sent. -/
def urlLimit : Nat := 65534

/-- Characters that the host of a request may hold. -/
def isHostChar (c : Char) : Bool :=
  c.isAlphanum || ['!', '$', '&', '\'', '(', ')', '*', '+', ',', '-', '.', ':', ';', '=', '[', ']',
    '_', '~', '%'].contains c

/-- A request can be made for the URL. -/
def isSendable (u : Url) : Bool :=
  (u.scheme == "http".toList || u.scheme == "https".toList) && u.hasHost
    && u.hostAndPort.toList.all isHostChar && u.text.utf8ByteSize ≤ urlLimit

/-- The fields of a request for a body. The user's fields take the place of others, and whoever does
not say what to accept accepts everything. -/
def requestHeaders (method : Method) (body : String) (own user : Headers) : Headers :=
  let standard : Headers := match method with
    | .get => []
    | .post => [⟨"content-type", "application/json"⟩]
  let size : Headers := match method with
    | .get => []
    | .post => [⟨"content-length", String.ofList (Nat.toDigits 10 body.utf8ByteSize)⟩]
  Headers.overlay ((⟨"accept", "*/*"⟩ : Header) :: standard ++ own ++ size) user

/-! ## Responses -/

/-- The bytes of the body that arrive: as many as are declared, or none at all if there are
fewer. -/
def Response.received (r : Response) : Option (List UInt8) :=
  if isBodiless r.status then some []
  else match r.declaredLength with
    | none => some r.body
    | some n => if n ≤ r.body.length then some (r.body.take n) else none

/-- Sends a request. A response that only announces another one is never followed by it. -/
def Endpoint.send (e : Endpoint) (r : Request) : Option Response :=
  (e r).filter fun response => !isInterim response.status

end GraphqlCodegen.Http
