import GraphqlCodegen.Http.Host
/-!
# URLs

URLs are read as web browsers read them and kept in their normal form: scheme and host in lower
case, dots in the path resolved, and encoded what has to be.
-/

namespace GraphqlCodegen.Http

/-- How the rest of a URL is read depends on its scheme. -/
inductive SchemeKind where
  /-- A host is required, and a backslash counts as a slash. -/
  | web
  | file
  | other
  deriving DecidableEq, Repr

def SchemeKind.ofScheme (scheme : List Char) : SchemeKind :=
  if ["http", "https", "ws", "wss", "ftp"].any (·.toList == scheme) then .web
  else if scheme = "file".toList then .file
  else .other

/-- The scheme of a web page or a local file. -/
def SchemeKind.isSpecial (k : SchemeKind) : Bool := k != .other

/-- The port that need not be written. -/
def defaultPort (scheme : List Char) : Option Nat :=
  ([("http", 80), ("ws", 80), ("https", 443), ("wss", 443), ("ftp", 21)].find?
    (·.1.toList == scheme)).map (·.2)

structure Authority where
  username : List Char
  password : Option (List Char)
  /-- Empty where there is none. -/
  host : List Char
  port : Option Nat
  deriving DecidableEq, Repr

structure Url where
  scheme : List Char
  authority : Option Authority
  path : List Char
  query : Option (List Char)
  fragment : Option (List Char)
  deriving DecidableEq, Repr

namespace Authority

/-- A user name or a password is given. -/
def hasUserinfo (a : Authority) : Bool := !a.username.isEmpty || a.password.isSome

def userinfoText (a : Authority) : List Char :=
  if a.hasUserinfo then
    a.username ++ (match a.password with
      | some p => ':' :: p
      | none => []) ++ ['@']
  else []

/-- The host with its port. -/
def hostText (a : Authority) : List Char :=
  a.host ++ match a.port with
    | some p => ':' :: Host.decimalText p
    | none => []

end Authority

namespace Url

/-! ## Parts of the text -/

def isLineOrTab (c : Char) : Bool := c = '\t' || c = '\n' || c = '\r'

/-- The text without controls and spaces at both its ends, and without tabs and line ends. -/
def cleaned (cs : List Char) : List Char :=
  let isEdge (c : Char) : Bool := c.toNat ≤ 0x20
  ((cs.dropWhile isEdge).reverse.dropWhile isEdge).reverse.filter (!isLineOrTab ·)

def isSchemeChar (c : Char) : Bool := c.isAlphanum || c = '+' || c = '-' || c = '.'

/-- The scheme in lower case, and what stands behind its colon. -/
def splitScheme (cs : List Char) : Option (List Char × List Char) :=
  let scheme := cs.takeWhile isSchemeChar
  match scheme, cs.dropWhile isSchemeChar with
  | first :: _, ':' :: rest => if first.isAlpha then some (scheme.map Char.toLower, rest) else none
  | _, _ => none

/-- A slash, or a backslash where that counts as one. -/
def isSlash (k : SchemeKind) (c : Char) : Bool := c = '/' || (k.isSpecial && c = '\\')

def endsAuthority (k : SchemeKind) (c : Char) : Bool := isSlash k c || c = '?' || c = '#'

/-- The text before the last at sign, if there is one, and the text behind it. -/
def splitUserinfo (cs : List Char) : Option (List Char) × List Char :=
  let back := cs.reverse
  match back.dropWhile (· != '@') with
  | [] => (none, cs)
  | _ :: before => (some before.reverse, (back.takeWhile (· != '@')).reverse)

/-- The host and what stands behind it; colons inside brackets belong to the host. -/
def splitHost (inside : Bool) : List Char → List Char × List Char
  | [] => ([], [])
  | c :: cs =>
    if c = ':' && !inside then ([], c :: cs)
    else
      let (host, rest) := splitHost (if c = '[' then true else if c = ']' then false else inside) cs
      (c :: host, rest)

/-- The port behind a host. One that is not written, or is that of the scheme, is left out. -/
def port (scheme : List Char) : List Char → Except UrlError (Option Nat)
  | ':' :: digits =>
    match Host.digitsValue? 10 digits with
    | some n =>
      if n > 65535 then .error .invalidPort
      else .ok (if digits.isEmpty || defaultPort scheme = some n then none else some n)
    | none => .error .invalidPort
  | _ => .ok none

/-- User name and password, encoded. -/
def userinfo (cs : List Char) : List Char × Option (List Char) :=
  let encode := percentEncode isEncodedInUserinfo
  match cs.dropWhile (· != ':') with
  | _ :: c :: password => (encode (cs.takeWhile (· != ':')), some (encode (c :: password)))
  | _ => (encode (cs.takeWhile (· != ':')), none)

/-- The authority in front of the path. -/
def readAuthority (k : SchemeKind) (scheme cs : List Char) : Except UrlError Authority := do
  let (user, rest) := splitUserinfo cs
  let (username, password) := userinfo (user.getD [])
  let (host, rest) := splitHost false rest
  if host.isEmpty then
    if k = .web || !username.isEmpty || password.isSome || rest.head? = some ':' then
      throw .emptyHost
    else return ⟨[], none, [], none⟩
  else
    let host ← if k = .web then Host.web host else Host.opaqueHost host
    return ⟨username, password, host, ← port scheme rest⟩

/-! ## Paths -/

def isSingleDot (segment : List Char) : Bool :=
  [".", "%2e"].any (·.toList == segment.map Char.toLower)

def isDoubleDot (segment : List Char) : Bool :=
  ["..", "%2e.", ".%2e", "%2e%2e"].any (·.toList == segment.map Char.toLower)

/-- The segments between slashes. -/
def splitSegments (k : SchemeKind) : List Char → List (List Char)
  | [] => [[]]
  | c :: cs =>
    if isSlash k c then [] :: splitSegments k cs
    else match splitSegments k cs with
      | [] => [[c]]
      | s :: ss => (c :: s) :: ss

/-- The segments with the dots resolved: one dot stays where it is and two dots step back. Dots at
the end leave a slash there. The segments so far are kept in reverse. -/
def resolveDots (before : List (List Char)) : List (List Char) → List (List Char)
  | [] => before.reverse
  | [last] =>
    (if isDoubleDot last then [] :: before.tail
      else if isSingleDot last then [] :: before
      else last :: before).reverse
  | s :: ss =>
    if isDoubleDot s then resolveDots before.tail ss
    else if isSingleDot s then resolveDots before ss
    else resolveDots (s :: before) ss

/-- Segments with a slash in front of each. -/
def segmentsText (segments : List (List Char)) : List Char :=
  segments.flatMap ('/' :: ·)

/-- A path whose first slash has been taken. -/
def rootedPath (k : SchemeKind) (cs : List Char) : List Char :=
  segmentsText (resolveDots [] (splitSegments k (percentEncode isEncodedInPath cs)))

/-- The path behind an authority. Only outside the web it may be empty. -/
def pathAfterAuthority (k : SchemeKind) : List Char → List Char
  | [] => if k.isSpecial then ['/'] else []
  | c :: cs => if isSlash k c then rootedPath k cs else rootedPath k (c :: cs)

/-! ## The whole -/

/-- A URL without its query and fragment. -/
def beforeQuery (k : SchemeKind) (scheme cs : List Char) : Except UrlError Url := do
  let withAuthority (cs : List Char) : Except UrlError Url := do
    let a ← readAuthority k scheme (cs.takeWhile (!isSlash k ·))
    return ⟨scheme, some a, pathAfterAuthority k (cs.dropWhile (!isSlash k ·)), none, none⟩
  match k, cs with
  | .web, cs => withAuthority (cs.dropWhile (isSlash k))
  | .file, c :: d :: rest =>
    if isSlash k c && isSlash k d then withAuthority rest
    else return ⟨scheme, some ⟨[], none, [], none⟩, pathAfterAuthority k (c :: d :: rest), none, none⟩
  | .file, cs => return ⟨scheme, some ⟨[], none, [], none⟩, pathAfterAuthority k cs, none, none⟩
  | .other, '/' :: '/' :: rest => withAuthority rest
  | .other, '/' :: rest => return ⟨scheme, none, rootedPath k rest, none, none⟩
  | .other, cs => return ⟨scheme, none, percentEncode (fun _ => false) cs, none, none⟩

/-- The text behind a character, if that is there. -/
def behind (mark : Char) (cs : List Char) : Option (List Char) :=
  match cs.dropWhile (· != mark) with
  | [] => none
  | _ :: rest => some rest

/-- Reads a URL. -/
def parse (text : String) : Except UrlError Url := do
  match splitScheme (cleaned text.toList) with
  | none => throw .relative
  | some (scheme, rest) =>
    let k := SchemeKind.ofScheme scheme
    let beforeFragment := rest.takeWhile (· != '#')
    let url ← beforeQuery k scheme (beforeFragment.takeWhile (· != '?'))
    return { url with
      query := (behind '?' beforeFragment).map (percentEncode (isEncodedInQuery (k = .web)))
      fragment := (behind '#' rest).map (percentEncode isEncodedInFragment) }

/-- The URL with a form field added to its query. -/
def withField (u : Url) (name value : String) : Url :=
  let pair := formEncode name.toList ++ '=' :: formEncode value.toList
  { u with query := match u.query with
      | none | some [] => some pair
      | some query => some (query ++ '&' :: pair) }

/-- The query with its mark. -/
def queryText (u : Url) : List Char :=
  match u.query with
  | some q => '?' :: q
  | none => []

/-- The fragment with its mark. -/
def fragmentText (u : Url) : List Char :=
  match u.fragment with
  | some f => '#' :: f
  | none => []

/-- The text of a URL. -/
def text (u : Url) : String :=
  String.ofList (u.scheme ++ ':' ::
    (match u.authority with
      | some a => '/' :: '/' :: (a.userinfoText ++ a.hostText)
      | none => if "//".toList.isPrefixOf u.path then ['/', '.'] else [])
    ++ u.path ++ queryText u ++ fragmentText u)

/-- The host with its port, as a request names it. -/
def hostAndPort (u : Url) : String :=
  match u.authority with
  | some a => String.ofList a.hostText
  | none => ""

def hasHost (u : Url) : Bool :=
  match u.authority with
  | some a => !a.host.isEmpty
  | none => false

/-- The path with the query, as a request asks for it. -/
def target (u : Url) : String := String.ofList (u.path ++ queryText u)

end Url
end GraphqlCodegen.Http
