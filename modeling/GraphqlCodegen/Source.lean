/-!
# Sources

Where a schema comes from: the URL of an endpoint, or the path of a file.
-/

namespace GraphqlCodegen

inductive Source where
  | url (url : String)
  | path (path : String)
  deriving DecidableEq, Repr

namespace Source

/-- The beginnings of a URL. Anything else is a path. -/
def schemes : List String := ["http://", "https://"]

/-- The source that a text stands for. -/
def classify (text : String) : Source :=
  if schemes.any fun scheme => scheme.toList.isPrefixOf text.toList then .url text else .path text

/-- The text of the source. -/
def text : Source → String
  | .url text => text
  | .path text => text

/-- The URL, if the source is an endpoint. -/
def url? : Source → Option String
  | .url text => some text
  | .path _ => none

@[simp] theorem text_classify (text : String) : (classify text).text = text := by
  unfold classify; split <;> rfl

end Source
end GraphqlCodegen
