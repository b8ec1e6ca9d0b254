import GraphqlCodegen.Client.Code
/-!
# The introspection query

The query that an endpoint is sent. It asks for wrapped types down to a fixed depth.
-/

namespace GraphqlCodegen.Introspection

/-- The lines of the query, where brackets stand for braces. -/
def queryLines : List String := [
  "query IntrospectionQuery ⟪",
  "  __schema ⟪",
  "    queryType ⟪ name ⟫",
  "    mutationType ⟪ name ⟫",
  "    subscriptionType ⟪ name ⟫",
  "    types ⟪ ...FullType ⟫",
  "  ⟫",
  "⟫",
  "",
  "fragment FullType on __Type ⟪",
  "  kind",
  "  name",
  "  description",
  "  fields(includeDeprecated: true) ⟪",
  "    name",
  "    description",
  "    args ⟪ ...InputValue ⟫",
  "    type ⟪ ...TypeRef ⟫",
  "    isDeprecated",
  "    deprecationReason",
  "  ⟫",
  "  inputFields ⟪ ...InputValue ⟫",
  "  interfaces ⟪ ...TypeRef ⟫",
  "  enumValues(includeDeprecated: true) ⟪",
  "    name",
  "    description",
  "    isDeprecated",
  "    deprecationReason",
  "  ⟫",
  "  possibleTypes ⟪ ...TypeRef ⟫",
  "⟫",
  "",
  "fragment InputValue on __InputValue ⟪",
  "  name",
  "  description",
  "  type ⟪ ...TypeRef ⟫",
  "  defaultValue",
  "⟫",
  "",
  "fragment TypeRef on __Type ⟪",
  "  kind",
  "  name",
  "  ofType ⟪",
  "    kind",
  "    name",
  "    ofType ⟪",
  "      kind",
  "      name",
  "      ofType ⟪",
  "        kind",
  "        name",
  "        ofType ⟪",
  "          kind",
  "          name",
  "          ofType ⟪",
  "            kind",
  "            name",
  "            ofType ⟪",
  "              kind",
  "              name",
  "              ofType ⟪",
  "                kind",
  "                name",
  "              ⟫",
  "            ⟫",
  "          ⟫",
  "        ⟫",
  "      ⟫",
  "    ⟫",
  "  ⟫",
  "⟫"]

/-- The text of the query. -/
def query : String := Client.code queryLines

end GraphqlCodegen.Introspection
