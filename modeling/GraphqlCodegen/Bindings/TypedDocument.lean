import GraphqlCodegen.Bindings.Index
/-!
# The typed document module

A module beside the client that turns a selection into a document which carries the types of its
result and of its variables.
-/

namespace GraphqlCodegen.Bindings

open GraphqlCodegen.Script

/-- The function that builds a document. -/
def typedDocument : Declaration where
  comment := none
  exported := true
  keyword := .const
  name := "typedGql"
  rest := Client.code [
    " =",
    "  <O extends keyof typeof Ops, SCLR extends ScalarDefinition, R extends keyof ValueTypes = GenericOperation<O>>(",
    "    operation: O,",
    "    graphqlOptions?: ThunderGraphQLOptions<SCLR>,",
    "  ) =>",
    "  <Z extends ValueTypes[R]>(",
    "    o: Z & ⟪",
    "      [P in keyof Z]: P extends keyof ValueTypes[R] ? Z[P] : never;",
    "    ⟫,",
    "    ops?: OperationOptions,",
    "  ) => ⟪",
    "    const str = Zeus(operation, o, ⟪",
    "      operationOptions: ops,",
    "      scalars: graphqlOptions?.scalars,",
    "    ⟫);",
    "    return gql(str) as TypedDocumentNode<InputType<GraphQLTypes[R], Z, SCLR>, ExtractVariables<Z>>;",
    "  ⟫;"    ]

/-- What the module takes from the client module. -/
def clientNames : List String := [
  "ValueTypes", "GenericOperation", "OperationOptions", "GraphQLTypes", "InputType",
  "ScalarDefinition", "ThunderGraphQLOptions", "Zeus", "ExtractVariables"]

/-- The path by which the client module is imported. -/
def clientPath (jsExtensions : Bool) : String := if jsExtensions then "./index.js" else "./"

/-- The tag that reads documents is the default of its package, but a name for ES modules. -/
def tagImport : ModuleStyle → Import
  | .esModule => Import.named ["gql"] "graphql-tag"
  | .commonJs => Import.ofDefault "gql" "graphql-tag"

/-- The typed document module. -/
def typedDocumentModule (o : Options) : Module where
  header := [headerComment]
  imports := [
    Import.named ["TypedDocumentNode"] "@graphql-typed-document-node/core",
    tagImport o.moduleStyle,
    Import.named clientNames (clientPath o.usesJsExtensions),
    Import.named ["Ops"] (siblingPath "const" o.usesJsExtensions)]
  statements := [.block ⟨true, [typedDocument]⟩]
  types := []

end GraphqlCodegen.Bindings
