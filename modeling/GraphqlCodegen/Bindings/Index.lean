import GraphqlCodegen.Bindings.Types
import GraphqlCodegen.Client.Fetch
import GraphqlCodegen.Client.Subscription
import GraphqlCodegen.Client.Operation
import GraphqlCodegen.Client.TypeLevel
import GraphqlCodegen.Options
/-!
# The client module

The module that users import: the endpoint, the code of the client, the enums of the schema and
the type maps.
-/

namespace GraphqlCodegen.Bindings

open GraphqlCodegen.Schema GraphqlCodegen.Script

/-- The path by which a module imports another one in its directory. -/
def siblingPath (name : String) (jsExtensions : Bool) : String :=
  "./" ++ name ++ (if jsExtensions then ".js" else "")

/-- The endpoint of a client whose schema came from a file. -/
def unknownHost : String := "Specify host"

def environmentBlock : Environment → Block
  | .node => Client.nodeBindings
  | .browser => Client.browserBindings

def subscriptionBlock : Transport → Block
  | .graphqlWs => Client.protocolSubscription
  | .legacy => Client.plainSubscription

def indexImports (o : Options) : List Import :=
  (match o.environment with
    | .node => [⟨some "fetch", ["Response"], "node-fetch"⟩, Import.ofDefault "WebSocket" "ws"]
    | .browser => [])
  ++ (match o.transport with
    | .graphqlWs => [Import.named ["createClient"] "graphql-ws"]
    | .legacy => [])
  ++ [Import.named ["AllTypesProps", "ReturnTypes", "Ops"]
    (siblingPath "const" o.usesJsExtensions)]

/-- The enum of a type; each of its values stands for its own name. -/
def enumOf (isConst : Bool) (n : Node) : Option TypeDef :=
  match n.kind with
  | .enum values => some (.enum n.name (values.map fun v => (v.name, v.name)) isConst)
  | _ => none

/-- An interface with a property for every declared type. -/
def typeMap (name : String) (t : Tree) (entry : Node → Ty) : TypeDef :=
  .interface name (t.nodes.map fun n => ⟨n.name, false, entry n⟩)

/-- The client module for an endpoint. -/
def indexModule (t : Tree) (o : Options) (host : Option String) : Module where
  header := [headerComment]
  imports := indexImports o
  statements := [
    .const "HOST" none (.string (host.getD unknownHost)) true,
    .const "HEADERS" (some (.ref "Record<string, string>")) (.object []) true,
    .block (environmentBlock o.environment),
    .block Client.fetching,
    .block (subscriptionBlock o.transport),
    .block Client.operations,
    .block Client.typeLevel]
  types := t.nodes.filterMap (enumOf o.constEnums) ++ [
    typeMap valueMap t (valueType t),
    typeMap AnswerMap.model.name t (answerShape t .model),
    typeMap AnswerMap.graphql.name t (answerShape t .graphql)]

end GraphqlCodegen.Bindings
