import Mathlib.Data.List.Basic
import GraphqlCodegen.Bindings.Index
import GraphqlCodegen.Run

/-!
# The names at the top level of the client module

What a client module imports and declares has one of the names that are the same for every schema (`ownNames`), or is an enum of the
schema under its own name (`names_indexModule`). The own names are distinct, so a name is declared twice just where a schema has
two enums of one name, or an enum with one of the own names (`names_nodup_iff`).
-/

namespace GraphqlCodegen.Bindings

open Schema Script

/-- The names of the enums, in the order of their definitions. -/
def enumNames (t : Tree) : List String :=
  t.nodes.filterMap fun n => match n.kind with
    | .enum _ => some n.name
    | _ => none

/-- The names that a client imports. -/
def importedNames (o : Options) : List String :=
  (match o.environment with
    | .node => ["fetch", "Response", "WebSocket"]
    | .browser => [])
  ++ (match o.transport with
    | .graphqlWs => ["createClient"]
    | .legacy => [])
  ++ ["AllTypesProps", "ReturnTypes", "Ops"]

/-- The names of the endpoint and of the code, in the order of the module. -/
def codeNames : List String := [
  "HOST", "HEADERS", "fetchImpl", "WebSocketImpl",
  "GraphQLResponse", "GraphQLError", "chainOptions", "FetchFunction", "handleFetchResponse", "apiFetch", "SubscriptionHandle",
  "SubscriptionFunction", "apiSubscription",
  "RenderContext", "$", "renderValue", "renderArguments", "renderSelection", "decodeScalars", "Zeus", "Thunder", "Chain",
  "SubscriptionThunder", "Subscription",
  "AliasType", "ScalarResolver", "ScalarDefinition", "OperationOptions", "ThunderGraphQLOptions", "GenericOperation", "Variable",
  "UnionToIntersection", "ExtractVariables", "ScalarTag", "DecodedScalar", "InputType"]

/-- The names that a module has whatever the schema is. -/
def ownNames (o : Options) : List String := importedNames o ++ codeNames ++ ["ValueTypes", "ModelTypes", "GraphQLTypes"]

theorem names_enums (t : Tree) (isConst : Bool) : (t.nodes.filterMap (enumOf isConst)).map TypeDef.name = enumNames t := by
  rw [List.map_filterMap, enumNames]
  refine List.filterMap_congr fun n _ => ?_
  unfold enumOf
  cases n.kind <;> rfl

/-- The enums stand between the code and the type maps. -/
theorem names_indexModule (t : Tree) (o : Options) (host : Option String) : (indexModule t o host).names =
    importedNames o ++ codeNames ++ (enumNames t ++ ["ValueTypes", "ModelTypes", "GraphQLTypes"]) := by
  have himports : (indexImports o).flatMap Import.names = importedNames o := by
    rw [indexImports, importedNames]
    cases o.environment <;> cases o.transport <;> rfl
  have hstatements : (indexModule t o host).statements.flatMap Stmt.names = codeNames := by
    rw [indexModule]
    cases o.environment <;> cases o.transport <;> rfl
  have htypes : (indexModule t o host).types.map TypeDef.name = enumNames t ++ ["ValueTypes", "ModelTypes", "GraphQLTypes"] := by
    rw [indexModule, List.map_append, names_enums]
    rfl
  rw [Module.names, hstatements, htypes]
  exact congrArg (· ++ _ ++ _) himports

theorem ownNames_nodup (o : Options) : (ownNames o).Nodup := by
  rw [ownNames, importedNames]
  cases o.environment <;> cases o.transport <;> decide +kernel

/-- All code of the module is declared under names, and the names that are imported or declared are distinct just if no two enums
share a name and none has a name of the module's own. -/
theorem names_nodup_iff (t : Tree) (o : Options) (host : Option String) : (∀ code, .raw code ∉ (indexModule t o host).statements) ∧
    ((indexModule t o host).names.Nodup ↔ (enumNames t).Nodup ∧ ∀ name ∈ enumNames t, name ∉ ownNames o) := by
  refine ⟨by simp [indexModule], ?_⟩
  have hperm : (indexModule t o host).names.Perm (enumNames t ++ ownNames o) := by
    rw [names_indexModule, ownNames, ← List.append_assoc, ← List.append_assoc]
    exact List.perm_append_comm.append_right _
  rw [hperm.nodup_iff, List.nodup_append]
  exact ⟨fun h => ⟨h.1, fun name hn ho => h.2.2 name hn name ho rfl⟩,
    fun h => ⟨h.1, ownNames_nodup o, fun a ha b hb he => h.2 a ha (he ▸ hb)⟩⟩

/-- An enum of a schema that is read may have the name of the function that writes operations. -/
example : (readSchema "type Query { chief: God }\nenum God { ZEUS }\nenum Zeus { THUNDER }\n").toOption.map enumNames =
    some ["God", "Zeus"] := by
  decide +kernel

end GraphqlCodegen.Bindings
