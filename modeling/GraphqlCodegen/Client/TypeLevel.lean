import GraphqlCodegen.Client.Code
/-!
# Types of selections and answers

The generic types that relate a selection to the answer that it gets.
-/

namespace GraphqlCodegen.Client

open GraphqlCodegen.Script

/-- Relates selections to answers. -/
def typeLevel : Block :=
  ⟨true, [
    ⟨none, true, .type, "AliasType", code [
      "<T> = T & ⟪ __typename?: boolean | `@$⟪string⟫` ⟫;"]⟩,
    ⟨none, true, .type, "ScalarResolver", code [
      " = ⟪",
      "  encode?: (value: unknown) => string;",
      "  decode?: (value: unknown) => unknown;",
      "⟫;"]⟩,
    ⟨none, true, .type, "ScalarDefinition", code [
      " = Record<string, ScalarResolver>;"]⟩,
    ⟨none, true, .type, "OperationOptions", code [
      " = ⟪",
      "  operationName?: string;",
      "⟫;"]⟩,
    ⟨none, true, .type, "ThunderGraphQLOptions", code [
      "<SCLR extends ScalarDefinition> = ⟪",
      "  scalars?: SCLR | ScalarDefinition;",
      "⟫;"]⟩,
    ⟨none, true, .type, "GenericOperation", code [
      "<O> = O extends keyof typeof Ops ? (typeof Ops)[O] : never;"]⟩,
    ⟨none, true, .type, "Variable", code [
      "<T extends string, Name extends string> = ⟪",
      "  ' __zeus_name': Name;",
      "  ' __zeus_type': T;",
      "⟫;"]⟩,
    ⟨none, false, .type, "UnionToIntersection", code [
      "<U> = (U extends any ? (k: U) => void : never) extends (k: infer I) => void",
      "  ? I",
      "  : never;"]⟩,
    ⟨none, true, .type, "ExtractVariables", code [
      "<Query> = Query extends Variable<string, infer VName>",
      "  ? ⟪ [key in VName]: unknown ⟫",
      "  : Query extends [infer Inputs, infer Outputs]",
      "    ? ExtractVariables<Inputs> & ExtractVariables<Outputs>",
      "    : Query extends string | number | boolean",
      "      ? ⟪⟫",
      "      : UnionToIntersection<⟪ [K in keyof Query]: ExtractVariables<Query[K]> ⟫[keyof Query]>;"]⟩,
    ⟨some "Custom scalars in GraphQLTypes; InputType swaps them for the decoded type.", true, .type, "ScalarTag", code [
      "<Name extends string> = ⟪ readonly ' __zeus_scalar': Name ⟫;"]⟩,
    ⟨none, true, .type, "DecodedScalar", code [
      "<Name, SCLR extends ScalarDefinition> = Name extends keyof SCLR",
      "  ? NonNullable<NonNullable<SCLR[Name]>['decode']> extends (value: unknown) => infer D",
      "    ? D",
      "    : unknown",
      "  : unknown;"]⟩,
    ⟨none, true, .type, "InputType", code [
      "<SRC, IT, SCLR extends ScalarDefinition = ⟪⟫> = SRC extends Array<infer R>",
      "  ? Array<InputType<R, IT, SCLR>>",
      "  : SRC extends null | undefined",
      "    ? SRC",
      "    : SRC extends ScalarTag<infer Name>",
      "      ? DecodedScalar<Name, SCLR>",
      "      : IT extends [unknown, infer Selection]",
      "        ? InputType<SRC, Selection, SCLR>",
      "        : IT extends Record<string, unknown>",
      "          ? ⟪ [P in keyof IT & keyof SRC]: InputType<SRC[P], IT[P], SCLR> ⟫",
      "          : SRC;"]⟩]⟩

end GraphqlCodegen.Client
