import GraphqlCodegen.Client.Code
/-!
# Writing operations

How a client turns a selection into the text of an operation, and decodes the scalars of the
answer. It looks argument and return types up in the constant maps.
-/

namespace GraphqlCodegen.Client

open GraphqlCodegen.Script

/-- Writes operations and decodes answers. -/
def operations : Block :=
  ⟨true, [
    ⟨none, false, .type, "RenderContext", code [
      " = ⟪",
      "  variables: Map<string, string>;",
      "  scalars?: ScalarDefinition;",
      "⟫;"]⟩,
    ⟨none, true, .const, "$", code [
      " = <Type extends string, Name extends string>(name: Name, graphqlType: Type) =>",
      "  `$$⟪name⟫::$⟪graphqlType⟫` as unknown as Variable<Type, Name>;"]⟩,
    ⟨none, false, .const, "renderValue", code [
      " = (value: unknown, typeName: string | undefined, ctx: RenderContext): string => ⟪",
      "  if (value === null || value === undefined) return 'null';",
      "  if (typeof value === 'string' && value.startsWith('$') && value.includes('::')) ⟪",
      "    const [name, graphqlType] = value.slice(1).split('::');",
      "    ctx.variables.set(name, graphqlType);",
      "    return `$$⟪name⟫`;",
      "  ⟫",
      "  const encode = typeName ? ctx.scalars?.[typeName]?.encode : undefined;",
      "  if (encode) return encode(value);",
      "  if (Array.isArray(value)) ⟪",
      "    return `[$⟪value.map((item) => renderValue(item, typeName, ctx)).join(', ')⟫]`;",
      "  ⟫",
      "  if (typeof value === 'string') ⟪",
      "    return typeName && AllTypesProps[typeName] === 'enum' ? value : JSON.stringify(value);",
      "  ⟫",
      "  if (typeof value === 'object') ⟪",
      "    const fieldTypes = typeName ? AllTypesProps[typeName] : undefined;",
      "    const fields = Object.entries(value as Record<string, unknown>)",
      "      .filter(([, v]) => v !== undefined)",
      "      .map(([k, v]) => `$⟪k⟫: $⟪renderValue(v, typeof fieldTypes === 'object' ? fieldTypes[k] : undefined, ctx)⟫`);",
      "    return `⟪$⟪fields.join(', ')⟫⟫`;",
      "  ⟫",
      "  return String(value);",
      "⟫;"]⟩,
    ⟨none, false, .const, "renderArguments", code [
      " = (",
      "  args: Record<string, unknown>,",
      "  parentType: string | undefined,",
      "  field: string,",
      "  ctx: RenderContext,",
      "): string => ⟪",
      "  const argTypes = parentType ? AllTypesProps[parentType]?.[field] ?? ⟪⟫ : ⟪⟫;",
      "  const rendered = Object.entries(args)",
      "    .filter(([, value]) => value !== undefined)",
      "    .map(([name, value]) => `$⟪name⟫: $⟪renderValue(value, argTypes[name], ctx)⟫`);",
      "  return rendered.length ? `($⟪rendered.join(', ')⟫)` : '';",
      "⟫;"]⟩,
    ⟨none, false, .const, "renderSelection", code [
      " = (selection: unknown, typeName: string | undefined, ctx: RenderContext): string => ⟪",
      "  if (typeof selection !== 'object' || selection === null) return '';",
      "  const fields = Object.entries(selection as Record<string, unknown>)",
      "    .filter(([, value]) => value !== undefined && value !== false)",
      "    .map(([key, value]) => ⟪",
      "      if (key.startsWith('...on ')) ⟪",
      "        return `$⟪key⟫ $⟪renderSelection(value, key.slice('...on '.length), ctx)⟫`;",
      "      ⟫",
      "      const childType = typeName ? ReturnTypes[typeName]?.[key] : undefined;",
      "      if (Array.isArray(value)) ⟪",
      "        const [args, nested] = value;",
      "        const sub = typeof nested === 'object' ? ` $⟪renderSelection(nested, childType, ctx)⟫` : '';",
      "        return `$⟪key⟫$⟪renderArguments(args ?? ⟪⟫, typeName, key, ctx)⟫$⟪sub⟫`;",
      "      ⟫",
      "      if (typeof value === 'object') return `$⟪key⟫ $⟪renderSelection(value, childType, ctx)⟫`;",
      "      return key;",
      "    ⟫);",
      "  return `⟪ $⟪fields.join(' ')⟫ ⟫`;",
      "⟫;"]⟩,
    ⟨none, false, .const, "decodeScalars", code [
      " = (data: unknown, typeName: string | undefined, scalars?: ScalarDefinition): unknown => ⟪",
      "  if (!scalars || !typeName || data === null || data === undefined) return data;",
      "  if (Array.isArray(data)) return data.map((item) => decodeScalars(item, typeName, scalars));",
      "  const decode = scalars[typeName]?.decode;",
      "  if (decode) return decode(data);",
      "  if (typeof data !== 'object') return data;",
      "  return Object.fromEntries(",
      "    Object.entries(data as Record<string, unknown>).map(([key, value]) => [",
      "      key,",
      "      decodeScalars(value, ReturnTypes[typeName]?.[key], scalars),",
      "    ]),",
      "  );",
      "⟫;"]⟩,
    ⟨none, true, .const, "Zeus", code [
      " = <",
      "  Z extends ValueTypes[R],",
      "  O extends keyof typeof Ops,",
      "  R extends keyof ValueTypes = GenericOperation<O>,",
      ">(",
      "  operation: O,",
      "  o: Z,",
      "  ops?: ⟪ operationOptions?: OperationOptions; scalars?: ScalarDefinition ⟫,",
      ") => ⟪",
      "  const ctx: RenderContext = ⟪ variables: new Map(), scalars: ops?.scalars ⟫;",
      "  const body = renderSelection(o, Ops[operation], ctx);",
      "  const definitions = [...ctx.variables].map(([name, graphqlType]) => `$$⟪name⟫: $⟪graphqlType⟫`);",
      "  const variables = definitions.length ? `($⟪definitions.join(', ')⟫)` : '';",
      "  const name = ops?.operationOptions?.operationName;",
      "  return `$⟪String(operation)⟫$⟪name ? ` $⟪name⟫` : ''⟫$⟪variables⟫ $⟪body⟫`;",
      "⟫;"]⟩,
    ⟨none, true, .const, "Thunder", code [
      " =",
      "  (fn: FetchFunction, thunderGraphQLOptions?: ThunderGraphQLOptions<ScalarDefinition>) =>",
      "  <O extends keyof typeof Ops, SCLR extends ScalarDefinition, R extends keyof ValueTypes = GenericOperation<O>>(",
      "    operation: O,",
      "    graphqlOptions?: ThunderGraphQLOptions<SCLR>,",
      "  ) =>",
      "  <Z extends ValueTypes[R]>(o: Z, ops?: OperationOptions & ⟪ variables?: ExtractVariables<Z> ⟫) => ⟪",
      "    const scalars = graphqlOptions?.scalars ?? thunderGraphQLOptions?.scalars;",
      "    return fn(Zeus(operation, o, ⟪ operationOptions: ops, scalars ⟫), ops?.variables).then((data) =>",
      "      decodeScalars(data, Ops[operation], scalars),",
      "    ) as Promise<InputType<GraphQLTypes[R], Z, SCLR>>;",
      "  ⟫;"]⟩,
    ⟨none, true, .const, "Chain", code [
      " = (...options: chainOptions) => Thunder(apiFetch(options));"]⟩,
    ⟨none, true, .const, "SubscriptionThunder", code [
      " =",
      "  (fn: SubscriptionFunction, thunderGraphQLOptions?: ThunderGraphQLOptions<ScalarDefinition>) =>",
      "  <O extends keyof typeof Ops, SCLR extends ScalarDefinition, R extends keyof ValueTypes = GenericOperation<O>>(",
      "    operation: O,",
      "    graphqlOptions?: ThunderGraphQLOptions<SCLR>,",
      "  ) =>",
      "  <Z extends ValueTypes[R]>(o: Z, ops?: OperationOptions) => ⟪",
      "    const scalars = graphqlOptions?.scalars ?? thunderGraphQLOptions?.scalars;",
      "    const handle = fn(Zeus(operation, o, ⟪ operationOptions: ops, scalars ⟫));",
      "    return ⟪",
      "      ...handle,",
      "      on: (listener: (data: InputType<GraphQLTypes[R], Z, SCLR>) => void) =>",
      "        handle.on((data) =>",
      "          listener(decodeScalars(data, Ops[operation], scalars) as InputType<GraphQLTypes[R], Z, SCLR>),",
      "        ),",
      "    ⟫;",
      "  ⟫;"]⟩,
    ⟨none, true, .const, "Subscription", code [
      " = (...options: chainOptions) => SubscriptionThunder(apiSubscription(options));"]⟩]⟩

end GraphqlCodegen.Client
