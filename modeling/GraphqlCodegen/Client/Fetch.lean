import GraphqlCodegen.Client.Code
/-!
# Sending requests

What a client sends requests with: the functions of the environment, the kinds of answers and
options, and the function that posts or gets a query.
-/

namespace GraphqlCodegen.Client

open GraphqlCodegen.Script

/-- Binds the imported functions that a client outside of a browser uses. -/
def nodeBindings : Block :=
  ⟨false, [
    ⟨none, false, .const, "fetchImpl", code [
      " = fetch;"]⟩,
    ⟨none, false, .const, "WebSocketImpl", code [
      " = WebSocket;"]⟩]⟩

/-- Binds the functions that a browser offers. -/
def browserBindings : Block :=
  ⟨false, [
    ⟨none, false, .const, "fetchImpl", code [
      " = globalThis.fetch.bind(globalThis);"]⟩,
    ⟨none, false, .const, "WebSocketImpl", code [
      " = globalThis.WebSocket;"]⟩]⟩

/-- Sends a query and reads the answer. -/
def fetching : Block :=
  ⟨true, [
    ⟨none, true, .type, "GraphQLResponse", code [
      " = ⟪",
      "  data?: Record<string, any>;",
      "  errors?: Array<⟪ message: string ⟫>;",
      "⟫;"]⟩,
    ⟨none, true, .classDecl, "GraphQLError", code [
      " extends Error ⟪",
      "  constructor(public response: GraphQLResponse) ⟪",
      "    super('');",
      "    console.error(response);",
      "  ⟫",
      "  toString() ⟪",
      "    return 'GraphQL Response Error';",
      "  ⟫",
      "⟫"]⟩,
    ⟨none, true, .type, "chainOptions", code [
      " =",
      "  | [string, ⟪ headers?: Record<string, string>; method?: 'GET' | 'POST' ⟫]",
      "  | [string];"]⟩,
    ⟨none, true, .type, "FetchFunction", code [
      " = (query: string, variables?: Record<string, unknown>) => Promise<any>;"]⟩,
    ⟨none, false, .const, "handleFetchResponse", code [
      " = (response: Response): Promise<GraphQLResponse> => ⟪",
      "  if (!response.ok) ⟪",
      "    return new Promise((_, reject) => ⟪",
      "      response",
      "        .text()",
      "        .then((text) => ⟪",
      "          try ⟪",
      "            reject(JSON.parse(text));",
      "          ⟫ catch ⟪",
      "            reject(text);",
      "          ⟫",
      "        ⟫)",
      "        .catch(reject);",
      "    ⟫);",
      "  ⟫",
      "  return response.json() as Promise<GraphQLResponse>;",
      "⟫;"]⟩,
    ⟨none, true, .const, "apiFetch", code [
      " =",
      "  (options: chainOptions): FetchFunction =>",
      "  (query: string, variables: Record<string, unknown> = ⟪⟫) => ⟪",
      "    const [url, init = ⟪⟫] = options;",
      "    const headers = ⟪ ...HEADERS, ...init.headers ⟫;",
      "    const request =",
      "      init.method === 'GET'",
      "        ? fetchImpl(`$⟪url⟫?query=$⟪encodeURIComponent(query)⟫`, ⟪ ...init, headers ⟫)",
      "        : fetchImpl(url, ⟪",
      "            ...init,",
      "            method: 'POST',",
      "            headers: ⟪ 'Content-Type': 'application/json', ...headers ⟫,",
      "            body: JSON.stringify(⟪ query, variables ⟫),",
      "          ⟫);",
      "    return request.then(handleFetchResponse).then((response) => ⟪",
      "      if (response.errors) ⟪",
      "        throw new GraphQLError(response);",
      "      ⟫",
      "      return response.data;",
      "    ⟫);",
      "  ⟫;"]⟩,
    ⟨none, true, .type, "SubscriptionHandle", code [
      " = ⟪",
      "  ws: unknown;",
      "  unsubscribe?: () => void;",
      "  on: (fn: (data: any) => void) => void;",
      "  off: (fn: (event: unknown) => void) => void;",
      "  error: (fn: (event: unknown) => void) => void;",
      "  open: (fn: () => void) => void;",
      "⟫;"]⟩,
    ⟨none, true, .type, "SubscriptionFunction", code [
      " = (query: string) => SubscriptionHandle;"]⟩]⟩

end GraphqlCodegen.Client
