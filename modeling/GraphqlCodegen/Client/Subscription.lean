import GraphqlCodegen.Client.Code
/-!
# Subscribing

How a client subscribes: over the client protocol `graphql-ws`, or over a plain socket with the
older `start` message.
-/

namespace GraphqlCodegen.Client

open GraphqlCodegen.Script

/-- Subscribes over a plain socket. -/
def plainSubscription : Block :=
  ⟨true, [
    ⟨none, true, .const, "apiSubscription", code [
      " =",
      "  (options: chainOptions): SubscriptionFunction =>",
      "  (query: string) => ⟪",
      "    const url = options[0].replace(/^http/, 'ws');",
      "    const ws: any = new WebSocketImpl(url, 'graphql-ws');",
      "    ws.addEventListener('open', () => ⟪",
      "      ws.send(",
      "        JSON.stringify(⟪",
      "          type: 'connection_init',",
      "          payload: ⟪ headers: ⟪ ...HEADERS, ...options[1]?.headers ⟫ ⟫,",
      "        ⟫),",
      "      );",
      "      ws.send(JSON.stringify(⟪ id: '1', type: 'start', payload: ⟪ query ⟫ ⟫));",
      "    ⟫);",
      "    return ⟪",
      "      ws,",
      "      unsubscribe: () => ws.send(JSON.stringify(⟪ id: '1', type: 'stop' ⟫)),",
      "      on: (fn) => ⟪",
      "        ws.addEventListener('message', (event: ⟪ data: unknown ⟫) => ⟪",
      "          if (typeof event.data !== 'string') return;",
      "          const message = JSON.parse(event.data);",
      "          if (message.type === 'data' && message.payload?.data) ⟪",
      "            fn(message.payload.data);",
      "          ⟫",
      "        ⟫);",
      "      ⟫,",
      "      off: (fn) => ws.addEventListener('close', fn),",
      "      error: (fn) => ws.addEventListener('error', fn),",
      "      open: (fn) => ws.addEventListener('open', fn),",
      "    ⟫;",
      "  ⟫;"]⟩]⟩

/-- Subscribes over the client protocol. -/
def protocolSubscription : Block :=
  ⟨true, [
    ⟨none, true, .const, "apiSubscription", code [
      " = (options: chainOptions): SubscriptionFunction => ⟪",
      "  const client = createClient(⟪",
      "    url: String(options[0]).replace(/^http/, 'ws'),",
      "    webSocketImpl: WebSocketImpl,",
      "    connectionParams: ⟪ headers: ⟪ ...HEADERS, ...options[1]?.headers ⟫ ⟫,",
      "  ⟫);",
      "  return (query: string) => ⟪",
      "    let onNext: ((data: any) => void) | undefined;",
      "    let onError: ((event: unknown) => void) | undefined;",
      "    let onClose: ((event: unknown) => void) | undefined;",
      "    const unsubscribe = client.subscribe(",
      "      ⟪ query ⟫,",
      "      ⟪",
      "        next: (⟪ data ⟫) => onNext?.(data),",
      "        error: (event) => onError?.(event),",
      "        complete: () => onClose?.(undefined),",
      "      ⟫,",
      "    );",
      "    return ⟪",
      "      ws: client,",
      "      unsubscribe,",
      "      on: (fn) => ⟪",
      "        onNext = fn;",
      "      ⟫,",
      "      off: (fn) => ⟪",
      "        onClose = fn;",
      "      ⟫,",
      "      error: (fn) => ⟪",
      "        onError = fn;",
      "      ⟫,",
      "      open: (fn) => ⟪",
      "        client.on('connected', fn);",
      "      ⟫,",
      "    ⟫;",
      "  ⟫;",
      "⟫;"]⟩]⟩

end GraphqlCodegen.Client
