import GraphqlCodegen.Entries
import GraphqlCodegen.Number.Binary64
/-!
# JSON values

The keys of an object stand in ascending order, each once. Integers that fit into 64 bits, with or
without a sign, are kept apart from all other numbers.
-/

namespace GraphqlCodegen.Json

open GraphqlCodegen.Number (Binary64)

inductive Value where
  | null
  | bool (value : Bool)
  | int (value : Int)
  | float (value : Binary64)
  | string (value : String)
  | array (items : List Value)
  /-- The entries stand in key order. -/
  | object (entries : List (String × Value))

namespace Value

/-- An object from pairs in any order; of a repeated key the last value counts. -/
def ofPairs (pairs : List (String × Value)) : Value := .object (Entries.ofList pairs)

/-- The value under a key; nothing if there is none or the value is no object. -/
def get? (v : Value) (key : String) : Option Value :=
  match v with
  | .object entries => Entries.get? key entries
  | _ => none

def asString? : Value → Option String
  | .string s => some s
  | _ => none

def asArray? : Value → Option (List Value)
  | .array items => some items
  | _ => none

end Value
end GraphqlCodegen.Json
