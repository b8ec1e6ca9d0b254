import GraphqlCodegen.Json.Value
import GraphqlCodegen.Proofs.Entries

/-!
# Values inside a value

The value at the end of a path of keys (`Value.at?`), and the values that stand under a key anywhere in a value,
inside objects and arrays (`Value.under`).
-/

namespace GraphqlCodegen.Json.Value

/-- The value that a path of keys leads to. -/
def at? : Value → List String → Option Value
  | v, [] => some v
  | v, key :: path => (v.get? key).bind fun w => w.at? path

@[simp] theorem at?_nil (v : Value) : v.at? [] = some v := rfl

@[simp] theorem at?_cons (v : Value) (key : String) (path : List String) :
    v.at? (key :: path) = (v.get? key).bind fun w => w.at? path := rfl

theorem at?_append (v : Value) (path rest : List String) : v.at? (path ++ rest) = (v.at? path).bind fun w => w.at? rest := by
  induction path generalizing v with
  | nil => rfl
  | cons key path ih => simp [ih, Option.bind_assoc]

theorem get?_ofPairs (pairs : List (String × Value)) (key : String) :
    (ofPairs pairs).get? key = (pairs.filter (·.1 = key)).getLast?.map (·.2) :=
  Entries.get?_ofList key pairs

mutual

/-- All values under a key, at any depth. -/
def under (key : String) : Value → List Value
  | .array items => underItems key items
  | .object entries => underEntries key entries
  | _ => []

def underItems (key : String) : List Value → List Value
  | [] => []
  | v :: rest => under key v ++ underItems key rest

def underEntries (key : String) : List (String × Value) → List Value
  | [] => []
  | (k, v) :: rest => (if k = key then [v] else []) ++ under key v ++ underEntries key rest

end

variable {key : String} {v : Value}

@[simp] theorem under_string (key text : String) : under key (.string text) = [] := by simp [under]

theorem mem_under_array {items : List Value} : v ∈ under key (.array items) ↔ ∃ item ∈ items, v ∈ under key item := by
  rw [under]
  induction items with
  | nil => simp [underItems]
  | cons item rest ih => simp [underItems, ih]

theorem mem_under_object {entries : List (String × Value)} :
    v ∈ under key (.object entries) ↔ (key, v) ∈ entries ∨ ∃ p ∈ entries, v ∈ under key p.2 := by
  rw [under]
  induction entries with
  | nil => simp [underEntries]
  | cons p rest ih =>
    obtain ⟨k, w⟩ := p
    simp only [underEntries, List.mem_append, ih, List.mem_cons, Prod.mk.injEq, exists_eq_or_imp]
    by_cases h : k = key
    · subst h; simp only [↓reduceIte, List.mem_singleton, true_and]; tauto
    · simp only [h, Ne.symm h, ↓reduceIte, List.not_mem_nil, false_and, false_or]; tauto

end GraphqlCodegen.Json.Value
