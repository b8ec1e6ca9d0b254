import GraphqlCodegen.Proofs.Schema.Names
import GraphqlCodegen.Bindings.Index

/-!
# Properties of the type maps

How to find what a module says of a type, a field or the arguments of a field: the property of a type map
(`property?`), the properties of an object type with or without aliases (`fieldsOf`), and the arguments
that a selection of a field takes (`argumentsOf`).
-/

namespace GraphqlCodegen.Bindings

open GraphqlCodegen.Schema GraphqlCodegen.Script

/-- The property of a type map under a key. -/
def property? (m : Module) (map key : String) : Option (Property Ty) :=
  m.types.findSome? fun
    | .interface name properties => if name = map then properties.find? (·.name = key) else none
    | .enum _ _ _ => none

/-- The properties of an object type, below the generic type that allows for aliases. -/
def fieldsOf : Ty → List (Property Ty)
  | .object properties => properties
  | .apply _ argument => fieldsOf argument
  | _ => []

/-- The arguments of a selection that takes some, whether or not it can stand without them. -/
def argumentsOf : Ty → List (Property Ty)
  | .tuple (.object arguments :: _) => arguments
  | .union (.tuple (.object arguments :: _) :: _) => arguments
  | _ => []

variable {t : Tree}

theorem find?_of_nodup {α β : Type} (key : α → String) (f : α → Property β) (hf : ∀ x, (f x).name = key x)
    {xs : List α} (hnd : (xs.map key).Nodup) {x : α} (hx : x ∈ xs) : (xs.map f).find? (·.name = key x) = some (f x) := by
  have hfilter : (xs.map f).filter (·.name = key x) = [f x] := by
    rw [List.filter_map, ← List.map_singleton, ← Entries.filter_of_nodup hnd hx]
    simp only [Function.comp_def, hf]
  rw [← List.head?_filter, hfilter]
  rfl

theorem property?_valueMap (hd : t.Distinct) (o : Options) (host : Option String) {n : Node} (hn : n ∈ t.nodes) :
    property? (indexModule t o host) valueMap n.name = some ⟨n.name, false, valueType t n⟩ := by
  have hproperty := find?_of_nodup Node.name (fun n => ⟨n.name, false, valueType t n⟩) (fun _ => rfl) hd.types hn
  rw [property?, indexModule, List.findSome?_append, List.findSome?_eq_none_iff.2, Option.none_or, List.findSome?_cons]
  · simp only [typeMap, ↓reduceIte, hproperty]
  · intro d hd
    obtain ⟨e, -, he⟩ := List.mem_filterMap.1 hd
    unfold enumOf at he
    split at he <;> cases he
    rfl

/-- The fields come before the fragments. -/
theorem fieldsOf_valueType {n : Node} (h : n.fields ≠ []) :
    ∃ fragments, fieldsOf (valueType t n) = n.fields.map (selectionProperty t) ++ fragments := by
  rw [Node.fields] at h ⊢
  rw [valueType]
  cases hkind : n.kind with
  | object interfaces fields => exact ⟨[], (List.append_nil _).symm⟩
  | interface fields => exact ⟨_, rfl⟩
  | _ => rw [hkind] at h; exact absurd rfl h

theorem find?_fieldsOf {n : Node} {f : Field} (hd : t.Distinct) (hn : n ∈ t.nodes) (hf : f ∈ n.fields) :
    (fieldsOf (valueType t n)).find? (·.name = f.name) = some (selectionProperty t f) := by
  have hfield : (n.fields.map (selectionProperty t)).find? (·.name = f.name) = some (selectionProperty t f) :=
    find?_of_nodup Field.name _ (fun _ => rfl) (hd.fields n hn) hf
  obtain ⟨fragments, he⟩ := fieldsOf_valueType (t := t) (List.ne_nil_of_mem hf)
  rw [he, List.find?_append, hfield, Option.some_or]

theorem fieldsOf_valueType_input {n : Node} {inputs : List InputValue} (hk : n.kind = .input inputs) :
    fieldsOf (valueType t n) = inputs.map (inputProperty t) := by
  rw [valueType, hk, fieldsOf]

theorem argumentsOf_selectionProperty {f : Field} (hf : f.args ≠ []) :
    argumentsOf (selectionProperty t f).type = f.args.map (inputProperty t) := by
  have hargs : f.args.isEmpty = false := by simpa using hf
  simp only [selectionProperty, hargs, Bool.false_eq_true, ↓reduceIte]
  split
  · rfl
  · rfl

end GraphqlCodegen.Bindings
