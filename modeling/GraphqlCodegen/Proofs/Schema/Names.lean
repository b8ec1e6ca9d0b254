import GraphqlCodegen.Proofs.Entries
import GraphqlCodegen.Schema.Tree

/-!
# The names of a schema

Which names a tree declares, and what its types mention: the members of a union, the arguments of fields and the
fields of input objects.
-/

namespace GraphqlCodegen.Schema

/-! ## Parts of types -/

namespace Node

/-- The members of a union. -/
def members (n : Node) : List String :=
  match n.kind with
  | .union members => members
  | _ => []

/-- The fields of an object or an interface. -/
def fields (n : Node) : List Field :=
  match n.kind with
  | .object _ fields => fields
  | .interface fields => fields
  | _ => []

/-- The last field of a name. -/
def lastField? (n : Node) (name : String) : Option Field := (n.fields.filter (·.name = name)).getLast?

/-- The fields of an input object. -/
def inputs (n : Node) : List InputValue :=
  match n.kind with
  | .input fields => fields
  | _ => []

/-- The values of an enum. -/
def values (n : Node) : List EnumValue :=
  match n.kind with
  | .enum values => values
  | _ => []

/-- The type is an object or an interface. -/
def HasFields (n : Node) : Prop :=
  match n.kind with
  | .object _ _ | .interface _ => True
  | _ => False

theorem HasFields.kind {n : Node} (h : n.HasFields) :
    (∃ interfaces, n.kind = .object interfaces n.fields) ∨ n.kind = .interface n.fields := by
  unfold HasFields at h
  unfold fields
  cases hk : n.kind with
  | object interfaces fields => exact .inl ⟨interfaces, rfl⟩
  | interface fields => exact .inr rfl
  | _ => rw [hk] at h; exact h.elim

theorem hasFields_of_mem {n : Node} {f : Field} (h : f ∈ n.fields) : n.HasFields := by
  unfold fields at h
  unfold HasFields
  cases hk : n.kind with
  | object interfaces fields => trivial
  | interface fields => trivial
  | _ => rw [hk] at h; exact absurd h List.not_mem_nil

end Node

/-- No operation is listed twice. -/
theorem Roots.nodup_toList (r : Roots) : (r.toList.map Prod.fst).Nodup := by
  obtain ⟨query, mutation, subscription⟩ := r
  cases query <;> cases mutation <;> cases subscription <;> simp [toList]

/-! ## Declared names -/

namespace Tree

variable {t : Tree} {n : Node} {name : String}

/-- A type of that name is declared. -/
def Declares (t : Tree) (name : String) : Prop := ∃ n ∈ t.nodes, n.name = name

theorem declares_name (h : n ∈ t.nodes) : t.Declares n.name := ⟨n, h, rfl⟩

theorem of_get? (h : t.get? name = some n) : n ∈ t.nodes ∧ n.name = name :=
  ⟨List.mem_of_find?_eq_some h, by simpa using List.find?_some h⟩

theorem declares_of_get? (h : t.get? name = some n) : t.Declares name := ⟨n, of_get? h⟩

theorem isSome_get?_iff : (t.get? name).isSome = true ↔ t.Declares name := by
  rw [Tree.get?, List.find?_isSome]
  simp only [beq_iff_eq, Declares]

/-- The type is declared, or is a built-in scalar. -/
def Knows (t : Tree) (name : String) : Prop := name ∈ builtinScalars ∨ t.Declares name

theorem isKnown_iff : t.isKnown name = true ↔ t.Knows name := by
  rw [isKnown, Bool.or_eq_true, isSome_get?_iff, List.contains_iff_mem, Knows]

/-- All types that a type mentions are known, inside whatever wrappers. -/
structure KnowsAll (t : Tree) (n : Node) : Prop where
  fields : ∀ f ∈ n.fields, t.Knows f.type.baseName
  arguments : ∀ f ∈ n.fields, ∀ a ∈ f.args, t.Knows a.type.baseName
  inputs : ∀ i ∈ n.inputs, t.Knows i.type.baseName
  members : ∀ m ∈ n.members, t.Knows m

/-- The last declared type of a name. -/
def last? (t : Tree) (name : String) : Option Node := (t.nodes.filter (·.name = name)).getLast?

theorem of_last? (h : t.last? name = some n) : n ∈ t.nodes ∧ n.name = name := by
  simpa using List.mem_filter.1 (List.mem_of_getLast? h)

theorem declares_iff_last? : t.Declares name ↔ ∃ n, t.last? name = some n := by
  constructor
  · rintro ⟨n, hn, he⟩
    refine Option.ne_none_iff_exists'.1 fun h => ?_
    exact List.filter_eq_nil_iff.1 (List.getLast?_eq_none_iff.1 h) n hn (by simpa using he)
  · rintro ⟨n, h⟩
    exact ⟨n, of_last? h⟩

/-- No two types share a name, nor do two fields of a type or two arguments of a field. -/
structure Distinct (t : Tree) : Prop where
  types : (t.nodes.map Node.name).Nodup
  fields : ∀ n ∈ t.nodes, (n.fields.map Field.name).Nodup
  arguments : ∀ n ∈ t.nodes, ∀ f ∈ n.fields, (f.args.map InputValue.name).Nodup
  inputs : ∀ n ∈ t.nodes, (n.inputs.map InputValue.name).Nodup

theorem Distinct.last? (hd : t.Distinct) (hn : n ∈ t.nodes) : t.last? n.name = some n := by
  rw [Tree.last?, Entries.filter_of_nodup hd.types hn]
  rfl

end Tree
end GraphqlCodegen.Schema
