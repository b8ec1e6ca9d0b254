import Mathlib.Data.List.Basic
import GraphqlCodegen.Proofs.JsonSchema.Document

/-!
# References of a document

A document refers to the definitions of types in its operations, in fields, arguments and lists, and in the members of
unions. Fields and arguments refer to types that are declared, at any depth (`closed_typeSchema`,
`closed_fieldsSchema`), so such a reference has a definition. For operations nothing is looked up, and for the members of
a union the built-in scalars count as known although nothing defines them: these are the only references that
may be without a definition (`references_resolve_iff`).
-/

namespace GraphqlCodegen.JsonSchema

open GraphqlCodegen.Schema
open GraphqlCodegen.Json (Value)

/-! ## References -/

/-- The texts of all references in a schema, at any depth. -/
def references (v : Value) : List String := (v.under "$ref").filterMap Value.asString?

/-- The reference leads to a definition in the document. -/
def Resolves (document : Value) (r : String) : Prop :=
  ∃ name schema, r = definitionsPath ++ name ∧ document.at? ["definitions", name] = some schema

theorem mem_references_array {items : List Value} {r : String} :
    r ∈ references (.array items) ↔ ∃ v ∈ items, r ∈ references v := by
  simp only [references, List.mem_filterMap, Value.mem_under_array]
  constructor
  · rintro ⟨w, ⟨v, hv, hw⟩, hr⟩
    exact ⟨v, hv, w, hw, hr⟩
  · rintro ⟨v, hv, w, hw, hr⟩
    exact ⟨w, ⟨v, hv, hw⟩, hr⟩

theorem mem_references_object {s : Members} {r : String} :
    r ∈ references (.object s) ↔ ("$ref", .string r) ∈ s ∨ ∃ p ∈ s, r ∈ references p.2 := by
  simp only [references, List.mem_filterMap, Value.mem_under_object]
  constructor
  · rintro ⟨w, hw | ⟨p, hp, hw⟩, hr⟩
    · cases w with
      | string text => cases hr; exact .inl hw
      | _ => cases hr
    · exact .inr ⟨p, hp, w, hw, hr⟩
  · rintro (hw | ⟨p, hp, w, hw, hr⟩)
    · exact ⟨_, .inl hw, rfl⟩
    · exact ⟨w, .inr ⟨p, hp, hw⟩, hr⟩

/-! ## Closed schemas -/

variable {t : Tree}

/-- All references of a schema are to declared types. -/
def Closed (t : Tree) (v : Value) : Prop := ∀ r ∈ references v, ∃ name, r = definitionsPath ++ name ∧ t.Declares name

theorem closed_string (t : Tree) (text : String) : Closed t (.string text) := by
  simp [Closed, references]

theorem closed_array {items : List Value} : Closed t (.array items) ↔ ∀ v ∈ items, Closed t v := by
  simp only [Closed, mem_references_array]
  constructor
  · intro h v hv r hr
    exact h r ⟨v, hv, hr⟩
  · rintro h r ⟨v, hv, hr⟩
    exact h v hv r hr

/-- Only a text under the key of references refers to anything. -/
theorem closed_object {s : Members} (hs : ∀ text, ("$ref", .string text) ∉ s) :
    Closed t (.object s) ↔ ∀ p ∈ s, Closed t p.2 := by
  simp only [Closed, mem_references_object]
  constructor
  · intro h p hp r hr
    exact h r (.inr ⟨p, hp, hr⟩)
  · rintro h r (hr | ⟨p, hp, hr⟩)
    · exact absurd hr (hs r)
    · exact h p hp r hr

theorem Closed.of_mem {s : Members} {p : String × Value} (h : Closed t (.object s)) (hp : p ∈ s) : Closed t p.2 :=
  fun r hr => h r (mem_references_object.2 (.inr ⟨p, hp, hr⟩))

theorem closed_reference {name : String} : Closed t (.object (reference name)) ↔ t.Declares name := by
  have hmem : ∀ r, r ∈ references (.object (reference name)) ↔ r = definitionsPath ++ name := by
    simp [references, reference, Value.under, Value.underEntries, Value.asString?]
  simp [Closed, hmem]

theorem closed_ofList {pairs : List (String × Value)} (hs : ∀ text, ("$ref", .string text) ∉ pairs)
    (h : ∀ p ∈ pairs, Closed t p.2) : Closed t (.object (Entries.ofList pairs)) :=
  (closed_object fun text ht => hs text (Entries.of_mem_ofList ht)).2 fun p hp => h p (Entries.of_mem_ofList hp)

theorem closed_ofList_iff {pairs : List (String × Value)} (hs : ∀ text, ("$ref", .string text) ∉ pairs)
    (hnd : (pairs.map Prod.fst).Nodup) : Closed t (.object (Entries.ofList pairs)) ↔ ∀ p ∈ pairs, Closed t p.2 :=
  ⟨fun h _ hp => h.of_mem ((Entries.mem_ofList_of_nodup hnd).2 hp), closed_ofList hs⟩

/-- Putting a text under another key refers to nothing. -/
theorem Closed.put {s : Members} (h : Closed t (.object s)) {key : String} (hk : key ≠ "$ref") (text : String) :
    Closed t (.object (Entries.put key (.string text) s)) := by
  intro r hr
  rcases mem_references_object.1 hr with hr | ⟨p, hp, hr⟩
  · rcases Entries.mem_put hr with he | hr
    · exact absurd (congrArg Prod.fst he).symm hk
    · exact h r (mem_references_object.2 (.inl hr))
  · rcases Entries.mem_put hp with rfl | hp
    · exact absurd hr (by simp [references])
    · exact h r (mem_references_object.2 (.inr ⟨p, hp, hr⟩))

theorem mem_describe {s : Members} {p : String × Value} {description : Option String} (hp : p ∈ s)
    (ne : p.1 ≠ "description") : p ∈ describe description s := by
  cases description with
  | none => exact hp
  | some text => exact Entries.mem_put_of_ne hp ne

theorem Closed.describe {s : Members} (h : Closed t (.object s)) (description : Option String) :
    Closed t (.object (describe description s)) := by
  cases description with
  | none => exact h
  | some text => exact h.put (by decide) text

theorem Closed.withDefault {s : Members} (h : Closed t (.object s)) (default : Option String) :
    Closed t (.object (withDefault default s)) := by
  cases default with
  | none => exact h
  | some text => exact h.put (by decide) text

/-! ## Types, inputs and fields -/

theorem closed_typeSchema {r : TypeRef} : ∀ {s}, typeSchema t r = .ok s → Closed t (.object s) := by
  induction r with
  | named name =>
    intro s h
    rw [typeSchema] at h
    cases hs : scalarType name with
    | some type =>
      rw [hs] at h
      cases h
      exact (closed_object (by simp [ofJsonType])).2 (by simp [ofJsonType, closed_string])
    | none =>
      cases hn : t.get? name with
      | none => rw [hs, hn] at h; cases h
      | some n => rw [hs, hn] at h; cases h; exact closed_reference.2 (Tree.declares_of_get? hn)
  | list item ih =>
    intro s h
    rw [typeSchema] at h
    obtain ⟨items, hi, h⟩ := bind_ok.1 h
    obtain rfl := pure_ok.1 h
    refine closed_ofList (by simp) fun p hp => ?_
    rcases List.mem_pair.1 hp with rfl | rfl
    · exact closed_string t _
    · exact ih hi
  | nonNull inner ih => exact ih

theorem closed_objectSchema {properties : List (String × TypeRef × Members)}
    (h : ∀ p ∈ properties, Closed t (.object p.2.2)) : Closed t (.object (objectSchema properties)) := by
  refine closed_ofList (by simp) fun p hp => ?_
  simp only [List.mem_cons, List.not_mem_nil, or_false] at hp
  rcases hp with rfl | rfl | rfl
  · exact closed_string t _
  · refine closed_ofList (by simp) fun p hp => ?_
    obtain ⟨q, hq, rfl⟩ := List.mem_map.1 hp
    exact h q hq
  · refine closed_array.2 fun v hv => ?_
    obtain ⟨q, -, rfl⟩ := List.mem_map.1 hv
    exact closed_string t _

theorem closed_inputsSchema {inputs : List InputValue} {s : Members} (h : inputsSchema t inputs = .ok s) :
    Closed t (.object s) := by
  obtain ⟨schemaOf, hall, rfl⟩ := inputsSchema_ok.1 h
  refine closed_objectSchema fun p hp => ?_
  obtain ⟨i, hi, rfl⟩ := List.mem_map.1 hp
  obtain ⟨type, ht, he⟩ := inputSchema_ok.1 (hall i hi)
  exact he ▸ ((closed_typeSchema ht).withDefault _).describe _

theorem closed_fieldSchema {f : Field} {s : Members} (h : fieldSchema t f = .ok s) : Closed t (.object s) := by
  obtain ⟨returns, hr, ⟨-, rfl⟩ | ⟨-, arguments, ha, rfl⟩⟩ := fieldSchema_ok.1 h
  · exact (closed_typeSchema hr).describe _
  · refine Closed.describe (closed_ofList (by simp) fun p hp => ?_) _
    rcases List.mem_pair.1 hp with rfl | rfl
    · exact closed_string t _
    · refine closed_ofList (by simp) fun p hp => ?_
      rcases List.mem_pair.1 hp with rfl | rfl
      · exact closed_typeSchema hr
      · exact closed_inputsSchema ha

theorem closed_fieldsSchema {fields : List Field} {s : Members} (h : fieldsSchema t fields = .ok s) :
    Closed t (.object s) := by
  obtain ⟨schemaOf, hall, rfl⟩ := fieldsSchema_ok.1 h
  refine closed_objectSchema fun p hp => ?_
  obtain ⟨f, hf, rfl⟩ := List.mem_map.1 hp
  exact closed_fieldSchema (hall f hf)

/-! ## Definitions and documents -/

/-- What a definition may refer to without a check are the members of a union. -/
theorem closed_definition {n : Node} {v : Value} (h : definition t n = .ok v) :
    Closed t v ↔ ∀ m ∈ n.members, t.Declares m := by
  obtain ⟨name, description, kind⟩ := n
  obtain ⟨s, hs, rfl⟩ := definition_ok.1 h
  rw [kindSchema] at hs
  cases kind with
  | object interfaces fields => exact iff_of_true ((closed_fieldsSchema hs).describe _) (List.forall_mem_nil _)
  | interface fields => exact iff_of_true ((closed_fieldsSchema hs).describe _) (List.forall_mem_nil _)
  | input fields => exact iff_of_true ((closed_inputsSchema hs).describe _) (List.forall_mem_nil _)
  | union members =>
    obtain ⟨variants, hv, h⟩ := bind_ok.1 hs
    obtain rfl := pure_ok.1 h
    obtain ⟨-, rfl⟩ := membersSchema_ok.1 hv
    have hvariants : Closed t (.array (members.map fun m => .object (reference m))) ↔ ∀ m ∈ members, t.Declares m := by
      simp [closed_array, closed_reference]
    rw [Node.members, ← hvariants]
    constructor
    · intro hc
      exact hc.of_mem (p := ("anyOf", _)) (mem_describe (by simp) (by simp))
    · intro hc
      exact Closed.describe ((closed_object (by simp)).2 (by simpa using hc)) _
  | enum values =>
    cases hs
    refine iff_of_true (Closed.describe (closed_ofList (by simp) fun p hp => ?_) _) (List.forall_mem_nil _)
    rcases List.mem_pair.1 hp with rfl | rfl
    · exact closed_string t _
    · refine closed_array.2 fun v hv => ?_
      obtain ⟨value, -, rfl⟩ := List.mem_map.1 hv
      exact closed_string t _
  | scalar =>
    cases hs
    exact iff_of_true (Closed.describe ((closed_object (by simp)).2 (by simp [closed_string])) _) (List.forall_mem_nil _)

theorem resolves_assembled (t : Tree) (schemaOf : Node → Value) (r : String) :
    Resolves (assembled t schemaOf) r ↔ ∃ name, r = definitionsPath ++ name ∧ t.Declares name := by
  simp only [Resolves, at?_definitions, Option.map_eq_some_iff, Tree.declares_iff_last?]
  constructor
  · rintro ⟨name, _, hr, n, hn, -⟩
    exact ⟨name, hr, n, hn⟩
  · rintro ⟨name, hr, n, hn⟩
    exact ⟨name, _, hr, n, hn, rfl⟩

theorem closed_operations (t : Tree) :
    Closed t (Value.ofPairs (t.roots.toList.map fun r => (r.1, .object (reference r.2)))) ↔
      ∀ root ∈ t.roots.toList, t.Declares root.2 := by
  have hnd : ((t.roots.toList.map fun r => (r.1, Value.object (reference r.2))).map Prod.fst).Nodup := by
    rw [List.map_map]
    exact t.roots.nodup_toList
  rw [Value.ofPairs, closed_ofList_iff (by simp) hnd, List.forall_mem_map]
  exact forall₂_congr fun _ _ => closed_reference

/-- Of the types that share a name the last one is defined. -/
theorem closed_definitions {schemaOf : Node → Value} (hs : ∀ n ∈ t.nodes, definition t n = .ok (schemaOf n)) :
    Closed t (Value.ofPairs (t.nodes.map fun n => (n.name, schemaOf n))) ↔
      ∀ n ∈ t.nodes, t.last? n.name = some n → Closed t (schemaOf n) := by
  rw [Value.ofPairs, closed_object]
  · exact Entries.forall_mem_ofList
  · intro text ht
    obtain ⟨n, hn, he⟩ := List.mem_map.1 (Entries.of_mem_ofList ht)
    obtain ⟨s, -, hv⟩ := definition_ok.1 (hs n hn)
    rw [Prod.mk.injEq, hv] at he
    cases he.2

theorem closed_assembled {schemaOf : Node → Value} (hs : ∀ n ∈ t.nodes, definition t n = .ok (schemaOf n)) :
    Closed t (assembled t schemaOf) ↔
      (∀ root ∈ t.roots.toList, t.Declares root.2) ∧ ∀ n ∈ t.nodes, t.last? n.name = some n → Closed t (schemaOf n) := by
  rw [assembled, Value.ofPairs, closed_ofList_iff (by simp [Value.ofPairs]) (by simp)]
  simp [closed_string, closed_operations, closed_definitions hs]

/-- The references of a document have definitions just if its operations start from declared types and the members of
its unions are declared. Of several types of one name the last one is defined. -/
theorem references_resolve_iff (t : Tree) (v : Value) (h : document t = .ok v) :
    (∀ r ∈ references v, Resolves v r) ↔
      (∀ root ∈ t.roots.toList, t.Declares root.2) ∧
        ∀ n ∈ t.nodes, t.last? n.name = some n → ∀ m ∈ n.members, t.Declares m := by
  obtain ⟨schemaOf, hall, rfl⟩ := document_ok.1 h
  simp only [resolves_assembled]
  refine (closed_assembled hall).trans (and_congr_right fun _ => forall₂_congr fun n hn => ?_)
  exact forall_congr' fun _ => closed_definition (hall n hn)

/-- The queries start from a type that is not declared, and a member of the union is a built-in scalar. -/
def geneTree : Tree where
  nodes := [
    ⟨"Query", none, .object [] [⟨"find", none, .list (.named "Found"), [⟨"id", none, .nonNull (.named "ID"), none⟩]⟩]⟩,
    ⟨"Gene", none, .object [] [⟨"name", none, .named "String", []⟩]⟩,
    ⟨"Found", none, .union ["Gene", "String"]⟩]
  roots := ⟨some "Start", none, none⟩

theorem references_resolve_iff_gene : ∃ v, document geneTree = .ok v ∧
    references v = ["#/definitions/Gene", "#/definitions/String", "#/definitions/Found", "#/definitions/Start"] ∧
      ¬∀ r ∈ references v, Resolves v r := by
  have hreferences : (document geneTree).toOption.map references =
      some ["#/definitions/Gene", "#/definitions/String", "#/definitions/Found", "#/definitions/Start"] := by
    decide +kernel
  cases hv : document geneTree with
  | error e => rw [hv] at hreferences; cases hreferences
  | ok v =>
    rw [hv] at hreferences
    refine ⟨v, rfl, Option.some.inj hreferences, fun hall => ?_⟩
    have hroot : ("query", "Start") ∈ geneTree.roots.toList := by decide
    obtain ⟨n, hn, hname⟩ := ((references_resolve_iff geneTree v hv).1 hall).1 _ hroot
    simp only [geneTree, List.mem_cons, List.not_mem_nil, or_false] at hn
    rcases hn with rfl | rfl | rfl <;> simp at hname

end GraphqlCodegen.JsonSchema
