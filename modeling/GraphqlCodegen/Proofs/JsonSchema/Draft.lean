import Mathlib
import GraphqlCodegen.Proofs.JsonSchema.Document
import GraphqlCodegen.Run

/-!
# The rules of the draft

The draft demands that the names in `required` are different, and that `anyOf` has a schema in it. `Conforms` says that
a value keeps to this at every depth, and that what is required is a property. Inputs and types always conform, so a
document conforms unless a type that it defines has two non-null fields of one name, a field that it describes has two
non-null arguments of one name, or a union that it defines has no members (`conforms_iff`).
-/

namespace GraphqlCodegen.JsonSchema

open GraphqlCodegen.Schema
open GraphqlCodegen.Json (Value)

/-! ## Rules -/

/-- The rules for the keywords of an object: what is required is given once and is a property, and alternatives have at
least one. A property of these names is no keyword, and its schema is no array. -/
structure Regular (s : Members) : Prop where
  distinct : ∀ names, ("required", .array names) ∈ s → names.Nodup
  properties : ∀ names, ("required", .array names) ∈ s → ∀ name ∈ names, ∃ text schema properties,
    name = .string text ∧ ("properties", .object properties) ∈ s ∧ (text, schema) ∈ properties
  variants : ∀ schemas, ("anyOf", .array schemas) ∈ s → schemas ≠ []

/-- All objects keep to the rules, at any depth. -/
inductive Conforms : Value → Prop
  | null : Conforms .null
  | bool (value : Bool) : Conforms (.bool value)
  | int (value : Int) : Conforms (.int value)
  | float (value : Number.Binary64) : Conforms (.float value)
  | string (text : String) : Conforms (.string text)
  | array {items : List Value} : (∀ v ∈ items, Conforms v) → Conforms (.array items)
  | object {entries : Members} : Regular entries → (∀ p ∈ entries, Conforms p.2) → Conforms (.object entries)

theorem conforms_array {items : List Value} : Conforms (.array items) ↔ ∀ v ∈ items, Conforms v :=
  ⟨fun | .array h => h, .array⟩

theorem conforms_object {s : Members} : Conforms (.object s) ↔ Regular s ∧ ∀ p ∈ s, Conforms p.2 :=
  ⟨fun | .object hr h => ⟨hr, h⟩, fun h => .object h.1 h.2⟩

/-- There is no rule for other arrays. -/
theorem regular_of_keys {s : Members} (h : ∀ key items, (key, .array items) ∈ s → key ≠ "required" ∧ key ≠ "anyOf") :
    Regular s where
  distinct names hn := absurd rfl (h _ names hn).1
  properties names hn := absurd rfl (h _ names hn).1
  variants schemas hs := absurd rfl (h _ schemas hs).2

/-- Pairs whose values are objects: the keys may be any names. -/
theorem conforms_objects {β : Type} {name : β → String} {value : β → Value} {xs : List β}
    (h : ∀ x ∈ xs, ∃ s, value x = .object s) : Conforms (Value.ofPairs (xs.map fun x => (name x, value x))) ↔
      ∀ x ∈ xs, (xs.filter (name · = name x)).getLast? = some x → Conforms (value x) := by
  rw [Value.ofPairs, conforms_object, Entries.forall_mem_ofList]
  refine and_iff_right (regular_of_keys fun key items hm => ?_)
  obtain ⟨x, hx, he⟩ := List.mem_map.1 (Entries.of_mem_ofList hm)
  obtain ⟨s, hs⟩ := h x hx
  rw [Prod.mk.injEq, hs] at he
  cases he.2

theorem conforms_ofList {pairs : List (String × Value)} (hnd : (pairs.map Prod.fst).Nodup) :
    Conforms (.object (Entries.ofList pairs)) ↔ Regular (Entries.ofList pairs) ∧ ∀ p ∈ pairs, Conforms p.2 := by
  rw [conforms_object]
  exact and_congr_right fun _ => forall_congr' fun p => imp_congr_left (Entries.mem_ofList_of_nodup hnd)

/-! ## Descriptions and defaults -/

/-- The keywords that the rules are about. -/
def keywords : List String := ["required", "properties", "anyOf"]

theorem Regular.of_keywords {s s' : Members} (h : Regular s) (hs : ∀ key ∈ keywords, ∀ v, (key, v) ∈ s' ↔ (key, v) ∈ s) :
    Regular s' where
  distinct names hn := h.distinct names ((hs _ (by decide) _).1 hn)
  properties names hn name hname := by
    obtain ⟨text, schema, properties, rfl, hp, hm⟩ := h.properties names ((hs _ (by decide) _).1 hn) name hname
    exact ⟨text, schema, properties, rfl, (hs _ (by decide) _).2 hp, hm⟩
  variants schemas hv := h.variants schemas ((hs _ (by decide) _).1 hv)

/-- What stands under other keys changes nothing. -/
theorem regular_put {s : Members} {key : String} (hk : key ∉ keywords) (value : Value) :
    Regular (Entries.put key value s) ↔ Regular s := by
  have hs : ∀ k ∈ keywords, ∀ v, (k, v) ∈ Entries.put key value s ↔ (k, v) ∈ s := fun k hm v =>
    Entries.mem_put_iff fun he => hk (he ▸ hm)
  exact ⟨fun h => h.of_keywords fun k hm v => (hs k hm v).symm, fun h => h.of_keywords hs⟩

theorem Conforms.put {s : Members} (h : Conforms (.object s)) {key : String} (hk : key ∉ keywords) (text : String) :
    Conforms (.object (Entries.put key (.string text) s)) := by
  obtain ⟨hr, hs⟩ := conforms_object.1 h
  refine .object ((regular_put hk _).2 hr) fun p hp => ?_
  rcases Entries.mem_put hp with rfl | hp
  · exact .string text
  · exact hs p hp

theorem Conforms.describe {s : Members} (h : Conforms (.object s)) (description : Option String) :
    Conforms (.object (describe description s)) := by
  cases description with
  | none => exact h
  | some text => exact h.put (by decide) text

theorem Conforms.withDefault {s : Members} (h : Conforms (.object s)) (default : Option String) :
    Conforms (.object (withDefault default s)) := by
  cases default with
  | none => exact h
  | some text => exact h.put (by decide) text

/-- If there is no description yet. -/
theorem conforms_describe {s : Members} (hs : "description" ∉ s.map Prod.fst) (description : Option String) :
    Conforms (.object (describe description s)) ↔ Conforms (.object s) := by
  refine ⟨fun h => ?_, fun h => h.describe description⟩
  cases description with
  | none => exact h
  | some text =>
    obtain ⟨hr, hp⟩ := conforms_object.1 h
    refine .object ((regular_put (by decide) _).1 hr) fun p hm => hp p (Entries.mem_put_of_ne hm ?_)
    intro he
    exact hs (he ▸ List.mem_map_of_mem hm)

/-! ## Types and properties -/

/-- The names of the parts that are non-null. -/
def requiredNames (parts : List (String × TypeRef)) : List String := (parts.filter (·.2.isNonNull)).map Prod.fst

variable {t : Tree}

theorem conforms_reference (name : String) : Conforms (.object (reference name)) :=
  .object (regular_of_keys (by simp [reference])) (by simp [reference, Conforms.string])

theorem conforms_typeSchema {r : TypeRef} : ∀ {s}, typeSchema t r = .ok s → Conforms (.object s) := by
  induction r with
  | named name =>
    intro s h
    rw [typeSchema] at h
    cases hs : scalarType name with
    | some type =>
      rw [hs] at h
      cases h
      exact .object (regular_of_keys (by simp [ofJsonType])) (by simp [ofJsonType, Conforms.string])
    | none =>
      cases hn : t.get? name with
      | none => rw [hs, hn] at h; cases h
      | some n =>
        rw [hs, hn] at h
        cases h
        exact conforms_reference name
  | list item ih =>
    intro s h
    rw [typeSchema] at h
    obtain ⟨items, hi, h⟩ := bind_ok.1 h
    obtain rfl := pure_ok.1 h
    refine (conforms_ofList (by simp)).2 ⟨regular_of_keys fun key items h => ?_, ?_⟩
    · simpa using Entries.of_mem_ofList h
    · simp [Conforms.string, ih hi]
  | nonNull inner ih => exact ih

theorem mem_objectSchema {parts : List (String × TypeRef × Members)} {p : String × Value} :
    p ∈ objectSchema parts ↔ p = ("type", .string "object") ∨
      p = ("properties", Value.ofPairs (parts.map fun p => (p.1, .object p.2.2))) ∨
        p = ("required", .array ((requiredNames (parts.map fun p => (p.1, p.2.1))).map .string)) := by
  rw [objectSchema, Entries.mem_ofList_of_nodup (by simp)]
  simp [requiredNames, List.filter_map, Function.comp_def]

/-- What is required is a property in any case. -/
theorem regular_objectSchema (parts : List (String × TypeRef × Members)) :
    Regular (objectSchema parts) ↔ (requiredNames (parts.map fun p => (p.1, p.2.1))).Nodup := by
  have hrequired : ∀ {names}, ("required", .array names) ∈ objectSchema parts →
      names = (requiredNames (parts.map fun p => (p.1, p.2.1))).map .string := fun h => by
    simpa using mem_objectSchema.1 h
  constructor
  · intro h
    exact (h.distinct _ (mem_objectSchema.2 (.inr (.inr rfl)))).of_map
  · intro hnd
    refine ⟨fun names h => ?_, fun names h name hn => ?_, fun schemas h => ?_⟩
    · rw [hrequired h]
      exact hnd.map fun _ _ he => Value.string.inj he
    · rw [hrequired h, requiredNames] at hn
      obtain ⟨text, ht, rfl⟩ := List.mem_map.1 hn
      obtain ⟨part, hp, rfl⟩ := List.mem_map.1 ht
      obtain ⟨p, hm, rfl⟩ := List.mem_map.1 (List.mem_filter.1 hp).1
      have hkey : p.1 ∈ (parts.map fun p => (p.1, Value.object p.2.2)).map Prod.fst :=
        List.mem_map.2 ⟨_, List.mem_map_of_mem hm, rfl⟩
      obtain ⟨⟨key, schema⟩, hs, hk⟩ := List.mem_map.1 (Entries.mem_keys_ofList.2 hkey)
      exact ⟨p.1, schema, _, rfl, mem_objectSchema.2 (.inr (.inl rfl)), hk ▸ hs⟩
    · simpa using mem_objectSchema.1 h

/-- Required are the parts that are non-null. Of the parts with one name the last is described. -/
theorem conforms_objectSchema {β : Type} {name : β → String} {type : β → TypeRef} {value : β → Members} {xs : List β} :
    Conforms (.object (objectSchema (xs.map fun x => (name x, type x, value x)))) ↔
      (requiredNames (xs.map fun x => (name x, type x))).Nodup ∧
        ∀ x ∈ xs, (xs.filter (name · = name x)).getLast? = some x → Conforms (.object (value x)) := by
  have hproperties : (xs.map fun x => (name x, type x, value x)).map (fun p => (p.1, Value.object p.2.2)) =
      xs.map fun x => (name x, .object (value x)) := List.map_map
  rw [conforms_object, regular_objectSchema, List.map_map, ← conforms_objects fun x _ => ⟨value x, rfl⟩, ← hproperties]
  refine and_congr_right fun _ => ⟨fun h => ?_, fun h p hp => ?_⟩
  · exact h ("properties", _) (mem_objectSchema.2 (.inr (.inl rfl)))
  · rcases mem_objectSchema.1 hp with rfl | rfl | rfl
    · exact .string _
    · exact h
    · refine conforms_array.2 fun v hv => ?_
      obtain ⟨text, -, rfl⟩ := List.mem_map.1 hv
      exact .string text

theorem description_objectSchema (parts : List (String × TypeRef × Members)) :
    "description" ∉ (objectSchema parts).map Prod.fst := by
  rw [objectSchema, Entries.mem_keys_ofList]
  simp

/-! ## Inputs and fields -/

/-- Names and types of several inputs. -/
def inputTypes (inputs : List InputValue) : List (String × TypeRef) := inputs.map fun i => (i.name, i.type)

theorem conforms_inputsSchema {inputs : List InputValue} {s : Members} (h : inputsSchema t inputs = .ok s) :
    Conforms (.object s) ↔ (requiredNames (inputTypes inputs)).Nodup := by
  obtain ⟨schemaOf, hall, rfl⟩ := inputsSchema_ok.1 h
  rw [conforms_objectSchema, inputTypes]
  refine and_iff_left fun i hi _ => ?_
  obtain ⟨type, ht, he⟩ := inputSchema_ok.1 (hall i hi)
  exact he ▸ ((conforms_typeSchema ht).withDefault i.default).describe i.description

theorem conforms_withArguments {returns arguments : Members} (hr : Conforms (.object returns)) :
    Conforms (.object (withArguments returns arguments)) ↔ Conforms (.object arguments) := by
  have hproperties : Conforms (Value.ofPairs [("return", .object returns), ("arguments", .object arguments)]) ↔
      Conforms (.object arguments) := by
    rw [Value.ofPairs, conforms_ofList (by simp)]
    refine ⟨fun h => h.2 ("arguments", _) (by simp), fun ha => ⟨regular_of_keys fun key items h => ?_, ?_⟩⟩
    · simpa using Entries.of_mem_ofList h
    · simp [hr, ha]
  rw [withArguments, conforms_ofList (by simp), ← hproperties]
  refine ⟨fun h => h.2 ("properties", _) (.tail _ (.head _)), fun h => ⟨regular_of_keys fun key items h => ?_, ?_⟩⟩
  · simpa [Value.ofPairs] using Entries.of_mem_ofList h
  · simp [h, Conforms.string]

theorem conforms_fieldSchema {f : Field} {s : Members} (h : fieldSchema t f = .ok s) :
    Conforms (.object s) ↔ (requiredNames (inputTypes f.args)).Nodup := by
  obtain ⟨returns, hr, ⟨hnil, rfl⟩ | ⟨-, arguments, ha, rfl⟩⟩ := fieldSchema_ok.1 h
  · exact iff_of_true ((conforms_typeSchema hr).describe _) (by simp [hnil, inputTypes, requiredNames])
  · have hkeys : "description" ∉ (withArguments returns arguments).map Prod.fst := by
      rw [withArguments, Entries.mem_keys_ofList]
      simp
    rw [conforms_describe hkeys, conforms_withArguments (conforms_typeSchema hr), conforms_inputsSchema ha]

theorem conforms_fieldsSchema {fields : List Field} {s : Members} (h : fieldsSchema t fields = .ok s) :
    Conforms (.object s) ↔ (requiredNames (fields.map fun f => (f.name, f.type))).Nodup ∧
      ∀ f ∈ fields, (fields.filter (·.name = f.name)).getLast? = some f →
        (requiredNames (inputTypes f.args)).Nodup := by
  obtain ⟨schemaOf, hall, rfl⟩ := fieldsSchema_ok.1 h
  rw [conforms_objectSchema]
  refine and_congr_right fun _ => forall₂_congr fun f hf => forall_congr' fun _ => ?_
  exact conforms_fieldSchema (hall f hf)

theorem description_fieldsSchema {fields : List Field} {s : Members} (h : fieldsSchema t fields = .ok s) :
    "description" ∉ s.map Prod.fst := by
  obtain ⟨schemaOf, -, rfl⟩ := fieldsSchema_ok.1 h
  exact description_objectSchema _

/-! ## Definitions and documents -/

/-- Nothing in a type is required twice, and a union has members. Of the fields with one name the last one counts. -/
structure IsClean (n : Node) : Prop where
  fields : (requiredNames n.fieldTypes).Nodup
  arguments : ∀ f ∈ n.fields, n.lastField? f.name = some f → (requiredNames (inputTypes f.args)).Nodup
  members : n.kind ≠ .union []

theorem isClean_iff {n : Node} : IsClean n ↔ ((requiredNames n.fieldTypes).Nodup ∧
    ∀ f ∈ n.fields, n.lastField? f.name = some f → (requiredNames (inputTypes f.args)).Nodup) ∧
      n.kind ≠ .union [] :=
  ⟨fun h => ⟨⟨h.fields, h.arguments⟩, h.members⟩, fun h => ⟨h.1.1, h.1.2, h.2⟩⟩

theorem isClean_of_fields_nil {n : Node} (ht : n.fieldTypes = []) (hf : n.fields = []) : IsClean n ↔ n.kind ≠ .union [] := by
  rw [isClean_iff, ht, hf]
  simp [requiredNames]

theorem conforms_anyOf {members : List String} :
    Conforms (.object [("anyOf", .array (members.map fun m => .object (reference m)))]) ↔ members ≠ [] := by
  rw [conforms_object]
  constructor
  · rintro ⟨hr, -⟩ rfl
    exact hr.variants [] List.mem_cons_self rfl
  · intro hne
    refine ⟨⟨by simp, by simp, by simpa using hne⟩, ?_⟩
    simp [conforms_array, conforms_reference]

theorem conforms_definition {n : Node} {v : Value} (h : definition t n = .ok v) : Conforms v ↔ IsClean n := by
  obtain ⟨name, description, kind⟩ := n
  obtain ⟨s, hs, rfl⟩ := definition_ok.1 h
  rw [kindSchema] at hs
  cases kind with
  | object interfaces fields | interface fields =>
    rw [conforms_describe (description_fieldsSchema hs), conforms_fieldsSchema hs, isClean_iff]
    exact (and_iff_left (by simp)).symm
  | input fields =>
    have hkeys : "description" ∉ s.map Prod.fst := by
      obtain ⟨_, -, rfl⟩ := inputsSchema_ok.1 hs
      exact description_objectSchema _
    have hfields : (⟨name, description, .input fields⟩ : Node).fields = [] := rfl
    rw [conforms_describe hkeys, conforms_inputsSchema hs, isClean_iff, hfields, and_iff_left (by simp),
      and_iff_left (by simp)]
    rfl
  | union members =>
    obtain ⟨variants, hv, hs⟩ := bind_ok.1 hs
    obtain rfl := pure_ok.1 hs
    obtain ⟨-, rfl⟩ := membersSchema_ok.1 hv
    rw [conforms_describe (by simp), conforms_anyOf, isClean_of_fields_nil rfl rfl]
    simp
  | enum values =>
    cases hs
    refine iff_of_true (Conforms.describe ?_ _) ((isClean_of_fields_nil rfl rfl).2 (by simp))
    refine (conforms_ofList (by simp)).2 ⟨regular_of_keys fun key items h => ?_, ?_⟩
    · have hmem := Entries.of_mem_ofList h
      simp only [List.mem_cons, Prod.mk.injEq, reduceCtorEq, and_false, List.not_mem_nil, or_false, false_or] at hmem
      exact hmem.1 ▸ by decide
    · simp [conforms_array, Conforms.string]
  | scalar =>
    cases hs
    refine iff_of_true (Conforms.describe ?_ _) ((isClean_of_fields_nil rfl rfl).2 (by simp))
    exact .object (regular_of_keys (by simp)) (by simp [Conforms.string])

theorem conforms_assembled {schemaOf : Node → Value} (hs : ∀ n ∈ t.nodes, definition t n = .ok (schemaOf n)) :
    Conforms (assembled t schemaOf) ↔ ∀ n ∈ t.nodes, t.last? n.name = some n → Conforms (schemaOf n) := by
  have hobjects : ∀ n ∈ t.nodes, ∃ s, schemaOf n = .object s := fun n hn => by
    obtain ⟨s, -, hv⟩ := definition_ok.1 (hs n hn)
    exact ⟨_, hv⟩
  have hroots : Conforms (Value.ofPairs (t.roots.toList.map fun r => (r.1, .object (reference r.2)))) :=
    (conforms_objects fun r _ => ⟨_, rfl⟩).2 fun r _ _ => conforms_reference r.2
  have hregular : Regular (Entries.ofList [("$schema", .string draft), ("type", .string "object"),
      ("properties", Value.ofPairs (t.roots.toList.map fun r => (r.1, .object (reference r.2)))),
      ("definitions", Value.ofPairs (t.nodes.map fun n => (n.name, schemaOf n)))]) :=
    regular_of_keys fun key items h => by simpa [Value.ofPairs] using Entries.of_mem_ofList h
  rw [assembled, Value.ofPairs, conforms_ofList (by simp), and_iff_right hregular]
  simp only [List.forall_mem_cons, Conforms.string, hroots, conforms_objects hobjects, true_and]
  exact and_iff_left (List.forall_mem_nil _)

/-- A document keeps to the draft just if the types that it defines are clean. Of the types with one name the last one is
defined. -/
theorem conforms_iff (t : Tree) (v : Value) (h : document t = .ok v) :
    Conforms v ↔ ∀ n ∈ t.nodes, t.last? n.name = some n → IsClean n := by
  obtain ⟨schemaOf, hall, rfl⟩ := document_ok.1 h
  refine (conforms_assembled hall).trans (forall₂_congr fun n hn => forall_congr' fun _ => ?_)
  exact conforms_definition (hall n hn)

/-- The extension repeats a field. -/
def fernText : String := "type Query { fern: ID! } extend type Query { fern: ID! fronds(first: Int!): Int }"

def fernTree : Tree where
  nodes := [⟨"Query", none, .object [] [⟨"fern", none, .nonNull (.named "ID"), []⟩, ⟨"fern", none, .nonNull (.named "ID"), []⟩,
    ⟨"fronds", none, .named "Int", [⟨"first", none, .nonNull (.named "Int"), none⟩]⟩]⟩]
  roots := ⟨some "Query", none, none⟩

theorem conforms_iff_ferns : readSchema fernText = .ok fernTree ∧ ∃ v, document fernTree = .ok v ∧
    v.at? ["definitions", "Query", "required"] = some (.array [.string "fern", .string "fern"]) ∧ ¬Conforms v := by
  have hread : readSchema fernText = .ok fernTree := by cbv
  obtain ⟨v, hv, hrequired⟩ : ∃ v, document fernTree = .ok v ∧
      v.at? ["definitions", "Query", "required"] = some (.array [.string "fern", .string "fern"]) := ⟨_, rfl, by cbv⟩
  refine ⟨hread, v, hv, hrequired, fun h => ?_⟩
  have hclean := (conforms_iff fernTree v hv).1 h fernTree.nodes[0] (by decide) (by decide)
  exact absurd hclean.fields (by decide)

end GraphqlCodegen.JsonSchema
