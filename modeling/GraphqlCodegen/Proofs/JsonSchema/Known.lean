import GraphqlCodegen.Proofs.JsonSchema.Document
import GraphqlCodegen.Proofs.Outcomes

/-!
# When there is a document

A type is known if it is declared or a built-in scalar. Every part of a tree converts just if the types that it mentions
are known, whatever wrappers are around them: the types of fields, of their arguments and of input fields, and the
members of unions. If all are, there is a document, and it defines just the types that are declared
(`document_succeeds_iff`).
-/

namespace GraphqlCodegen.JsonSchema

open GraphqlCodegen.Schema

variable {t : Tree}

/-! ## Names -/

/-- The scalars with a JSON type are the built-in ones. -/
theorem isSome_scalarType {name : String} : (scalarType name).isSome = true ↔ name ∈ builtinScalars := by
  unfold scalarType
  split
  all_goals simp_all [builtinScalars]

theorem succeeds_typeSchema (r : TypeRef) : Succeeds (typeSchema t r) ↔ t.Knows r.baseName := by
  induction r with
  | named name =>
    rw [typeSchema, TypeRef.baseName, Tree.Knows, ← isSome_scalarType, ← Tree.isSome_get?_iff]
    cases scalarType name <;> cases t.get? name <;> simp
  | list item ih => exact succeeds_map.trans ih
  | nonNull inner ih => exact ih

/-! ## Parts of a tree -/

theorem succeeds_inputSchema (i : InputValue) : Succeeds (inputSchema t i) ↔ t.Knows i.type.baseName :=
  succeeds_map.trans (succeeds_typeSchema i.type)

theorem succeeds_inputsSchema (inputs : List InputValue) :
    Succeeds (inputsSchema t inputs) ↔ ∀ i ∈ inputs, t.Knows i.type.baseName := by
  rw [inputsSchema, succeeds_map, succeeds_mapM]
  exact forall₂_congr fun i _ => succeeds_map.trans (succeeds_inputSchema i)

theorem succeeds_fieldSchema (f : Field) :
    Succeeds (fieldSchema t f) ↔ t.Knows f.type.baseName ∧ ∀ a ∈ f.args, t.Knows a.type.baseName := by
  rw [fieldSchema, succeeds_bind fun _ => ?_, succeeds_typeSchema]
  by_cases h : f.args = []
  · simp [h]
  · have he : f.args.isEmpty = false := by simpa using h
    simp only [he, Bool.false_eq_true, ↓reduceIte, pure_bind]
    exact succeeds_map.trans (succeeds_inputsSchema f.args)

theorem succeeds_fieldsSchema (fields : List Field) : Succeeds (fieldsSchema t fields) ↔
    ∀ f ∈ fields, t.Knows f.type.baseName ∧ ∀ a ∈ f.args, t.Knows a.type.baseName := by
  rw [fieldsSchema, succeeds_map, succeeds_mapM]
  exact forall₂_congr fun f _ => succeeds_map.trans (succeeds_fieldSchema f)

theorem succeeds_memberSchema (union member : String) : Succeeds (memberSchema t union member) ↔ t.Knows member := by
  rw [memberSchema, ← Tree.isKnown_iff]
  split
  · rename_i h; simp [h]
  · rename_i h; simp [h]

theorem knowsAll_iff {n : Node} : t.KnowsAll n ↔
    (∀ f ∈ n.fields, t.Knows f.type.baseName ∧ ∀ a ∈ f.args, t.Knows a.type.baseName) ∧
      (∀ i ∈ n.inputs, t.Knows i.type.baseName) ∧ ∀ m ∈ n.members, t.Knows m := by
  constructor
  · exact fun h => ⟨fun f hf => ⟨h.fields f hf, h.arguments f hf⟩, h.inputs, h.members⟩
  · exact fun ⟨hf, hi, hm⟩ => ⟨fun f h => (hf f h).1, fun f h => (hf f h).2, hi, hm⟩

theorem succeeds_definition (n : Node) : Succeeds (definition t n) ↔ t.KnowsAll n := by
  obtain ⟨name, description, kind⟩ := n
  rw [definition_eq, succeeds_map, kindSchema, knowsAll_iff]
  cases kind with
  | object interfaces fields | interface fields =>
    simpa [Node.fields, Node.inputs, Node.members] using succeeds_fieldsSchema fields
  | input inputs => simpa [Node.fields, Node.inputs, Node.members] using succeeds_inputsSchema inputs
  | union members =>
    rw [succeeds_map, succeeds_mapM]
    simp [Node.fields, Node.inputs, Node.members, succeeds_memberSchema]
  | enum values | scalar => simp [Node.fields, Node.inputs, Node.members]

theorem succeeds_document : Succeeds (document t) ↔ ∀ n ∈ t.nodes, t.KnowsAll n := by
  rw [document, succeeds_map, succeeds_mapM]
  exact forall₂_congr fun n _ => succeeds_map.trans (succeeds_definition n)

/-- There is a document just if the types that are mentioned are known, and then the types that are declared are those
that it defines, each once. -/
theorem document_succeeds_iff (t : Tree) : ((∃ v, document t = .ok v) ↔ ∀ n ∈ t.nodes, t.KnowsAll n) ∧
    ∀ v, document t = .ok v → ∃ definitions, v.get? "definitions" = some (.object definitions) ∧
      (definitions.map Prod.fst).Nodup ∧ ∀ name, name ∈ definitions.map Prod.fst ↔ t.Declares name := by
  refine ⟨succeeds_document, fun v hv => ?_⟩
  obtain ⟨schemaOf, -, rfl⟩ := document_ok.1 hv
  refine ⟨_, get?_definitions t schemaOf, (Entries.ordered_ofList _).nodup_keys, fun name => ?_⟩
  rw [Entries.mem_keys_ofList, List.map_map, List.mem_map]
  rfl

/-- Wrappers, an argument, an input field and a union, with built-in scalars among them that nothing declares. -/
def herbTree : Tree where
  nodes := [
    ⟨"Query", none, .object [] [⟨"find", none, .nonNull (.list (.nonNull (.named "Found"))),
      [⟨"by", none, .list (.named "Filter"), none⟩]⟩]⟩,
    ⟨"Filter", none, .input [⟨"height", none, .nonNull (.named "Float"), some "0.5"⟩]⟩,
    ⟨"Herb", some "grows", .interface [⟨"name", none, .named "String", []⟩]⟩,
    ⟨"Found", none, .union ["Herb", "ID"]⟩]
  roots := ⟨some "Query", none, none⟩

theorem document_succeeds_iff_herbs : (∀ n ∈ herbTree.nodes, herbTree.KnowsAll n) ∧ ∃ v definitions,
    document herbTree = .ok v ∧ v.get? "definitions" = some (.object definitions) ∧
      "Herb" ∈ definitions.map Prod.fst ∧ "ID" ∉ definitions.map Prod.fst := by
  have hknown : ∀ n ∈ herbTree.nodes, herbTree.KnowsAll n := by
    simp [knowsAll_iff, Node.fields, Node.inputs, Node.members, TypeRef.baseName, Tree.Knows, Tree.Declares, herbTree,
      builtinScalars]
  obtain ⟨hiff, hkeys⟩ := document_succeeds_iff herbTree
  obtain ⟨v, hv⟩ := hiff.2 hknown
  obtain ⟨definitions, hd, -, hnames⟩ := hkeys v hv
  refine ⟨hknown, v, definitions, hv, hd, (hnames "Herb").2 ?_, fun h => ?_⟩
  · simp [Tree.Declares, herbTree]
  · simpa [Tree.Declares, herbTree] using (hnames "ID").1 h

end GraphqlCodegen.JsonSchema
