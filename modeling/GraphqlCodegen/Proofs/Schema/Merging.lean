import Mathlib.Data.List.Basic
import GraphqlCodegen.Schema.Merge
import GraphqlCodegen.Proofs.Schema.Names

/-!
# What extensions add

Extensions are applied one after the other, each to the first node of its name. All at once, each node takes the
extensions of its name and leaves the others to the nodes behind it (`foldl_applyExtension`), so only the first node
of a name takes any. The members it ends up with are its own and those of the extensions of its kind
(`NodeKind.withBodies`), and nothing but the order among the type definitions, among the extensions and among the schema
blocks matters (`ofDocument_merges`).
-/

namespace GraphqlCodegen.Schema

open GraphqlCodegen

/-! ## Members -/

/-- The interfaces of an object. -/
def addedInterfaces : Sdl.TypeBody → List String
  | .object interfaces _ => interfaces
  | _ => []

/-- The fields of an object. -/
def addedFields : Sdl.TypeBody → List Field
  | .object _ fields => fields.map Field.ofSdl
  | _ => []

/-- The fields of an interface. -/
def addedInterfaceFields : Sdl.TypeBody → List Field
  | .interface _ fields => fields.map Field.ofSdl
  | _ => []

/-- The members of a union. -/
def addedMembers : Sdl.TypeBody → List String
  | .union members => members
  | _ => []

/-- The values of an enum. -/
def addedValues : Sdl.TypeBody → List EnumValue
  | .enum values => values.map EnumValue.ofSdl
  | _ => []

/-- The fields of an input object. -/
def addedInputs : Sdl.TypeBody → List InputValue
  | .input fields => fields.map InputValue.ofSdl
  | _ => []

/-- The members of a kind, and behind them those that the bodies of that kind add, in their order. -/
def NodeKind.withBodies : NodeKind → List Sdl.TypeBody → NodeKind
  | .object interfaces fields, bodies =>
    .object (interfaces ++ bodies.flatMap addedInterfaces) (fields ++ bodies.flatMap addedFields)
  | .interface fields, bodies => .interface (fields ++ bodies.flatMap addedInterfaceFields)
  | .union members, bodies => .union (members ++ bodies.flatMap addedMembers)
  | .enum values, bodies => .enum (values ++ bodies.flatMap addedValues)
  | .input fields, bodies => .input (fields ++ bodies.flatMap addedInputs)
  | .scalar, _ => .scalar

@[simp] theorem NodeKind.withBodies_nil (k : NodeKind) : k.withBodies [] = k := by
  cases k <;> simp [withBodies]

/-- One body more. -/
theorem NodeKind.withBodies_cons (k : NodeKind) (b : Sdl.TypeBody) (bodies : List Sdl.TypeBody) :
    k.withBodies (b :: bodies) = (k.extend (ofBody b)).withBodies bodies := by
  cases k <;> cases b <;>
    simp [withBodies, extend, ofBody, addedInterfaces, addedFields, addedInterfaceFields, addedMembers, addedValues,
      addedInputs]

/-! ## Nodes -/

/-- The node with the members that extensions add. -/
def Node.taking (n : Node) (exts : List Sdl.TypeExtension) : Node :=
  { n with kind := n.kind.withBodies (exts.map (·.body)) }

/-- The extensions of a name, in their order. -/
def extensionsFor (name : String) (exts : List Sdl.TypeExtension) : List Sdl.TypeExtension :=
  exts.filter (·.name = name)

@[simp] theorem Node.taking_nil (n : Node) : n.taking [] = n := by simp [taking]

/-- What others have taken does not count where it is of another name. -/
theorem extensionsFor_filter_ne {name other : String} (h : name ≠ other) (exts : List Sdl.TypeExtension) :
    extensionsFor name (exts.filter (·.name ≠ other)) = extensionsFor name exts := by
  rw [extensionsFor, List.filter_filter]
  refine List.filter_congr fun ext _ => ?_
  by_cases he : ext.name = name
  · simp [he, h]
  · simp [he]

theorem extensionsFor_filter_self (name : String) (exts : List Sdl.TypeExtension) :
    extensionsFor name (exts.filter (·.name ≠ name)) = [] := by
  rw [extensionsFor, List.filter_filter, List.filter_eq_nil_iff]
  simp

/-- The first node takes the extensions of its name, the others see the rest. -/
theorem foldl_applyExtension_cons (n : Node) (ns : List Node) (exts : List Sdl.TypeExtension) :
    exts.foldl applyExtension (n :: ns) =
      n.taking (extensionsFor n.name exts) :: (exts.filter (·.name ≠ n.name)).foldl applyExtension ns := by
  induction exts generalizing n ns with
  | nil => simp [extensionsFor]
  | cons ext exts ih =>
    rw [List.foldl_cons, applyExtension]
    by_cases h : n.name = ext.name
    · rw [if_pos h, ih]
      simp [h, extensionsFor, Node.taking, NodeKind.withBodies_cons]
    · rw [if_neg h, ih]
      simp [Ne.symm h, extensionsFor]

theorem foldl_applyExtension_nil (exts : List Sdl.TypeExtension) : exts.foldl applyExtension [] = [] := by
  induction exts with
  | nil => rfl
  | cons ext exts ih => rw [List.foldl_cons, applyExtension, ih]

/-- A node takes the extensions of its name if no node in front of it has that name, and none otherwise. -/
theorem foldl_applyExtension (nodes : List Node) (exts : List Sdl.TypeExtension) (i : Nat) :
    (exts.foldl applyExtension nodes)[i]? = nodes[i]?.map fun n =>
      if n.name ∈ (nodes.take i).map Node.name then n else n.taking (extensionsFor n.name exts) := by
  induction nodes generalizing exts i with
  | nil => simp [foldl_applyExtension_nil]
  | cons m ns ih =>
    rw [foldl_applyExtension_cons]
    cases i with
    | zero => simp
    | succ i =>
      rw [List.getElem?_cons_succ, ih, List.getElem?_cons_succ]
      refine Option.map_congr fun n _ => ?_
      simp only [List.take_succ_cons, List.map_cons, List.mem_cons]
      by_cases h : n.name = m.name
      · rw [h, extensionsFor_filter_self, Node.taking_nil, ite_self, if_pos (.inl rfl)]
      · simp only [h, false_or, extensionsFor_filter_ne h]

theorem length_applyExtension (nodes : List Node) (ext : Sdl.TypeExtension) :
    (applyExtension nodes ext).length = nodes.length := by
  induction nodes with
  | nil => rfl
  | cons n ns ih =>
    rw [applyExtension]
    split
    · rfl
    · rw [List.length_cons, List.length_cons, ih]

theorem length_foldl_applyExtension (nodes : List Node) (exts : List Sdl.TypeExtension) :
    (exts.foldl applyExtension nodes).length = nodes.length := by
  induction exts generalizing nodes with
  | nil => rfl
  | cons ext exts ih => rw [List.foldl_cons, ih, length_applyExtension]

/-! ## Documents -/

namespace Tree

variable {d : Sdl.Document}

/-- The names of the type definitions in front of a position. -/
def namesBefore (d : Sdl.Document) (i : Nat) : List String := ((definitionsOf d).take i).map Sdl.TypeDefinition.name

/-- What the extensions of a name add, in the order of the document. -/
def bodiesFor (d : Sdl.Document) (name : String) : List Sdl.TypeBody :=
  (extensionsFor name (extensionsOf d)).map Sdl.TypeExtension.body

theorem node_ofDocument {i : Nat} {t : Sdl.TypeDefinition} (h : (definitionsOf d)[i]? = some t) :
    (ofDocument d).nodes[i]? = some (if t.name ∈ namesBefore d i then Node.ofDefinition t
      else (Node.ofDefinition t).taking (extensionsFor t.name (extensionsOf d))) := by
  have hnames : (((definitionsOf d).map Node.ofDefinition).take i).map Node.name = namesBefore d i := by
    rw [← List.map_take, List.map_map]
    rfl
  rw [ofDocument, foldl_applyExtension, hnames, List.getElem?_map, h, Option.map_some, Option.map_some]
  rfl

/-- The last schema block counts. -/
theorem getLast?_schemaBlocks {before after : Sdl.Document} {b : Sdl.SchemaBlock} (hd : d = before ++ .schema b :: after)
    (hlast : ∀ c, .schema c ∉ after) : (schemaBlocksOf d).getLast? = some b := by
  have hafter : schemaBlocksOf after = [] := by
    refine List.filterMap_eq_nil_iff.2 fun e he => ?_
    cases e with
    | schema c => exact absurd he (hlast c)
    | _ => rfl
  have hsplit : schemaBlocksOf d = schemaBlocksOf before ++ b :: schemaBlocksOf after := by
    rw [hd, schemaBlocksOf, List.filterMap_append]
    rfl
  rw [hsplit, hafter, List.getLast?_concat]

theorem schemaBlocks_eq_nil (h : ∀ b, .schema b ∉ d) : schemaBlocksOf d = [] := by
  refine List.filterMap_eq_nil_iff.2 fun e he => ?_
  cases e with
  | schema c => exact absurd he (h c)
  | _ => rfl

/-- Without a schema block an operation starts from the type of its default name, if there is one. -/
theorem defaultRoot_iff {t : Tree} {default name : String} :
    (if t.nodes.any (·.name == default) then some default else none) = some name ↔ name = default ∧ t.Declares name := by
  have hany : t.nodes.any (·.name == default) = true ↔ t.Declares default := by simp [Declares]
  by_cases h : t.Declares default
  · rw [if_pos (hany.2 h), Option.some.injEq]
    exact ⟨by rintro rfl; exact ⟨rfl, h⟩, fun hn => hn.1.symm⟩
  · rw [if_neg (mt hany.1 h)]
    simp only [reduceCtorEq, false_iff, not_and]
    rintro rfl
    exact h

/-- The tree that a document stands for: a node for each type definition, in their order. The first node of each name
has its own members and behind them, in the order of the document, those of all extensions of its name that are of its
kind; the other nodes have their own members. The operations start from what the last schema block says, and without any
from the types that carry the default names. -/
structure IsTreeOf (d : Sdl.Document) (t : Tree) : Prop where
  length : t.nodes.length = (definitionsOf d).length
  first : ∀ (i : Nat) (e : Sdl.TypeDefinition), (definitionsOf d)[i]? = some e → e.name ∉ namesBefore d i →
    t.nodes[i]? = some ⟨e.name, e.description, (NodeKind.ofBody e.body).withBodies (bodiesFor d e.name)⟩
  again : ∀ (i : Nat) (e : Sdl.TypeDefinition), (definitionsOf d)[i]? = some e → e.name ∈ namesBefore d i →
    t.nodes[i]? = some ⟨e.name, e.description, NodeKind.ofBody e.body⟩
  block : ∀ before b after, d = before ++ .schema b :: after → (∀ c, .schema c ∉ after) →
    t.roots = ⟨b.query, b.mutation, b.subscription⟩
  noBlock : (∀ b, .schema b ∉ d) → ∀ name, (t.roots.query = some name ↔ name = "Query" ∧ t.Declares name) ∧
    (t.roots.mutation = some name ↔ name = "Mutation" ∧ t.Declares name) ∧
    (t.roots.subscription = some name ↔ name = "Subscription" ∧ t.Declares name)

/-- The same type definitions, extensions and schema blocks, each in the same order among themselves. -/
structure Rearranged (d d' : Sdl.Document) : Prop where
  definitions : definitionsOf d' = definitionsOf d
  extensions : extensionsOf d' = extensionsOf d
  blocks : schemaBlocksOf d' = schemaBlocksOf d

/-- Extensions are merged into the first type of their name, wherever they stand in the document. -/
theorem ofDocument_merges (d : Sdl.Document) :
    IsTreeOf d (ofDocument d) ∧ ∀ d', Rearranged d d' → ofDocument d' = ofDocument d := by
  refine ⟨⟨?_, ?_, ?_, ?_, ?_⟩, fun d' h => ?_⟩
  · rw [ofDocument, length_foldl_applyExtension, List.length_map]
  · intro i e he hname
    rw [node_ofDocument he, if_neg hname]
    rfl
  · intro i e he hname
    rw [node_ofDocument he, if_pos hname]
    rfl
  · intro before b after hd hlast
    rw [ofDocument, getLast?_schemaBlocks hd hlast]
  · intro h name
    have hroots : (ofDocument d).roots = defaultRoots (ofDocument d).nodes := by
      simp only [ofDocument, schemaBlocks_eq_nil h, List.getLast?_nil]
    rw [hroots]
    exact ⟨defaultRoot_iff, defaultRoot_iff, defaultRoot_iff⟩
  · rw [ofDocument, h.definitions, h.extensions, h.blocks, ofDocument]

/-- An extension in front of the type, one of another kind, one of no type, and a second type of the name. -/
def symbols : Sdl.Document := [
  .extension ⟨"Gene", [], .object ["Node"] [⟨none, "symbol", [], .named "String", []⟩]⟩,
  .type ⟨some "A gene", "Gene", [], .object [] [⟨none, "name", [], .named "String", []⟩]⟩,
  .extension ⟨"Gene", [], .enum [⟨none, "BRCA1", []⟩]⟩,
  .type ⟨none, "Gene", [], .object [] [⟨none, "id", [], .named "ID", []⟩]⟩,
  .extension ⟨"Protein", [], .object ["Node"] []⟩]

/-- The same with the types in front. -/
def symbolsLast : Sdl.Document := [symbols[1], symbols[3], symbols[0], symbols[2], symbols[4]]

theorem ofDocument_merges_symbols : Rearranged symbols symbolsLast ∧ ofDocument symbolsLast = ofDocument symbols ∧
    (ofDocument symbols).nodes[0]? = some ⟨"Gene", some "A gene", .object ["Node"]
      [⟨"name", none, .named "String", []⟩, ⟨"symbol", none, .named "String", []⟩]⟩ ∧
    (ofDocument symbols).nodes[1]? = some ⟨"Gene", none, .object [] [⟨"id", none, .named "ID", []⟩]⟩ := by
  obtain ⟨htree, hmove⟩ := ofDocument_merges symbols
  have hmoved : Rearranged symbols symbolsLast := ⟨rfl, rfl, rfl⟩
  exact ⟨hmoved, hmove _ hmoved, htree.first 0 _ rfl (by decide), htree.again 1 _ rfl (by decide)⟩

end Tree
end GraphqlCodegen.Schema
