import GraphqlCodegen.Proofs.Bindings.Agreement
import GraphqlCodegen.Proofs.Schema.Merging
import GraphqlCodegen.Proofs.Schema.Spelling

/-!
# What the type maps say of an interface

Three type maps name the object types that implement an interface: the map of selections has a fragment for each of them,
the map of answers is the union of their answers, and the map of answers with type names lists them as type names.
Which object types these are is said by the document (`Tree.implementorsOf`): those that list the interface in their
definition or, the first of each name, in an extension. The maps agree (`interface_views`), also where an interface has
no implementor and its answer is made of its own fields.
-/

namespace GraphqlCodegen

open Schema Script

/-! ## Implementors -/

namespace Schema.Tree

variable {d : Sdl.Document}

/-- The interfaces that a type definition lists, with those that extensions add to it if it is the first of its name. -/
def listedInterfaces (d : Sdl.Document) (i : Nat) (e : Sdl.TypeDefinition) : List String :=
  match e.body with
  | .object interfaces _ =>
    interfaces ++ if e.name ∈ namesBefore d i then [] else (bodiesFor d e.name).flatMap addedInterfaces
  | _ => []

/-- The object types that list an interface, one for each definition, in the order of their definitions. -/
def implementorsOf (d : Sdl.Document) (interface : String) : List String :=
  (definitionsOf d).zipIdx.filterMap fun e => if interface ∈ listedInterfaces d e.2 e.1 then some e.1.name else none

/-- The node that a type definition becomes. -/
def nodeOf (d : Sdl.Document) (i : Nat) (e : Sdl.TypeDefinition) : Node :=
  if e.name ∈ namesBefore d i then Node.ofDefinition e
  else (Node.ofDefinition e).taking (extensionsFor e.name (extensionsOf d))

theorem nodes_ofDocument (d : Sdl.Document) :
    (ofDocument d).nodes = (definitionsOf d).zipIdx.map fun e => nodeOf d e.2 e.1 := by
  refine List.ext_getElem? fun i => ?_
  rw [List.getElem?_map, List.getElem?_zipIdx]
  cases he : (definitionsOf d)[i]? with
  | none =>
    rw [List.getElem?_eq_none_iff] at he
    rw [Option.map_none, Option.map_none, List.getElem?_eq_none_iff, (ofDocument_merges d).1.length]
    exact he
  | some e => rw [node_ofDocument he]; simp [nodeOf]

theorem name_nodeOf (i : Nat) (e : Sdl.TypeDefinition) : (nodeOf d i e).name = e.name := by
  unfold nodeOf
  split <;> rfl

theorem implements_nodeOf (i : Nat) (e : Sdl.TypeDefinition) (interface : String) :
    (nodeOf d i e).implements interface = decide (interface ∈ listedInterfaces d i e) := by
  unfold nodeOf listedInterfaces
  split <;> cases hb : e.body <;>
    simp [Node.implements, Node.taking, Node.ofDefinition, NodeKind.ofBody, NodeKind.withBodies, bodiesFor, hb]

/-- The implementors of a tree are those that the document says. -/
theorem implementors_ofDocument (d : Sdl.Document) (interface : String) :
    ((ofDocument d).implementors interface).map Node.name = implementorsOf d interface := by
  rw [implementors, nodes_ofDocument, List.filter_map, List.map_map, implementorsOf, ← List.filterMap_eq_filter,
    List.map_filterMap]
  refine List.filterMap_congr fun e _ => ?_
  simp only [Function.comp_apply, implements_nodeOf, Option.guard, decide_eq_true_eq]
  split
  · simp [name_nodeOf]
  · rfl

/-- The fields of a tree that was read have texts of names as their names. -/
theorem named_fields (hd : ∀ e ∈ d, e.Named) {n : Node} (hn : n ∈ (ofDocument d).nodes) {f : Field} (hf : f ∈ n.fields) :
    Sdl.Lexer.isNameText f.name = true := by
  obtain ⟨b, hb, g, hg, rfl⟩ := (drawnFrom_ofDocument d n hn).fields f hf
  exact forall_bodies (P := Sdl.TypeBody.Named) (fun _ ht => hd _ ht) (fun _ he => hd _ he) b hb g hg

end Schema.Tree

namespace Bindings

variable {t : Tree}

/-! ## Reading the views -/

/-- The fragments of a selection: its properties under the keys of fragments. -/
def fragmentsOf (selection : Ty) : List (Property Ty) :=
  (fieldsOf selection).filter fun p => (fragmentKey "").toList.isPrefixOf p.name.toList

/-- The names that the members of a type look up in a type map. -/
def lookupsOf (map : String) (type : Ty) : List String :=
  type.members.filterMap fun
    | .lookup m name => if m = map then some name else none
    | _ => none

/-- The strings among the members of a type. -/
def literalsOf (type : Ty) : List String :=
  type.members.filterMap fun
    | .literal value => some value
    | _ => none

/-- The type names that an answer may carry. -/
def typenamesOf (answer : Ty) : List String :=
  ((fieldsOf answer).filter (·.name = "__typename")).flatMap fun p => literalsOf p.type

/-- The properties of an answer for the fields of a type. -/
def answerProperties (t : Tree) (map : AnswerMap) (fields : List Field) : List (Property Ty) :=
  fields.map fun f => answerProperty t map f.name f.type

/-- What the three type maps hold for an interface with these fields and these implementors. -/
structure Views (t : Tree) (fields : List Field) (implementors : List String) (value model graphql : Ty) : Prop where
  fragments : fragmentsOf value = implementors.map fragmentProperty
  answers : lookupsOf AnswerMap.model.name model = implementors
  typenames : typenamesOf graphql = implementors
  some : implementors ≠ [] → model = .union (implementors.map (.lookup AnswerMap.model.name)) ∧
    ∃ type, graphql = .object (⟨"__typename", false, type⟩ :: answerProperties t .graphql fields)
  none : implementors = [] → model = .object (answerProperties t .model fields) ∧
    graphql = .object (answerProperties t .graphql fields)

/-! ## Fragments -/

theorem fragmentKey_isPrefix (member : String) : (fragmentKey "").toList.isPrefixOf (fragmentKey member).toList = true := by
  rw [List.isPrefixOf_iff_prefix, fragmentKey, fragmentKey, String.toList_append, String.toList_append, String.toList_empty,
    List.append_nil]
  exact List.prefix_append _ _

/-- The text of a name is no key of a fragment. -/
theorem not_fragmentKey {name : String} (h : Sdl.Lexer.isNameText name = true) :
    (fragmentKey "").toList.isPrefixOf name.toList = false := by
  unfold Sdl.Lexer.isNameText at h
  cases hl : name.toList with
  | nil => rw [hl] at h; cases h
  | cons c cs =>
    rw [hl, Bool.and_eq_true] at h
    have hc : c ≠ '.' := by
      rintro rfl
      exact absurd h.1 (by decide)
    simp [fragmentKey, List.isPrefixOf, hc.symm]

theorem fragmentsOf_interface {fields : List Field} (hf : ∀ f ∈ fields, Sdl.Lexer.isNameText f.name = true) (members : List String) :
    fragmentsOf (aliased (fields.map (selectionProperty t) ++ members.map fragmentProperty)) = members.map fragmentProperty := by
  have hfields : (fields.map (selectionProperty t)).filter (fun p => (fragmentKey "").toList.isPrefixOf p.name.toList) = [] := by
    refine List.filter_eq_nil_iff.2 fun p hp => ?_
    obtain ⟨f, hm, rfl⟩ := List.mem_map.1 hp
    rw [selectionProperty, not_fragmentKey (hf f hm)]
    exact Bool.false_ne_true
  have hmembers : (members.map fragmentProperty).filter (fun p => (fragmentKey "").toList.isPrefixOf p.name.toList) =
      members.map fragmentProperty := by
    refine List.filter_eq_self.2 fun p hp => ?_
    obtain ⟨m, -, rfl⟩ := List.mem_map.1 hp
    exact fragmentKey_isPrefix m
  rw [fragmentsOf, aliased, fieldsOf, fieldsOf, List.filter_append, hfields, hmembers, List.nil_append]

/-! ## Answers -/

theorem literalsOf_or (a b : Ty) : literalsOf (a.or b) = literalsOf a ++ literalsOf b := by
  simp [literalsOf, Ty.or, Ty.members]

theorem literalsOf_builtin {name : String} {b : Ty} (h : builtinType name = some b) : literalsOf b = [] := by
  unfold builtinType at h
  split at h <;> cases h <;> rfl

/-- The type of a field is no string. -/
theorem literalsOf_answerType (t : Tree) (map : AnswerMap) (r : TypeRef) :
    literalsOf (answerType t map r) = [] ∧ literalsOf (strictAnswerType t map r) = [] := by
  have hundefined : ∀ a, literalsOf a = [] → literalsOf (allowing a [.undefined]) = [] := fun a h => by
    simp only [allowing, List.foldl_cons, List.foldl_nil, literalsOf_or, h, List.nil_append]
    rfl
  induction r with
  | nonNull inner ih => exact ⟨by rw [answerType]; exact ih.2, by rw [strictAnswerType]; exact ih.2⟩
  | list item ih => exact ⟨by rw [answerType]; exact hundefined _ rfl, by rw [strictAnswerType]; rfl⟩
  | named name =>
    have hstrict : literalsOf (strictAnswerType t map (.named name)) = [] := by
      rw [strictAnswerType]
      split
      · rename_i b hb
        exact literalsOf_builtin hb
      · split
        · split <;> rfl
        · rfl
    exact ⟨by rw [answerType]; exact hundefined _ hstrict, hstrict⟩

theorem typenames_answerProperties (t : Tree) (map : AnswerMap) (fields : List Field) :
    ((answerProperties t map fields).filter (·.name = "__typename")).flatMap (fun p => literalsOf p.type) = [] := by
  refine List.flatMap_eq_nil_iff.2 fun p hp => ?_
  obtain ⟨f, -, rfl⟩ := List.mem_map.1 (List.mem_of_mem_filter hp)
  exact (literalsOf_answerType t map f.type).1

theorem literalsOf_oneOf (names : List String) : literalsOf (oneOf names) = names := by
  unfold oneOf
  split
  · rfl
  · simp [literalsOf, Ty.members, List.filterMap_map]

theorem lookupsOf_union (map : String) (names : List String) : lookupsOf map (.union (names.map (.lookup map))) = names := by
  simp [lookupsOf, Ty.members, List.filterMap_map]

theorem views (t : Tree) {n : Node} {fields : List Field} (hk : n.kind = .interface fields)
    (hf : ∀ f ∈ fields, Sdl.Lexer.isNameText f.name = true) :
    Views t fields ((t.implementors n.name).map Node.name) (valueType t n) (answerShape t .model n) (answerShape t .graphql n) := by
  have hvalue : fragmentsOf (valueType t n) = ((t.implementors n.name).map Node.name).map fragmentProperty := by
    rw [valueType, hk, ← fragmentsOf_interface hf, List.map_map]
    rfl
  cases hi : (t.implementors n.name).map Node.name with
  | nil =>
    have hshape : ∀ map, answerShape t map n = .object (answerProperties t map fields) := fun map => by
      unfold answerShape
      rw [hk]
      simp only [hi]
      rfl
    refine ⟨by rw [hvalue, hi], ?_, ?_, fun h => absurd rfl h, fun _ => ⟨hshape _, hshape _⟩⟩
    · rw [hshape]
      rfl
    · rw [hshape]
      exact typenames_answerProperties t .graphql fields
  | cons name names =>
    have hmodel : answerShape t .model n = .union ((name :: names).map (.lookup AnswerMap.model.name)) := by
      rw [answerShape, hk]
      simp only [hi]
    have hgraphql : answerShape t .graphql n = .object (typenameProperty (name :: names) :: answerProperties t .graphql fields) := by
      rw [answerShape, hk]
      simp only [hi]
      rfl
    refine ⟨by rw [hvalue, hi], ?_, ?_, fun _ => ⟨hmodel, _, hgraphql⟩, fun h => by cases h⟩
    · rw [hmodel, lookupsOf_union]
    · rw [hgraphql, typenamesOf, fieldsOf, List.filter_cons_of_pos (by rfl), List.flatMap_cons, typenames_answerProperties,
        List.append_nil, typenameProperty, literalsOf_oneOf]

/-- For every schema text, the fragments, the answers and the type names of an interface are those of its implementors in
the order of their definitions; without any its answers are made of its own fields. -/
theorem interface_views {text : String} {d : Sdl.Document} (hd : Sdl.parse text = .ok d) (o : Options) (host : Option String)
    {i : Nat} {n : Node} {fields : List Field} (hn : (Tree.ofDocument d).nodes[i]? = some n) (hk : n.kind = .interface fields) :
    ∃ value model graphql,
      (propertiesOf (indexModule (Tree.ofDocument d) o host) "ValueTypes")[i]? = some ⟨n.name, false, value⟩ ∧
      (propertiesOf (indexModule (Tree.ofDocument d) o host) "ModelTypes")[i]? = some ⟨n.name, false, model⟩ ∧
      (propertiesOf (indexModule (Tree.ofDocument d) o host) "GraphQLTypes")[i]? = some ⟨n.name, false, graphql⟩ ∧
      Views (Tree.ofDocument d) fields (Tree.implementorsOf d n.name) value model graphql := by
  have hproperty : ∀ {map entry}, (map, entry) ∈ typeMaps (Tree.ofDocument d) →
      (propertiesOf (indexModule (Tree.ofDocument d) o host) map)[i]? = some ⟨n.name, false, entry n⟩ := by
    intro map entry he
    rw [propertiesOf_typeMap he, List.getElem?_map, hn]
    rfl
  have hfields : ∀ f ∈ fields, Sdl.Lexer.isNameText f.name = true := by
    intro f hf
    refine Tree.named_fields (Sdl.parse_named hd) (List.mem_of_getElem? hn) ?_
    rwa [Node.fields, hk]
  have hviews := views (Tree.ofDocument d) hk hfields
  rw [Tree.implementors_ofDocument] at hviews
  exact ⟨_, _, _, hproperty List.mem_cons_self, hproperty (List.mem_cons_of_mem _ List.mem_cons_self),
    hproperty (List.mem_cons_of_mem _ (List.mem_cons_of_mem _ List.mem_cons_self)), hviews⟩

/-- One type lists the interface twice, one in an extension, and one only where it is declared again. -/
def familyText : String :=
  "interface Node { id: ID }\nextend type Gene implements Node\ntype Protein implements Node & Node { id: ID }\n" ++
    "type Gene { name: String }\ntype Family { name: String }\ntype Family implements Node { id: ID }\n"

theorem interface_views_family : ∃ d value model graphql, Sdl.parse familyText = .ok d ∧
    (Tree.ofDocument d).nodes[0]? = some ⟨"Node", none, .interface [⟨"id", none, .named "ID", []⟩]⟩ ∧
    Views (Tree.ofDocument d) [⟨"id", none, .named "ID", []⟩] ["Protein", "Gene", "Family"] value model graphql := by
  have hfacts : (Sdl.parse familyText).toOption.map (fun d => ((Tree.ofDocument d).nodes[0]?, Tree.implementorsOf d "Node")) =
      some (some ⟨"Node", none, .interface [⟨"id", none, .named "ID", []⟩]⟩, ["Protein", "Gene", "Family"]) := by
    decide +kernel
  cases hd : Sdl.parse familyText with
  | error e => rw [hd] at hfacts; cases hfacts
  | ok d =>
    rw [hd] at hfacts
    obtain ⟨hn, himplementors⟩ := Prod.mk.inj (Option.some.inj hfacts)
    let o : Options := ⟨none, "", [], .post, .browser, .commonJs, false, .legacy, none, none, false, false⟩
    obtain ⟨value, model, graphql, -, -, -, hviews⟩ := interface_views hd o none hn rfl
    rw [himplementors] at hviews
    exact ⟨d, value, model, graphql, rfl, hn, hviews⟩

end Bindings
end GraphqlCodegen
