import GraphqlCodegen.Proofs.JsonSchema.Document
import GraphqlCodegen.Proofs.Schema.Shuffling
import GraphqlCodegen.Run
import Mathlib

/-!
# The order of definitions

Of the other types a definition sees no more than which names are declared, so it is the same in two trees that declare
the same names (`definition_congr`). The definitions of a document stand under the names of their types, and names do not
repeat, so the document does not depend on the order in which the types stand (`document_sameTypes`), nor does the text
that the generator makes of two schema texts with the same definitions (`contents_shuffled`).
-/

namespace GraphqlCodegen.JsonSchema

open GraphqlCodegen.Schema
open GraphqlCodegen.Schema.Tree (SameTypes Shuffled)

/-! ## Conversions with the same names -/

section SameNames

variable {t t' : Tree} (h : ∀ name, (t.get? name).isSome = (t'.get? name).isSome)
include h

theorem typeSchema_congr (type : TypeRef) : typeSchema t type = typeSchema t' type := by
  induction type with
  | named name =>
    rw [typeSchema, typeSchema]
    have hname := h name
    cases hg : t.get? name <;> cases hg' : t'.get? name <;> rw [hg, hg'] at hname <;> first | rfl | cases hname
    cases scalarType name <;> rfl
  | list item ih => rw [typeSchema, typeSchema, ih]
  | nonNull inner ih => rw [typeSchema, typeSchema, ih]

theorem inputsSchema_congr (inputs : List InputValue) : inputsSchema t inputs = inputsSchema t' inputs := by
  simp only [inputsSchema, inputSchema, typeSchema_congr h]

theorem fieldsSchema_congr (fields : List Field) : fieldsSchema t fields = fieldsSchema t' fields := by
  simp only [fieldsSchema, fieldSchema, typeSchema_congr h, inputsSchema_congr h]

theorem memberSchema_congr (union member : String) : memberSchema t union member = memberSchema t' union member := by
  have hk : t.isKnown member = t'.isKnown member := by rw [Tree.isKnown, Tree.isKnown, h]
  rw [memberSchema, memberSchema, hk]

theorem definition_congr (n : Node) : definition t n = definition t' n := by
  have hm : memberSchema t n.name = memberSchema t' n.name := funext fun m => memberSchema_congr h n.name m
  simp only [definition, fieldsSchema_congr h, inputsSchema_congr h, hm]

end SameNames

/-! ## Documents -/

/-- The definitions are put in the order of their names, whatever order the types stand in. -/
theorem assembled_sameTypes {t t' : Tree} (h : SameTypes t t') (schemaOf : Node → Json.Value) :
    assembled t schemaOf = assembled t' schemaOf := by
  have hkeys : ((t.nodes.map fun n => (n.name, schemaOf n)).map Prod.fst).Nodup := by
    rw [List.map_map]
    exact h.distinct
  have hdefinitions : Json.Value.ofPairs (t.nodes.map fun n => (n.name, schemaOf n)) =
      Json.Value.ofPairs (t'.nodes.map fun n => (n.name, schemaOf n)) := by
    rw [Json.Value.ofPairs, Entries.ofList_perm hkeys (h.nodes.map _)]
    rfl
  rw [assembled, assembled, h.roots, hdefinitions]

theorem document_sameTypes_ok {t t' : Tree} (h : SameTypes t t') {v : Json.Value} (hv : document t = .ok v) :
    document t' = .ok v := by
  obtain ⟨schemaOf, hall, rfl⟩ := document_ok.1 hv
  refine document_ok.2 ⟨schemaOf, fun n hn => ?_, assembled_sameTypes h schemaOf⟩
  rw [← definition_congr h.isSome_get?]
  exact hall n (h.nodes.mem_iff.2 hn)

/-- Conversion fails for both or gives the same document. -/
theorem document_sameTypes {t t' : Tree} (h : SameTypes t t') :
    (∃ e e', document t = .error e ∧ document t' = .error e') ∨ ∃ v, document t = .ok v ∧ document t' = .ok v := by
  cases hd : document t with
  | ok v => exact .inr ⟨v, rfl, document_sameTypes_ok h hd⟩
  | error e =>
    cases hd' : document t' with
    | ok v => rw [document_sameTypes_ok h.symm hd'] at hd; cases hd
    | error e' => exact .inl ⟨e, e', rfl, rfl⟩

/-- Two schema texts with the same definitions in another order, whatever they came from: the JSON Schema cannot be made
of either, or it is the same text for both. -/
theorem contents_shuffled {text text' : String} {d d' : Sdl.Document} (ht : Sdl.parse text = .ok d)
    (ht' : Sdl.parse text' = .ok d') (h : Shuffled d d') (source source' : Source) (o o' : Options) :
    ∃ tree tree', readSchema text = .ok tree ∧ readSchema text' = .ok tree' ∧
      ((∃ e e', Generator.jsonSchema.contents ⟨text, tree, source⟩ o = .error e ∧
          Generator.jsonSchema.contents ⟨text', tree', source'⟩ o' = .error e') ∨
        ∃ content, Generator.jsonSchema.contents ⟨text, tree, source⟩ o = .ok [content] ∧
          Generator.jsonSchema.contents ⟨text', tree', source'⟩ o' = .ok [content]) := by
  refine ⟨.ofDocument d, .ofDocument d', by rw [readSchema, ht], by rw [readSchema, ht'], ?_⟩
  simp only [Generator.contents]
  rcases document_sameTypes h.sameTypes with ⟨e, e', he, he'⟩ | ⟨v, hv, hv'⟩
  · exact .inl ⟨e, e', by rw [he]; rfl, by rw [he']; rfl⟩
  · exact .inr ⟨Json.pretty v, by rw [hv]; rfl, by rw [hv']; rfl⟩

def cropTypes : Sdl.Document := [
  .type ⟨none, "Query", [], .object [] [⟨none, "crop", [], .named "ID", []⟩]⟩,
  .type ⟨some "sown", "Seed", [], .scalar⟩]

def cropExtensions : Sdl.Document := [
  .extension ⟨"Query", [], .object [] [⟨none, "seed", [], .named "Seed", []⟩]⟩,
  .extension ⟨"Query", [], .object [] [⟨none, "bed", [⟨none, "of", .named "Seed", none, []⟩], .named "Int", []⟩]⟩]

def extensionsFirst : SchemaInput where
  text := "extend type Query{seed:Seed} extend type Query{bed(of:Seed):Int} type Query{crop:ID} \"sown\" scalar Seed"
  tree := .ofDocument (cropExtensions ++ cropTypes)
  source := .path "crops"

def typesFirst : SchemaInput where
  text := "type Query{crop:ID} \"sown\" scalar Seed extend type Query{seed:Seed} extend type Query{bed(of:Seed):Int}"
  tree := .ofDocument (cropTypes ++ cropExtensions)
  source := .url "http://crops"

theorem contents_shuffled_crops : Shuffled (cropExtensions ++ cropTypes) (cropTypes ++ cropExtensions) ∧
    readSchema extensionsFirst.text = .ok extensionsFirst.tree ∧ readSchema typesFirst.text = .ok typesFirst.tree ∧
    ∀ o, ∃ content, Generator.jsonSchema.contents extensionsFirst o = .ok [content] ∧
      Generator.jsonSchema.contents typesFirst o = .ok [content] := by
  have hparse : Sdl.parse extensionsFirst.text = .ok (cropExtensions ++ cropTypes) := by cbv
  have hparse' : Sdl.parse typesFirst.text = .ok (cropTypes ++ cropExtensions) := by cbv
  have hextensions : Tree.extensionsOf (cropTypes ++ cropExtensions) = Tree.extensionsOf (cropExtensions ++ cropTypes) := by
    simp [Tree.extensionsOf, cropTypes, cropExtensions]
  have hshuffled : Shuffled (cropExtensions ++ cropTypes) (cropTypes ++ cropExtensions) :=
    ⟨List.perm_append_comm, by decide, by decide, fun _ => by rw [hextensions]⟩
  have hok : (document extensionsFirst.tree).toOption.isSome = true := by decide +kernel
  refine ⟨hshuffled, by rw [readSchema, hparse]; rfl, by rw [readSchema, hparse']; rfl, fun o => ?_⟩
  obtain ⟨_, _, hr, hr', h⟩ := contents_shuffled hparse hparse' hshuffled extensionsFirst.source typesFirst.source o o
  rw [readSchema, hparse] at hr
  rw [readSchema, hparse'] at hr'
  cases hr
  cases hr'
  rcases h with ⟨e, -, he, -⟩ | hcontent
  · simp only [Generator.contents] at he
    change (document extensionsFirst.tree >>= fun v => pure [Json.pretty v]) = _ at he
    cases hd : document extensionsFirst.tree with
    | ok v => rw [hd] at he; cases he
    | error e => rw [hd] at hok; cases hok
  · exact hcontent

end GraphqlCodegen.JsonSchema
