import GraphqlCodegen.Proofs.Json.Values
import GraphqlCodegen.Proofs.Schema.Names
import GraphqlCodegen.JsonSchema

/-!
# Documents and their parts

What each conversion returns when it succeeds, in terms of the conversions of its parts. A document is put together
from one definition for each type (`document_ok`), and what stands in it under the name of a type is the
definition of the last type of that name (`at?_definitions`).
-/

namespace GraphqlCodegen.JsonSchema

open GraphqlCodegen.Schema

/-! ## Conversions that succeed -/

section Success

variable {α β γ δ : Type}

theorem bind_ok {x : Except Error α} {f : α → Except Error β} {y : β} :
    (x >>= f) = .ok y ↔ ∃ a, x = .ok a ∧ f a = .ok y := by
  cases x <;> simp [bind, Except.bind]

theorem pure_ok {x y : α} : (pure x : Except Error α) = .ok y ↔ y = x := by
  simp [pure, Except.pure, eq_comm]

/-- All parts convert, and the results stand in their order. -/
theorem mapM_ok [Inhabited β] {f : α → Except Error β} {k : α → β → γ} {xs : List α} {ys : List γ} :
    (xs.mapM fun x => return k x (← f x)) = .ok ys ↔
      ∃ g : α → β, (∀ x ∈ xs, f x = .ok (g x)) ∧ ys = xs.map fun x => k x (g x) := by
  constructor
  · intro h
    refine ⟨fun x => (f x).toOption.getD default, ?_⟩
    induction xs generalizing ys with
    | nil => simp [pure_ok.1 h]
    | cons x rest ih =>
      rw [List.mapM_cons] at h
      obtain ⟨z, hz, h⟩ := bind_ok.1 h
      obtain ⟨y, hy, hk⟩ := bind_ok.1 hz
      obtain ⟨zs, hzs, h⟩ := bind_ok.1 h
      obtain ⟨hall, rfl⟩ := ih hzs
      obtain rfl := pure_ok.1 h
      obtain rfl := pure_ok.1 hk
      refine ⟨?_, by simp [hy, Except.toOption]⟩
      rintro w (_ | ⟨_, hw⟩)
      · simp [hy, Except.toOption]
      · exact hall w hw
  · rintro ⟨g, hall, rfl⟩
    induction xs with
    | nil => rfl
    | cons x rest ih =>
      rw [List.mapM_cons, hall x (by simp), ih fun y hy => hall y (by simp [hy])]
      rfl

/-- What is made of the results of all parts. -/
theorem traverse_ok [Inhabited β] {f : α → Except Error β} {k : α → β → γ} {xs : List α} {wrap : List γ → δ} {y : δ} :
    (do return wrap (← xs.mapM fun x => return k x (← f x))) = .ok y ↔
      ∃ g : α → β, (∀ x ∈ xs, f x = .ok (g x)) ∧ y = wrap (xs.map fun x => k x (g x)) := by
  rw [bind_ok]
  constructor
  · rintro ⟨ys, hys, h⟩
    obtain ⟨g, hall, rfl⟩ := mapM_ok.1 hys
    exact ⟨g, hall, pure_ok.1 h⟩
  · rintro ⟨g, hall, rfl⟩
    exact ⟨_, mapM_ok.2 ⟨g, hall, rfl⟩, rfl⟩

end Success

instance : Inhabited Json.Value := ⟨.null⟩

/-! ## Inputs and fields -/

variable {t : Tree}

/-- A schema with a default, if there is one. -/
def withDefault (default : Option String) (schema : Members) : Members :=
  match default with
  | some text => Entries.put "default" (.string text) schema
  | none => schema

/-- What a field returns, beside the schema of its arguments. -/
def withArguments (returns arguments : Members) : Members :=
  Entries.ofList [
    ("type", .string "object"),
    ("properties", Json.Value.ofPairs [("return", .object returns), ("arguments", .object arguments)])]

theorem inputSchema_ok {i : InputValue} {s : Members} : inputSchema t i = .ok s ↔
    ∃ type, typeSchema t i.type = .ok type ∧ s = describe i.description (withDefault i.default type) := by
  rw [inputSchema, bind_ok]
  exact exists_congr fun type => and_congr_right fun _ => pure_ok

theorem inputsSchema_ok {inputs : List InputValue} {s : Members} : inputsSchema t inputs = .ok s ↔
    ∃ schemaOf : InputValue → Members, (∀ i ∈ inputs, inputSchema t i = .ok (schemaOf i)) ∧
      s = objectSchema (inputs.map fun i => (i.name, i.type, schemaOf i)) := by
  rw [inputsSchema]
  exact traverse_ok

theorem fieldSchema_ok {f : Field} {s : Members} : fieldSchema t f = .ok s ↔
    ∃ returns, typeSchema t f.type = .ok returns ∧
      (f.args = [] ∧ s = describe f.description returns ∨
        f.args ≠ [] ∧ ∃ arguments, inputsSchema t f.args = .ok arguments ∧
          s = describe f.description (withArguments returns arguments)) := by
  rw [fieldSchema, bind_ok]
  refine exists_congr fun returns => and_congr_right fun _ => ?_
  by_cases h : f.args = []
  · simp only [h, List.isEmpty_nil, ↓reduceIte, pure_bind, pure_ok, true_and, ne_eq, not_true_eq_false, false_and, or_false]
  · have he : f.args.isEmpty = false := by simpa using h
    simp only [h, he, Bool.false_eq_true, ↓reduceIte, bind_ok, pure_ok, withArguments, false_and, false_or, ne_eq,
      not_false_eq_true, true_and, exists_eq_left]

theorem fieldsSchema_ok {fields : List Field} {s : Members} : fieldsSchema t fields = .ok s ↔
    ∃ schemaOf : Field → Members, (∀ f ∈ fields, fieldSchema t f = .ok (schemaOf f)) ∧
      s = objectSchema (fields.map fun f => (f.name, f.type, schemaOf f)) := by
  rw [fieldsSchema]
  exact traverse_ok

/-! ## Definitions -/

theorem memberSchema_ok {union member : String} {v : Json.Value} :
    memberSchema t union member = .ok v ↔ t.isKnown member ∧ v = .object (reference member) := by
  rw [memberSchema]
  split
  · rename_i h; simp [h, eq_comm]
  · rename_i h; simp [h]

theorem membersSchema_ok {union : String} {members : List String} {variants : List Json.Value} :
    members.mapM (memberSchema t union) = .ok variants ↔
      (∀ m ∈ members, t.isKnown m) ∧ variants = members.map fun m => .object (reference m) := by
  have hm : members.mapM (memberSchema t union) = members.mapM fun m => memberSchema t union m >>= pure := by
    simp only [bind_pure]
  rw [hm, mapM_ok (k := fun _ v => v)]
  constructor
  · rintro ⟨schemaOf, hall, rfl⟩
    refine ⟨fun m hm => (memberSchema_ok.1 (hall m hm)).1, List.map_congr_left fun m hm => ?_⟩
    exact (memberSchema_ok.1 (hall m hm)).2
  · rintro ⟨hall, rfl⟩
    exact ⟨_, fun m hm => memberSchema_ok.2 ⟨hall m hm, rfl⟩, rfl⟩

/-- The schema of a type without its description. -/
def kindSchema (t : Tree) (n : Node) : Except Error Members :=
  match n.kind with
  | .object _ fields => fieldsSchema t fields
  | .interface fields => fieldsSchema t fields
  | .input fields => inputsSchema t fields
  | .union members => do return [("anyOf", .array (← members.mapM (memberSchema t n.name)))]
  | .enum values => .ok (Entries.ofList [
      ("type", .string "string"), ("enum", .array (values.map fun v => .string v.name))])
  | .scalar => .ok [("title", .string n.name)]

theorem definition_eq (t : Tree) (n : Node) :
    definition t n = kindSchema t n >>= fun s => pure (.object (describe n.description s)) := by
  rw [definition, kindSchema]
  cases n.kind <;> simp <;> rfl

theorem definition_ok {n : Node} {v : Json.Value} : definition t n = .ok v ↔
    ∃ s, kindSchema t n = .ok s ∧ v = .object (describe n.description s) := by
  rw [definition_eq, bind_ok]
  exact exists_congr fun s => and_congr_right fun _ => pure_ok

/-! ## Documents -/

/-- The document from the definitions of its types. -/
def assembled (t : Tree) (schemaOf : Node → Json.Value) : Json.Value :=
  Json.Value.ofPairs [
    ("$schema", .string draft),
    ("type", .string "object"),
    ("properties", Json.Value.ofPairs (t.roots.toList.map fun r => (r.1, .object (reference r.2)))),
    ("definitions", Json.Value.ofPairs (t.nodes.map fun n => (n.name, schemaOf n)))]

theorem document_ok {v : Json.Value} : document t = .ok v ↔
    ∃ schemaOf : Node → Json.Value, (∀ n ∈ t.nodes, definition t n = .ok (schemaOf n)) ∧ v = assembled t schemaOf := by
  rw [document]
  exact traverse_ok

/-- Of the types that share a name the last one is defined. -/
theorem get?_definitionsOf (t : Tree) (schemaOf : Node → Json.Value) (name : String) :
    Entries.get? name (Entries.ofList (t.nodes.map fun n => (n.name, schemaOf n))) = (t.last? name).map schemaOf := by
  rw [Entries.get?_ofList, List.filter_map, List.getLast?_map, Option.map_map, Tree.last?]
  rfl

theorem get?_definitions (t : Tree) (schemaOf : Node → Json.Value) :
    (assembled t schemaOf).get? "definitions" = some (Json.Value.ofPairs (t.nodes.map fun n => (n.name, schemaOf n))) := by
  simp [assembled, Json.Value.get?_ofPairs]

theorem at?_definitions (t : Tree) (schemaOf : Node → Json.Value) (name : String) :
    (assembled t schemaOf).at? ["definitions", name] = (t.last? name).map schemaOf := by
  rw [← get?_definitionsOf, Json.Value.at?_cons, get?_definitions, Option.bind_some, Json.Value.at?_cons]
  exact Option.bind_fun_some _

end GraphqlCodegen.JsonSchema
