import Mathlib.Data.List.Nodup
import GraphqlCodegen.Proofs.Bindings.Entries
import GraphqlCodegen.Proofs.Bindings.Lookups

/-!
# Finding types in the constant maps

A client that writes a query goes from type to type by the names in the constant maps: from an operation to the type that
it starts from, from a field to the type that it returns, from an argument to its type, and from there through the
fields of input objects. Each step finds what the tree says (`textAt?_returns`, `textAt?_argument`,
`textAt?_input`), so every chain of steps does (`namesAlong_chain`), however often it comes back to a type.
-/

namespace GraphqlCodegen

open Schema

/-! ## Looking up -/

namespace Script

/-- What an object holds under a key: the last entry counts. -/
def Expr.get? (e : Expr) (key : String) : Option Expr := (e.entries.filter (·.1 = key)).getLast?.map Prod.snd

/-- What an object holds under keys, one inside the other. -/
def Expr.at? : Expr → List String → Option Expr
  | e, [] => some e
  | e, key :: path => (e.get? key).bind (·.at? path)

@[simp] theorem Expr.at?_nil (e : Expr) : e.at? [] = some e := rfl

@[simp] theorem Expr.at?_cons (e : Expr) (key : String) (path : List String) :
    e.at? (key :: path) = (e.get? key).bind (·.at? path) := rfl

/-- Where no key is repeated, every value is found. -/
theorem Expr.get?_of_mem {e : Expr} (hnd : (e.entries.map Prod.fst).Nodup) {key : String} {value : Expr}
    (h : (key, value) ∈ e.entries) : e.get? key = some value := by
  rw [get?, Entries.filter_of_nodup hnd h]
  rfl

end Script

namespace Bindings

open Script

/-- The text that a constant of a module holds under keys, one inside the other. -/
def textAt? (m : Module) (constant : String) (path : List String) : Option String :=
  ((Expr.object (entriesOf m constant)).at? path).bind textOf?

/-- The names that a constant gives along keys, each looked up under the name before. -/
def namesAlong (m : Module) (constant : String) : String → List String → Option (List String)
  | _, [] => some []
  | start, key :: keys => do
    let name ← textAt? m constant [start, key]
    return name :: (← namesAlong m constant name keys)

/-- Steps from name to name, each from where the one before led to. -/
inductive Chain {α : Type} (step : String → α → String → Prop) : String → List α → String → Prop
  | nil (name : String) : Chain step name [] name
  | cons {a b c : String} {x : α} {xs : List α} : step a x b → Chain step b xs c → Chain step a (x :: xs) c

theorem Chain.append {α : Type} {step : String → α → String → Prop} {a b c : String} {xs ys : List α}
    (h : Chain step a xs b) (h' : Chain step b ys c) : Chain step a (xs ++ ys) c := by
  induction h with
  | nil name => exact h'
  | cons hx _ ih => exact .cons hx (ih h')

/-- If each step can be looked up, every chain can. -/
theorem namesAlong_chain {α : Type} {step : String → α → String → Prop} {m : Module} {constant : String}
    {key base : α → String} (hstep : ∀ a x b, step a x b → b = base x ∧ textAt? m constant [a, key x] = some b)
    {a b : String} {xs : List α} (h : Chain step a xs b) : namesAlong m constant a (xs.map key) = some (xs.map base) := by
  induction h with
  | nil name => rfl
  | cons hx _ ih =>
    obtain ⟨rfl, ht⟩ := hstep _ _ _ hx
    rw [List.map_cons, namesAlong, ht]
    simp [ih]

variable {t : Tree}

/-- The object or interface of a name has the field, which returns a type of some base name. -/
structure IsFieldOf (t : Tree) (type : String) (f : Field) (result : String) : Prop where
  parent : ∃ n ∈ t.nodes, n.name = type ∧ f ∈ n.fields
  result : f.type.baseName = result

/-- The input object of a name has the field, which is of a type of some base name. -/
structure IsInputOf (t : Tree) (type : String) (i : InputValue) (base : String) : Prop where
  parent : ∃ n ∈ t.nodes, n.name = type ∧ i ∈ n.inputs
  base : i.type.baseName = base

/-! ## Entries of types -/

section

variable {entry : Node → Option (String × Expr)} (hentry : ∀ n, ((entry n).map Prod.snd).map (n.name, ·) = entry n)
include hentry

theorem entry_name {n : Node} {e : String × Expr} (h : entry n = some e) : e.1 = n.name := by
  have hn := hentry n
  rw [h, Option.map_some, Option.map_some, Option.some.injEq] at hn
  rw [← hn]

/-- The entries of a name are those of the types of that name. -/
theorem filter_entries (nodes : List Node) (name : String) :
    (nodes.filterMap entry).filter (·.1 = name) = (nodes.filter (·.name = name)).filterMap entry := by
  induction nodes with
  | nil => rfl
  | cons n ns ih =>
    cases he : entry n with
    | none => by_cases h : n.name = name <;> simp [he, h, ih]
    | some e =>
      have hn := entry_name hentry he
      by_cases h : n.name = name <;> simp [he, hn, h, ih]

/-- What is found under the name of a type is its entry, if it has any. -/
theorem get?_entries (hd : t.Distinct) {n : Node} (hn : n ∈ t.nodes) :
    (Expr.object (t.nodes.filterMap entry)).get? n.name = (entry n).map Prod.snd := by
  rw [Expr.get?, Expr.entries_object, filter_entries hentry, Entries.filter_of_nodup hd.types hn]
  cases h : entry n <;> simp [h]

theorem get?_undeclared {name : String} (h : ¬ t.Declares name) :
    (Expr.object (t.nodes.filterMap entry)).get? name = none := by
  have hnone : t.nodes.filter (·.name = name) = [] :=
    List.filter_eq_nil_iff.2 fun n hn he => h ⟨n, hn, of_decide_eq_true he⟩
  rw [Expr.get?, Expr.entries_object, filter_entries hentry, hnone]
  rfl

end

/-! ## Single steps -/

theorem at?_baseNames {fields : List (String × TypeRef)} (hnd : (fields.map Prod.fst).Nodup) {p : String × TypeRef}
    (hp : p ∈ fields) : (baseNames fields).at? [p.1] = some (.string p.2.baseName) := by
  have hkeys : ((baseNames fields).entries.map Prod.fst).Nodup := by simpa [baseNames, Function.comp_def] using hnd
  rw [Expr.at?, Expr.get?_of_mem hkeys (List.mem_map.2 ⟨p, hp, rfl⟩)]
  rfl

theorem at?_inputTypes {inputs : List InputValue} (hnd : (inputs.map InputValue.name).Nodup) {i : InputValue}
    (hi : i ∈ inputs) : (inputTypes inputs).at? [i.name] = some (.string i.type.baseName) := by
  refine at?_baseNames (p := (i.name, i.type)) ?_ (List.mem_map_of_mem hi)
  simpa [Function.comp_def] using hnd

theorem textAt?_returns (hd : t.Distinct) {type result : String} {f : Field} (h : IsFieldOf t type f result) :
    textAt? (constantsModule t) "ReturnTypes" [type, f.name] = some result := by
  obtain ⟨⟨n, hn, rfl, hf⟩, rfl⟩ := h
  have hnames : ((n.fields.map fun f => (f.name, f.type)).map Prod.fst).Nodup := by
    simpa [Function.comp_def] using hd.fields n hn
  rw [textAt?, entriesOf_returns, Expr.at?, get?_entries returnsEntry_name hd hn,
    returnsEntry_fields (Node.hasFields_of_mem hf), Option.map_some, Option.bind_some, returnTypes,
    at?_baseNames (p := (f.name, f.type)) hnames (List.mem_map_of_mem hf)]
  rfl

/-- A field with arguments has an entry with the types of its arguments. -/
theorem get?_argumentTypes {fields : List Field} (hnd : (fields.map Field.name).Nodup) {f : Field} (hf : f ∈ fields)
    (hargs : f.args ≠ []) : (Expr.object (argumentTypes fields)).get? f.name = some (inputTypes f.args) := by
  have hmem : f ∈ fields.filter (!·.args.isEmpty) := List.mem_filter.2 ⟨hf, by simpa using hargs⟩
  refine Expr.get?_of_mem ?_ (List.mem_map.2 ⟨f, hmem, rfl⟩)
  rw [Expr.entries_object, argumentTypes, List.map_map]
  exact hnd.sublist (List.filter_sublist.map Field.name)

theorem textAt?_argument (hd : t.Distinct) {type result : String} {f : Field} (h : IsFieldOf t type f result)
    {a : InputValue} (ha : a ∈ f.args) :
    textAt? (constantsModule t) "AllTypesProps" [type, f.name, a.name] = some a.type.baseName := by
  obtain ⟨⟨n, hn, rfl, hf⟩, rfl⟩ := h
  have hargs : f.args ≠ [] := List.ne_nil_of_mem ha
  have htypes := get?_argumentTypes (hd.fields n hn) hf hargs
  have hne : argumentTypes n.fields ≠ [] := by
    intro hnil
    rw [hnil] at htypes
    cases htypes
  rw [textAt?, entriesOf_props, Expr.at?, get?_entries propsEntry_name hd hn,
    (propsEntry_fields (Node.hasFields_of_mem hf)).2 hne, Option.map_some, Option.bind_some, Expr.at?, htypes,
    Option.bind_some, at?_inputTypes (hd.arguments n hn f hf) ha]
  rfl

theorem textAt?_input (hd : t.Distinct) {type base : String} {i : InputValue} (h : IsInputOf t type i base) :
    textAt? (constantsModule t) "AllTypesProps" [type, i.name] = some base := by
  obtain ⟨⟨n, hn, rfl, hi⟩, rfl⟩ := h
  have hentry : propsEntry n = some (n.name, inputTypes n.inputs) := by
    unfold Node.inputs at hi ⊢
    unfold propsEntry
    cases hk : n.kind with
    | input fields => rfl
    | _ => rw [hk] at hi; exact absurd hi List.not_mem_nil
  rw [textAt?, entriesOf_props, Expr.at?, get?_entries propsEntry_name hd hn, hentry, Option.map_some, Option.bind_some,
    at?_inputTypes (hd.inputs n hn) hi]
  rfl

theorem textAt?_operation (t : Tree) {operation root : String} (h : (operation, root) ∈ t.roots.toList) :
    textAt? (constantsModule t) "Ops" [operation] = some root := by
  have hkeys : ((Expr.object (t.roots.toList.map fun r => (r.1, Expr.constString r.2))).entries.map Prod.fst).Nodup := by
    simpa [Function.comp_def] using t.roots.nodup_toList
  rw [textAt?, entriesOf_operations, Expr.at?, Expr.get?_of_mem hkeys (List.mem_map.2 ⟨_, h, rfl⟩)]
  rfl

/-! ## Enums -/

/-- Only enums are marked as such; the other entries are objects. -/
theorem marked_propsEntry (n : Node) :
    ((propsEntry n).map Prod.snd).bind textOf? = some "enum" ↔ ∃ values, n.kind = .enum values := by
  unfold propsEntry
  cases hk : n.kind with
  | object interfaces fields => dsimp only; cases argumentTypes fields <;> simp [textOf?]
  | interface fields => dsimp only; cases argumentTypes fields <;> simp [textOf?]
  | enum values => simp [textOf?, Expr.constString]
  | input fields => simp [textOf?, inputTypes, baseNames]
  | union members => simp
  | scalar => simp

theorem marked_iff (hd : t.Distinct) (name : String) : textAt? (constantsModule t) "AllTypesProps" [name] = some "enum" ↔
    ∃ n ∈ t.nodes, n.name = name ∧ ∃ values, n.kind = .enum values := by
  have hdeclared : ∀ n ∈ t.nodes, textAt? (constantsModule t) "AllTypesProps" [n.name] =
      ((propsEntry n).map Prod.snd).bind textOf? := by
    intro n hn
    rw [textAt?, entriesOf_props, Expr.at?_cons, get?_entries propsEntry_name hd hn]
    simp
  constructor
  · intro h
    by_cases hname : t.Declares name
    · obtain ⟨n, hn, rfl⟩ := hname
      exact ⟨n, hn, rfl, (marked_propsEntry n).1 (hdeclared n hn ▸ h)⟩
    · rw [textAt?, entriesOf_props, Expr.at?_cons, get?_undeclared propsEntry_name hname] at h
      cases h
  · rintro ⟨n, hn, rfl, henum⟩
    rw [hdeclared n hn, (marked_propsEntry n).2 henum]

/-! ## Whole paths -/

/-- Genes that lead to genes, and conditions inside conditions. -/
def pedigree : Tree where
  nodes := [
    ⟨"Query", none, .object [] [⟨"gene", none, .nonNull (.named "Gene"), []⟩]⟩,
    ⟨"Gene", none, .interface [⟨"strand", none, .named "Strand", []⟩, ⟨"ancestors", none, .list (.named "Gene"),
      [⟨"where", none, .nonNull (.named "Condition"), none⟩]⟩]⟩,
    ⟨"Condition", none, .input [⟨"not", none, .named "Condition", none⟩, ⟨"strand", none, .list (.named "Strand"), none⟩]⟩,
    ⟨"Strand", none, .enum [⟨"PLUS", none⟩, ⟨"MINUS", none⟩]⟩]
  roots := ⟨some "Query", none, none⟩

end Bindings
end GraphqlCodegen
