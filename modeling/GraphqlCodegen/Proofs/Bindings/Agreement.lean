import Mathlib.Data.List.Forall2
import GraphqlCodegen.Proofs.Bindings.Entries
import GraphqlCodegen.Proofs.Bindings.Lookups
import GraphqlCodegen.Proofs.Bindings.Properties

/-!
# The constant maps beside the map of selections

Two modules speak of the same fields: the constant maps give the types of arguments and results by their names, the map
of selections gives the types of what may be selected. `TypeRow` and `FieldRow` put what they say of one type and of one
field side by side. The rows stand in the order of the tree (`Holds`), and in each row the two modules agree
(`TypeAgrees`, `FieldAgrees`). Names may be repeated: rows belong to types and fields by their places.
-/

namespace GraphqlCodegen.Bindings

open GraphqlCodegen.Schema GraphqlCodegen.Script

/-! ## Reading selections -/

/-- The arguments of a selection that takes some, and what is selected with them. -/
def pair? (selection : Ty) : Option (List (Property Ty) × Ty) :=
  selection.members.findSome? fun
    | .tuple [.object arguments, selected] => some (arguments, selected)
    | _ => none

/-- One way to select takes no arguments. -/
def IsBare : Ty → Prop
  | .tuple _ => False
  | _ => True

/-- What is selected, in each of the ways that a selection allows. -/
def selected (selection : Ty) : List Ty :=
  selection.members.map fun
    | .tuple [_, s] => s
    | s => s

/-- The properties of a type map. -/
def propertiesOf (m : Module) (map : String) : List (Property Ty) :=
  m.types.flatMap fun
    | .interface name properties => if name = map then properties else []
    | .enum _ _ _ => []

/-! ## Rows -/

/-- What the modules hold for a field: its entries among the argument types and the result types, and its selection. -/
structure FieldRow where
  name : String
  arguments : Option Expr
  returns : Expr
  selection : Ty

/-- What the modules hold for a type. -/
structure TypeRow where
  name : String
  props : Option Expr
  returns : Option Expr
  value : Ty

/-- The modules hold these rows, one after the other. -/
structure Holds (constants m : Module) (rows : List TypeRow) : Prop where
  props : entriesOf constants "AllTypesProps" = rows.filterMap fun r => r.props.map (r.name, ·)
  returns : entriesOf constants "ReturnTypes" = rows.filterMap fun r => r.returns.map (r.name, ·)
  values : propertiesOf m valueMap = rows.map fun r => ⟨r.name, false, r.value⟩

/-- The same for the fields of a type; more may be selected behind them. -/
structure HoldsFields (r : TypeRow) (rows : List FieldRow) : Prop where
  props : (r.props.map Expr.entries).getD [] = rows.filterMap fun q => q.arguments.map (q.name, ·)
  returns : r.returns.map Expr.entries = some (rows.map fun q => (q.name, q.returns))
  values : ∃ fragments, fieldsOf r.value = rows.map (fun q => ⟨q.name, true, q.selection⟩) ++ fragments

/-! ## Agreement -/

/-- The name is declared, as neither a scalar nor an enum. -/
def IsComposite (t : Tree) (name : String) : Prop :=
  ∃ n, t.get? name = some n ∧ n.kind ≠ .scalar ∧ ∀ values, n.kind ≠ .enum values

/-- The input has to be given. -/
def IsRequired (i : InputValue) : Prop := i.type.isNonNull = true ∧ i.default = none

/-- The names of the arguments that a field takes, if it takes any. -/
def argumentNames? (f : Field) : Option (List String) := if f.args = [] then none else some (f.args.map InputValue.name)

/-- The modules agree about a field: on the arguments that it takes, in their order; on what is selected of the type that
it returns; and on whether it can be selected without arguments. -/
structure FieldAgrees (t : Tree) (f : Field) (q : FieldRow) : Prop where
  name : q.name = f.name
  arguments : q.arguments.map (fun e => e.entries.map Prod.fst) = (pair? q.selection).map fun p => p.1.map Property.name
  taken : (pair? q.selection).map (fun p => p.1.map Property.name) = argumentNames? f
  returns : textOf? q.returns = some f.type.baseName
  offers : selected q.selection ≠ []
  composite : IsComposite t f.type.baseName → ∀ s ∈ selected q.selection, s = .lookup valueMap f.type.baseName
  leaf : ¬ IsComposite t f.type.baseName → ∀ s ∈ selected q.selection, s = scalarSelection
  bare : (∃ s ∈ q.selection.members, IsBare s) ↔ ∀ a ∈ f.args, ¬ IsRequired a

/-- The modules agree about a type: about the fields of an object or an interface, and about the members of a union. -/
structure TypeAgrees (t : Tree) (n : Node) (r : TypeRow) : Prop where
  name : r.name = n.name
  fields : n.HasFields → ∃ rows, HoldsFields r rows ∧ List.Forall₂ (FieldAgrees t) n.fields rows
  members : ∀ members, n.kind = .union members →
    r.returns.map (fun e => e.entries.map Prod.fst) = some ((fieldsOf r.value).map Property.name) ∧
      (fieldsOf r.value).map Property.name = members.map fragmentKey

variable {t : Tree}

/-! ## Selections of fields -/

theorem isLeaf_iff {name : String} : isLeaf t name = false ↔ IsComposite t name := by
  unfold isLeaf IsComposite
  cases t.get? name with
  | none => simp
  | some n => cases h : n.kind <;> simp [h]

theorem bareSelection_composite {f : Field} (h : IsComposite t f.type.baseName) :
    bareSelection t f = .lookup valueMap f.type.baseName := by
  rw [bareSelection, isLeaf_iff.2 h]
  rfl

theorem bareSelection_leaf {f : Field} (h : ¬ IsComposite t f.type.baseName) : bareSelection t f = scalarSelection := by
  rw [bareSelection, if_pos]
  simpa using mt isLeaf_iff.1 h

/-- What is selected without arguments is no pair. -/
theorem bareSelection_cases (t : Tree) (f : Field) :
    bareSelection t f = scalarSelection ∨ bareSelection t f = .lookup valueMap f.type.baseName := by
  unfold bareSelection
  split
  · exact .inl rfl
  · exact .inr rfl

/-- The arguments of a field with what is selected of it. -/
def argumentPair (t : Tree) (f : Field) : Ty := .tuple [.object (f.args.map (inputProperty t)), bareSelection t f]

theorem isOptionalInput_iff {i : InputValue} : isOptionalInput i = true ↔ ¬ IsRequired i := by
  unfold isOptionalInput IsRequired
  cases i.type.isNonNull <;> cases i.default <;> simp

/-- A field is selected without arguments, with them, or in both ways. -/
theorem selectionProperty_cases (t : Tree) (f : Field) :
    (f.args = [] ∧ (selectionProperty t f).type = bareSelection t f) ∨
    (f.args ≠ [] ∧ (∀ a ∈ f.args, ¬ IsRequired a) ∧
      (selectionProperty t f).type = .union [argumentPair t f, bareSelection t f]) ∨
    (f.args ≠ [] ∧ (∃ a ∈ f.args, IsRequired a) ∧ (selectionProperty t f).type = argumentPair t f) := by
  by_cases hargs : f.args = []
  · exact .inl ⟨hargs, by simp [selectionProperty, hargs]⟩
  · have hempty : f.args.isEmpty = false := by simpa using hargs
    have hall : f.args.all isOptionalInput = true ↔ ∀ a ∈ f.args, ¬ IsRequired a := by
      rw [List.all_eq_true]
      exact forall₂_congr fun a _ => isOptionalInput_iff
    simp only [selectionProperty, hempty, Bool.false_eq_true, ↓reduceIte]
    by_cases hopt : ∀ a ∈ f.args, ¬ IsRequired a
    · refine .inr (.inl ⟨hargs, hopt, ?_⟩)
      rw [if_pos (hall.2 hopt)]
      rcases bareSelection_cases t f with hb | hb <;> rw [argumentPair, hb] <;> rfl
    · refine .inr (.inr ⟨hargs, by simpa using hopt, ?_⟩)
      rw [if_neg (mt hall.1 hopt)]
      rfl

theorem pair?_selectionProperty (t : Tree) (f : Field) :
    (pair? (selectionProperty t f).type).map (fun p => p.1.map Property.name) = argumentNames? f := by
  have hnames : (f.args.map (inputProperty t)).map Property.name = f.args.map InputValue.name := by
    rw [List.map_map]
    rfl
  obtain ⟨hargs, h⟩ | ⟨hargs, -, h⟩ | ⟨hargs, -, h⟩ := selectionProperty_cases t f
  · rw [h, argumentNames?, if_pos hargs]
    rcases bareSelection_cases t f with hb | hb <;> rw [hb] <;> rfl
  · rw [h, argumentNames?, if_neg hargs, ← hnames]
    rfl
  · rw [h, argumentNames?, if_neg hargs, ← hnames]
    rfl

theorem selected_selectionProperty (t : Tree) (f : Field) : selected (selectionProperty t f).type ≠ [] ∧
    ∀ s ∈ selected (selectionProperty t f).type, s = bareSelection t f := by
  obtain ⟨-, h⟩ | ⟨-, -, h⟩ | ⟨-, -, h⟩ := selectionProperty_cases t f
  · rcases bareSelection_cases t f with hb | hb <;> simp [h, hb, selected, scalarSelection, Ty.members]
  · rcases bareSelection_cases t f with hb | hb <;> simp [h, hb, selected, argumentPair, scalarSelection, Ty.members]
  · simp [h, selected, argumentPair, Ty.members]

theorem bare_selectionProperty (t : Tree) (f : Field) :
    (∃ s ∈ (selectionProperty t f).type.members, IsBare s) ↔ ∀ a ∈ f.args, ¬ IsRequired a := by
  have hbare : IsBare (bareSelection t f) := by
    rcases bareSelection_cases t f with hb | hb <;> rw [hb] <;> trivial
  obtain ⟨hargs, h⟩ | ⟨-, hopt, h⟩ | ⟨-, hreq, h⟩ := selectionProperty_cases t f
  · refine iff_of_true ⟨bareSelection t f, ?_, hbare⟩ (by simp [hargs])
    rw [h]
    rcases bareSelection_cases t f with hb | hb <;> rw [hb] <;> exact List.mem_cons_self
  · refine iff_of_true ⟨bareSelection t f, ?_, hbare⟩ hopt
    rw [h]
    exact List.mem_cons_of_mem _ List.mem_cons_self
  · refine iff_of_false ?_ (by simpa using hreq)
    rintro ⟨s, hs, hb⟩
    rw [h] at hs
    obtain rfl : s = argumentPair t f := List.mem_singleton.1 hs
    exact hb

/-! ## The rows of a tree -/

/-- What the modules hold for a field. -/
def fieldRow (t : Tree) (f : Field) : FieldRow where
  name := f.name
  arguments := if f.args.isEmpty then none else some (inputTypes f.args)
  returns := .string f.type.baseName
  selection := (selectionProperty t f).type

theorem fieldAgrees (t : Tree) (f : Field) : FieldAgrees t f (fieldRow t f) where
  name := rfl
  arguments := by
    rw [fieldRow, pair?_selectionProperty, argumentNames?]
    cases f.args with
    | nil => rfl
    | cons a args => simp [inputTypes, baseNames]
  taken := pair?_selectionProperty t f
  returns := rfl
  offers := (selected_selectionProperty t f).1
  composite h s hs := ((selected_selectionProperty t f).2 s hs).trans (bareSelection_composite h)
  leaf h s hs := ((selected_selectionProperty t f).2 s hs).trans (bareSelection_leaf h)
  bare := bare_selectionProperty t f

/-- What the modules hold for a type. -/
def typeRow (t : Tree) (n : Node) : TypeRow where
  name := n.name
  props := (propsEntry n).map Prod.snd
  returns := (returnsEntry n).map Prod.snd
  value := valueType t n

theorem argumentTypes_eq (t : Tree) (fields : List Field) :
    argumentTypes fields = (fields.map (fieldRow t)).filterMap fun q => q.arguments.map (q.name, ·) := by
  induction fields with
  | nil => rfl
  | cons f fields ih =>
    rw [argumentTypes] at ih ⊢
    cases hargs : f.args.isEmpty <;> simp [fieldRow, hargs, ih]

theorem valueType_fields {n : Node} (h : n.HasFields) :
    ∃ fragments, fieldsOf (valueType t n) = n.fields.map (selectionProperty t) ++ fragments := by
  obtain ⟨interfaces, hk⟩ | hk := h.kind
  · exact ⟨[], by rw [valueType, hk, List.append_nil]; rfl⟩
  · exact ⟨_, by rw [valueType, hk]; rfl⟩

theorem holdsFields (t : Tree) {n : Node} (h : n.HasFields) : HoldsFields (typeRow t n) (n.fields.map (fieldRow t)) where
  props := by
    rw [← argumentTypes_eq, ← (propsEntry_fields h).1, typeRow, Option.map_map]
    rfl
  returns := by
    rw [typeRow, returnsEntry_fields h]
    simp [returnTypes, baseNames, fieldRow]
  values := by
    obtain ⟨fragments, hf⟩ := valueType_fields (t := t) h
    refine ⟨fragments, hf.trans ?_⟩
    rw [List.map_map]
    rfl

theorem typeAgrees (t : Tree) (n : Node) : TypeAgrees t n (typeRow t n) where
  name := rfl
  fields h := ⟨_, holdsFields t h, List.forall₂_map_right_iff.2 (List.forall₂_same.2 fun f _ => fieldAgrees t f)⟩
  members members h := by
    have hvalue : fieldsOf (valueType t n) = members.map fragmentProperty := by rw [valueType, h]; rfl
    have hkeys : (members.map fragmentProperty).map Property.name = members.map fragmentKey := by
      rw [List.map_map]
      rfl
    simp [typeRow, returnsEntry, h, hvalue, hkeys, Function.comp_def]

theorem propertiesOf_typeMap {map : String} {entry : Node → Ty} (h : (map, entry) ∈ typeMaps t) (o : Options)
    (host : Option String) : propertiesOf (indexModule t o host) map = t.nodes.map fun n => ⟨n.name, false, entry n⟩ := by
  have henums : (t.nodes.filterMap (enumOf o.constEnums)).flatMap (fun
      | .interface name properties => if name = map then properties else []
      | .enum _ _ _ => []) = [] := by
    refine List.flatMap_eq_nil_iff.2 fun d hd => ?_
    obtain ⟨n, -, he⟩ := List.mem_filterMap.1 hd
    unfold enumOf at he
    split at he <;> cases he
    rfl
  rw [propertiesOf, indexModule, List.flatMap_append, henums]
  simp only [typeMaps, List.mem_cons, Prod.mk.injEq, List.not_mem_nil, or_false] at h
  rcases h with ⟨rfl, rfl⟩ | ⟨rfl, rfl⟩ | ⟨rfl, rfl⟩ <;> simp [typeMap, valueMap, AnswerMap.name]

/-- The constant maps and the map of selections hold the types of a tree in its order, and agree about each of them:
about the arguments of its fields, about what is selected of them and whether it can be without arguments, and
about the members of unions. -/
theorem constants_agree (t : Tree) (o : Options) (host : Option String) :
    ∃ rows, Holds (constantsModule t) (indexModule t o host) rows ∧ List.Forall₂ (TypeAgrees t) t.nodes rows := by
  refine ⟨t.nodes.map (typeRow t), ⟨?_, ?_, ?_⟩, ?_⟩
  · rw [entriesOf_props, List.filterMap_map]
    exact List.filterMap_congr fun n _ => (propsEntry_name n).symm
  · rw [entriesOf_returns, List.filterMap_map]
    exact List.filterMap_congr fun n _ => (returnsEntry_name n).symm
  · rw [propertiesOf_typeMap (show (valueMap, valueType t) ∈ typeMaps t from List.mem_cons_self), List.map_map]
    rfl
  · exact List.forall₂_map_right_iff.2 (List.forall₂_same.2 fun n _ => typeAgrees t n)

end GraphqlCodegen.Bindings
