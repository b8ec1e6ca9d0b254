import Mathlib.Data.List.Basic
import GraphqlCodegen.Proofs.Script.Parts
import GraphqlCodegen.Proofs.Schema.Names
import GraphqlCodegen.Bindings.Index

/-!
# Lookups in the type maps

The properties of a type map look up other types in the map that they stand in, name the enums of the module, and give
types in the words of the language (`Names`). What is looked up is declared wherever a field or an argument is
typed (`names_inputType`, `names_answerType`), and a type that implements an interface is. A member of a union is
looked up whether it is declared or not, and so is a type that operations start from: nothing else is looked up in vain
(`lookups_resolve_iff`).
-/

namespace GraphqlCodegen.Bindings

open GraphqlCodegen.Schema GraphqlCodegen.Script

/-! ## What a module looks up -/

/-- Every lookup inside a type map is of that map and finds a property there. -/
def LookupsResolve (m : Module) : Prop := ∀ name properties, .interface name properties ∈ m.types →
  ∀ p ∈ properties, ∀ map key, .lookup map key ∈ p.type.parts → map = name ∧ ∃ q ∈ properties, q.name = key

/-- Every bare name inside a type map is that of an enum of the module. -/
def NamesResolve (m : Module) : Prop := ∀ name properties, .interface name properties ∈ m.types →
  ∀ p ∈ properties, ∀ text, .ref text ∈ p.type.parts → needsQuotes text = false →
    ∃ members isConst, .enum text members isConst ∈ m.types

/-- The string that an expression stands for. -/
def textOf? : Expr → Option String
  | .string value => some value
  | .cast expr _ => textOf? expr
  | .object _ => none

/-- The texts that the entries of a constant stand for. -/
def constantTexts (m : Module) (name : String) : List String :=
  m.statements.flatMap fun
    | .const n _ (.object entries) _ => if n = name then entries.filterMap fun e => textOf? e.2 else []
    | _ => []

/-- Every type that the operations start from is found in the map of selections. -/
def OperationsResolve (constants m : Module) : Prop := ∀ root ∈ constantTexts constants "Ops",
  ∀ properties, .interface valueMap properties ∈ m.types → ∃ q ∈ properties, q.name = root

/-! ## What a type names -/

variable {t : Tree} {map : String} {known known' : String → Prop}

/-- A part of a type looks up what is known in the map, and a bare name is that of an enum. What is known is left open:
the declared names where lookups count, and any names where only the enums do. -/
def Names (t : Tree) (map : String) (known : String → Prop) : Ty → Prop
  | .lookup m key => m = map ∧ known key
  | .ref text => needsQuotes text = false → ∃ n ∈ t.nodes, n.name = text ∧ ∃ values, n.kind = .enum values
  | _ => True

theorem Names.imp {p : Ty} (h : Names t map known p) (hk : ∀ key, known key → known' key) : Names t map known' p := by
  cases p with
  | lookup m key => exact ⟨h.1, hk key h.2⟩
  | _ => exact h

theorem names_or {a b : Ty} :
    (a.or b).Forall (Names t map known) ↔ a.Forall (Names t map known) ∧ b.Forall (Names t map known) :=
  Ty.forall_or fun _ => trivial

theorem names_allowing {a : Ty} {extra : List Primitive} :
    (allowing a extra).Forall (Names t map known) ↔ a.Forall (Names t map known) := by
  induction extra generalizing a with
  | nil => rfl
  | cons p rest ih => exact ih.trans (names_or.trans (by simp [Names]))

/-- Words that are no bare name. -/
theorem names_ref {text : String} {c : Char} (hc : c ∈ text.toList) (hk : isKeyChar c = false) :
    (Ty.ref text).Forall (Names t map known) :=
  Ty.forall_ref.2 fun h => absurd (needsQuotes_of_mem hc hk) (by simp [h])

theorem names_enum {n : Node} {values : List EnumValue} (hn : n ∈ t.nodes) (hk : n.kind = .enum values) :
    (Ty.ref n.name).Forall (Names t map known) :=
  Ty.forall_ref.2 fun _ => ⟨n, hn, rfl, values, hk⟩

theorem names_builtin {name : String} {b : Ty} (h : builtinType name = some b) : b.Forall (Names t map known) := by
  unfold builtinType at h
  split at h <;> cases h <;> simp [Names]

/-! ## Selections and inputs -/

theorem names_strictInput (name : String) : (strictInputType t (.named name)).Forall (Names t valueMap t.Declares) := by
  rw [strictInputType]
  split
  · rename_i b hb
    exact names_builtin hb
  · split
    · rename_i n hn
      split
      · exact Ty.forall_lookup.2 ⟨rfl, Tree.declares_of_get? hn⟩
      · exact Ty.forall_lookup.2 ⟨rfl, Tree.declares_of_get? hn⟩
      · exact Ty.forall_primitive.2 trivial
    · exact Ty.forall_primitive.2 trivial

theorem names_inputType (r : TypeRef) : (inputType t r).Forall (Names t valueMap t.Declares) ∧
    (strictInputType t r).Forall (Names t valueMap t.Declares) := by
  induction r with
  | named name =>
    rw [inputType]
    exact ⟨names_allowing.2 (names_strictInput name), names_strictInput name⟩
  | list item ih =>
    rw [inputType, strictInputType]
    have hitem : (Ty.array (inputType t item)).Forall (Names t valueMap t.Declares) := Ty.forall_array.2 ⟨trivial, ih.1⟩
    exact ⟨names_allowing.2 hitem, hitem⟩
  | nonNull inner ih =>
    rw [inputType, strictInputType]
    exact ⟨ih.2, ih.2⟩

theorem names_inputProperty (i : InputValue) : (inputProperty t i).type.Forall (Names t valueMap t.Declares) :=
  names_or.2 ⟨(names_inputType i.type).1, names_ref (c := '<') (by decide) (by decide)⟩

theorem names_bareSelection (f : Field) : (bareSelection t f).Forall (Names t valueMap t.Declares) := by
  rw [bareSelection]
  split
  · exact names_ref (c := ' ') (by decide) (by decide)
  · rename_i hleaf
    refine Ty.forall_lookup.2 ⟨rfl, ?_⟩
    cases hn : t.get? f.type.baseName with
    | none => simp [isLeaf, hn] at hleaf
    | some n => exact Tree.declares_of_get? hn

theorem names_selectionProperty (f : Field) : (selectionProperty t f).type.Forall (Names t valueMap t.Declares) := by
  have hpair : (Ty.tuple [.object (f.args.map (inputProperty t)), bareSelection t f]).Forall
      (Names t valueMap t.Declares) := by
    refine Ty.forall_tuple.2 ⟨trivial, fun item hi => ?_⟩
    rcases List.mem_pair.1 hi with rfl | rfl
    · refine Ty.forall_object.2 ⟨trivial, fun q hq => ?_⟩
      obtain ⟨i, -, rfl⟩ := List.mem_map.1 hq
      exact names_inputProperty i
    · exact names_bareSelection f
  rw [selectionProperty]
  split
  · exact names_bareSelection f
  · split
    · exact names_or.2 ⟨hpair, names_bareSelection f⟩
    · exact hpair

theorem names_aliased {properties : List (Property Ty)} : (aliased properties).Forall (Names t map known) ↔
    ∀ q ∈ properties, q.type.Forall (Names t map known) := by
  simp [aliased, Names]

/-- Members of unions are looked up without a check. -/
theorem names_fragments {names : List String} :
    (∀ q ∈ names.map fragmentProperty, q.type.Forall (Names t valueMap known)) ↔ ∀ m ∈ names, known m := by
  simp [fragmentProperty, Names]

theorem names_selections (hk : ∀ key, t.Declares key → known key) (fields : List Field) :
    ∀ q ∈ fields.map (selectionProperty t), q.type.Forall (Names t valueMap known) := by
  intro q hq
  obtain ⟨f, -, rfl⟩ := List.mem_map.1 hq
  exact (names_selectionProperty f).imp fun _ h => h.imp hk

theorem declares_implementor {interface : String} {n : Node} (h : n ∈ t.implementors interface) : t.Declares n.name :=
  Tree.declares_name (List.mem_filter.1 h).1

/-- What the entry of a type looks up is known if the members of a union are. -/
theorem names_valueType (hk : ∀ key, t.Declares key → known key) {n : Node} (hn : n ∈ t.nodes) :
    (valueType t n).Forall (Names t valueMap known) ↔ ∀ m ∈ n.members, known m := by
  rw [valueType, Node.members]
  cases hkind : n.kind with
  | object interfaces fields =>
    exact iff_of_true (names_aliased.2 (names_selections hk fields)) (List.forall_mem_nil _)
  | interface fields =>
    refine iff_of_true (names_aliased.2 (List.forall_mem_append.2 ⟨names_selections hk fields, ?_⟩)) (List.forall_mem_nil _)
    intro q hq
    obtain ⟨o, ho, rfl⟩ := List.mem_map.1 hq
    exact Ty.forall_lookup.2 ⟨rfl, hk _ (declares_implementor ho)⟩
  | union members => exact names_aliased.trans names_fragments
  | enum values => exact iff_of_true (names_enum hn hkind) (List.forall_mem_nil _)
  | input fields =>
    refine iff_of_true (Ty.forall_object.2 ⟨trivial, fun q hq => ?_⟩) (List.forall_mem_nil _)
    obtain ⟨i, -, rfl⟩ := List.mem_map.1 hq
    exact (names_inputProperty i).imp fun _ h => h.imp hk
  | scalar => exact iff_of_true (Ty.forall_primitive.2 trivial) (List.forall_mem_nil _)

/-! ## Answers -/

theorem names_strictAnswer (map : AnswerMap) (name : String) :
    (strictAnswerType t map (.named name)).Forall (Names t map.name t.Declares) := by
  rw [strictAnswerType]
  split
  · rename_i b hb
    exact names_builtin hb
  · split
    · rename_i n hn
      obtain ⟨hm, rfl⟩ := Tree.of_get? hn
      split
      · rename_i values hkind
        exact names_enum hm hkind
      · exact Ty.forall_lookup.2 ⟨rfl, Tree.declares_name hm⟩
    · exact Ty.forall_primitive.2 trivial

theorem names_answerType (map : AnswerMap) (r : TypeRef) :
    (answerType t map r).Forall (Names t map.name t.Declares) ∧
      (strictAnswerType t map r).Forall (Names t map.name t.Declares) := by
  induction r with
  | named name =>
    rw [answerType]
    exact ⟨names_allowing.2 (names_strictAnswer map name), names_strictAnswer map name⟩
  | list item ih =>
    rw [answerType, strictAnswerType]
    have hitem : (Ty.array (answerType t map item)).Forall (Names t map.name t.Declares) :=
      Ty.forall_array.2 ⟨trivial, ih.1⟩
    exact ⟨names_allowing.2 hitem, hitem⟩
  | nonNull inner ih =>
    rw [answerType, strictAnswerType]
    exact ⟨ih.2, ih.2⟩

theorem names_answerProperty (hk : ∀ key, t.Declares key → known key) (map : AnswerMap) (name : String) (r : TypeRef) :
    (answerProperty t map name r).type.Forall (Names t map.name known) :=
  (names_answerType map r).1.imp fun _ h => h.imp hk

theorem names_oneOf (names : List String) : (oneOf names).Forall (Names t map known) := by
  unfold oneOf
  split
  · exact Ty.forall_literal.2 trivial
  · refine Ty.forall_union.2 ⟨trivial, fun p hp => ?_⟩
    obtain ⟨name, -, rfl⟩ := List.mem_map.1 hp
    exact Ty.forall_literal.2 trivial

theorem names_lookups {names : List String} :
    (Ty.union (names.map (Ty.lookup map))).Forall (Names t map known) ↔ ∀ m ∈ names, known m := by
  simp [Names]

/-- What the entry of a type looks up is known if the members of a union are. -/
theorem names_answerShape (hk : ∀ key, t.Declares key → known key) (map : AnswerMap) {n : Node} (hn : n ∈ t.nodes) :
    (answerShape t map n).Forall (Names t map.name known) ↔ ∀ m ∈ n.members, known m := by
  have hfields : ∀ fields : List Field, ∀ q ∈ fields.map fun f => answerProperty t map f.name f.type,
      q.type.Forall (Names t map.name known) := by
    intro fields q hq
    obtain ⟨f, -, rfl⟩ := List.mem_map.1 hq
    exact names_answerProperty hk map f.name f.type
  unfold answerShape Node.members
  cases hkind : n.kind with
  | object interfaces fields =>
    refine iff_of_true (Ty.forall_object.2 ⟨trivial, List.forall_mem_append.2 ⟨?_, hfields fields⟩⟩) (List.forall_mem_nil _)
    intro q hq
    split at hq
    · obtain rfl := List.mem_singleton.1 hq
      exact names_oneOf [n.name]
    · cases hq
  | interface fields =>
    refine iff_of_true ?_ (List.forall_mem_nil _)
    dsimp only
    split
    · exact Ty.forall_object.2 ⟨trivial, hfields fields⟩
    · refine names_lookups.2 fun m hm => ?_
      obtain ⟨o, ho, rfl⟩ := List.mem_map.1 hm
      exact hk _ (declares_implementor ho)
    · exact Ty.forall_object.2 ⟨trivial, List.forall_mem_cons.2 ⟨names_oneOf _, hfields fields⟩⟩
  | union members => exact names_lookups
  | enum values => exact iff_of_true (names_enum hn hkind) (List.forall_mem_nil _)
  | input fields =>
    refine iff_of_true (Ty.forall_object.2 ⟨trivial, fun q hq => ?_⟩) (List.forall_mem_nil _)
    obtain ⟨i, -, rfl⟩ := List.mem_map.1 hq
    exact names_answerProperty hk map i.name i.type
  | scalar =>
    refine iff_of_true ?_ (List.forall_mem_nil _)
    cases map with
    | model => exact Ty.forall_primitive.2 trivial
    | graphql => exact names_ref (c := '<') (by simp) (by decide)

/-! ## The modules -/

/-- The type maps with what they hold for a type. -/
def typeMaps (t : Tree) : List (String × (Node → Ty)) :=
  [(valueMap, valueType t), (AnswerMap.model.name, answerShape t .model), (AnswerMap.graphql.name, answerShape t .graphql)]

theorem names_entry (hk : ∀ key, t.Declares key → known key) {entry : Node → Ty} (he : (map, entry) ∈ typeMaps t) {n : Node}
    (hn : n ∈ t.nodes) : (entry n).Forall (Names t map known) ↔ ∀ m ∈ n.members, known m := by
  simp only [typeMaps, List.mem_cons, List.not_mem_nil, or_false, Prod.mk.injEq] at he
  rcases he with ⟨rfl, rfl⟩ | ⟨rfl, rfl⟩ | ⟨rfl, rfl⟩
  · exact names_valueType hk hn
  · exact names_answerShape hk .model hn
  · exact names_answerShape hk .graphql hn

theorem names_bare {entry : Node → Ty} (he : (map, entry) ∈ typeMaps t) {n : Node} (hn : n ∈ t.nodes) {text : String}
    (hr : .ref text ∈ (entry n).parts) (hq : needsQuotes text = false) :
    ∃ d ∈ t.nodes, d.name = text ∧ ∃ values, d.kind = .enum values := by
  have hnames : (entry n).Forall (Names t map fun _ => True) := (names_entry (fun _ _ => trivial) he hn).2 fun _ _ => trivial
  exact hnames _ hr hq

variable {o : Options} {host : Option String}

theorem interface_mem {name : String} {properties : List (Property Ty)} :
    .interface name properties ∈ (indexModule t o host).types ↔
      ∃ entry, (name, entry) ∈ typeMaps t ∧ properties = t.nodes.map fun n => ⟨n.name, false, entry n⟩ := by
  have henum : .interface name properties ∉ t.nodes.filterMap (enumOf o.constEnums) := by
    intro h
    obtain ⟨n, -, he⟩ := List.mem_filterMap.1 h
    unfold enumOf at he
    split at he <;> cases he
  simp only [indexModule, List.mem_append, henum, false_or, List.mem_cons, List.not_mem_nil, or_false, typeMap,
    TypeDef.interface.injEq, typeMaps, Prod.mk.injEq]
  constructor
  · rintro (⟨hn, hp⟩ | ⟨hn, hp⟩ | ⟨hn, hp⟩)
    · exact ⟨_, .inl ⟨hn, rfl⟩, hp⟩
    · exact ⟨_, .inr (.inl ⟨hn, rfl⟩), hp⟩
    · exact ⟨_, .inr (.inr ⟨hn, rfl⟩), hp⟩
  · rintro ⟨entry, ⟨hn, rfl⟩ | ⟨hn, rfl⟩ | ⟨hn, rfl⟩, hp⟩
    · exact .inl ⟨hn, hp⟩
    · exact .inr (.inl ⟨hn, hp⟩)
    · exact .inr (.inr ⟨hn, hp⟩)

theorem enum_mem {n : Node} {values : List EnumValue} (hn : n ∈ t.nodes) (hk : n.kind = .enum values) :
    ∃ members isConst, .enum n.name members isConst ∈ (indexModule t o host).types := by
  refine ⟨values.map fun v => (v.name, v.name), o.constEnums, List.mem_append_left _ ?_⟩
  exact List.mem_filterMap.2 ⟨n, hn, by simp [enumOf, hk]⟩

/-- A type map has a property for each declared name. -/
theorem property_iff {entry : Node → Ty} {key : String} :
    (∃ q ∈ t.nodes.map fun n => (⟨n.name, false, entry n⟩ : Property Ty), q.name = key) ↔ t.Declares key := by
  simp [Tree.Declares]

theorem constantTexts_operations (t : Tree) : constantTexts (constantsModule t) "Ops" = t.roots.toList.map Prod.snd := by
  simp [constantTexts, constantsModule, propsMap, returnsMap, operationsMap, Expr.constString, textOf?,
    List.filterMap_map, Function.comp_def]

/-- The lookups in the type maps find what they look for just if the members of all unions are declared, the enums
that are named are always there, and the operations start from types that are found in the map of selections just if these
are declared. -/
theorem lookups_resolve_iff (t : Tree) (o : Options) (host : Option String) :
    (LookupsResolve (indexModule t o host) ↔ ∀ n ∈ t.nodes, ∀ m ∈ n.members, t.Declares m) ∧
      NamesResolve (indexModule t o host) ∧
        (OperationsResolve (constantsModule t) (indexModule t o host) ↔ ∀ root ∈ t.roots.toList, t.Declares root.2) := by
  have hentry : (valueMap, valueType t) ∈ typeMaps t := List.mem_cons_self
  have hvalues : .interface valueMap (t.nodes.map fun n => ⟨n.name, false, valueType t n⟩) ∈ (indexModule t o host).types :=
    interface_mem.2 ⟨valueType t, hentry, rfl⟩
  refine ⟨⟨?_, ?_⟩, ?_, ?_⟩
  · intro h n hn
    refine (names_valueType (fun _ hd => hd) hn).1 fun part hpart => ?_
    cases part with
    | lookup m key =>
      obtain ⟨hm, hq⟩ := h _ _ hvalues _ (List.mem_map_of_mem hn) m key hpart
      exact ⟨hm, property_iff.1 hq⟩
    | ref text => exact fun hq => names_bare hentry hn hpart hq
    | _ => trivial
  · rintro h name _ hi p hp map key hl
    obtain ⟨entry, he, rfl⟩ := interface_mem.1 hi
    obtain ⟨n, hn, rfl⟩ := List.mem_map.1 hp
    rw [property_iff]
    exact (names_entry (fun _ hd => hd) he hn).2 (h n hn) _ hl
  · rintro name _ hi p hp text hr hq
    obtain ⟨entry, he, rfl⟩ := interface_mem.1 hi
    obtain ⟨n, hn, rfl⟩ := List.mem_map.1 hp
    obtain ⟨d, hd, rfl, values, hk⟩ := names_bare he hn hr hq
    exact enum_mem hd hk
  · rw [OperationsResolve, constantTexts_operations, List.forall_mem_map]
    refine forall₂_congr fun root _ => ⟨fun h => property_iff.1 (h _ hvalues), fun h properties hi => ?_⟩
    obtain ⟨entry, -, rfl⟩ := interface_mem.1 hi
    exact property_iff.2 h

end GraphqlCodegen.Bindings
