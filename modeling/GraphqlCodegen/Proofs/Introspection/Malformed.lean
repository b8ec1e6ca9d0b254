import GraphqlCodegen.Proofs.Introspection.Meaning
import GraphqlCodegen.Proofs.Outcomes

/-!
# Descriptions that cannot be written

What can go wrong is that a wrapper is listed as a type, or that a reference is malformed: one of its wrappers wraps
nothing, or what is wrapped has no name. A schema cannot be written just if this happens in a type that is not skipped,
among the references that its kind is written with; whatever else is described may be left out without any effect
(`toSdl_error_iff`).
-/

namespace GraphqlCodegen.Introspection

/-! ## References -/

/-- A reference of this kind wraps another one. -/
def Kind.isWrapper : Kind → Bool
  | .list | .nonNull => true
  | _ => false

/-- Behind the wrappers of a reference there is nothing, or a named type without a name. -/
inductive TypeRef.Malformed : TypeRef → Prop
  | nothing {kind : Kind} {name : Option String} : kind.isWrapper = true → Malformed (.mk kind name none)
  | unnamed {kind : Kind} {ofType : Option TypeRef} : kind.isWrapper = false → Malformed (.mk kind none ofType)
  | inside {kind : Kind} {name : Option String} {inner : TypeRef} :
    kind.isWrapper = true → Malformed inner → Malformed (.mk kind name (some inner))

namespace TypeRef

variable {kind : Kind} {name : Option String} {inner : TypeRef}

theorem malformed_wrapper (h : kind.isWrapper = true) : (mk kind name (some inner)).Malformed ↔ inner.Malformed := by
  constructor
  · intro hm
    cases hm with
    | unnamed hk => rw [h] at hk; cases hk
    | inside _ hi => exact hi
  · exact .inside h

theorem malformed_named {ofType : Option TypeRef} (h : kind.isWrapper = false) :
    (mk kind name ofType).Malformed ↔ name = none := by
  constructor
  · intro hm
    cases hm with
    | nothing hk => rw [h] at hk; cases hk
    | unnamed _ => rfl
    | inside hk _ => rw [h] at hk; cases hk
  · rintro rfl
    exact .unnamed h

/-- A reference that is no wrapper around something, and no wrapper around nothing either, is no wrapper. -/
theorem isWrapper_eq_false {ofType : Option TypeRef} (hn : ∀ inner, kind = .nonNull → ofType = some inner → False)
    (hn' : kind = .nonNull → ofType = none → False) (hl : ∀ inner, kind = .list → ofType = some inner → False)
    (hl' : kind = .list → ofType = none → False) : kind.isWrapper = false := by
  cases kind with
  | nonNull => cases ofType with
    | none => exact (hn' rfl rfl).elim
    | some inner => exact (hn inner rfl rfl).elim
  | list => cases ofType with
    | none => exact (hl' rfl rfl).elim
    | some inner => exact (hl inner rfl rfl).elim
  | _ => rfl

theorem succeeds_text (r : TypeRef) : Succeeds r.text ↔ ¬r.Malformed := by
  fun_induction text r with
  | case1 name inner ih => rw [succeeds_map, ih, malformed_wrapper rfl]
  | case2 name => exact iff_of_false (not_succeeds_error _) (not_not_intro (.nothing rfl))
  | case3 name inner ih => rw [succeeds_map, ih, malformed_wrapper rfl]
  | case4 name => exact iff_of_false (not_succeeds_error _) (not_not_intro (.nothing rfl))
  | case5 kind name ofType hn hn' hl hl' =>
    rw [malformed_named (isWrapper_eq_false hn hn' hl hl')]
    exact iff_of_true (succeeds_ok name) (Option.some_ne_none name)
  | case6 kind ofType hn hn' hl hl' =>
    rw [malformed_named (isWrapper_eq_false hn hn' hl hl')]
    exact iff_of_false (not_succeeds_error _) (not_not_intro rfl)

end TypeRef

/-- The references that a field is written with. -/
def Field.references (f : Field) : List TypeRef := f.type :: f.args.map InputValue.type

/-- The references that a type of its kind is written with. -/
def FullType.references (t : FullType) : List TypeRef :=
  match t.kind with
  | .object | .interface => t.interfaces.getD [] ++ (t.fields.getD []).flatMap Field.references
  | .union => t.possibleTypes.getD []
  | .inputObject => (t.inputFields.getD []).map InputValue.type
  | .scalar | .enum | .list | .nonNull => []

/-! ## Parts of types -/

theorem InputValue.succeeds_text (v : InputValue) : Succeeds v.text ↔ Succeeds v.type.text := succeeds_map

theorem succeeds_argumentsText (args : List InputValue) :
    Succeeds (argumentsText args) ↔ ∀ r ∈ args.map InputValue.type, Succeeds r.text := by
  unfold argumentsText
  split
  · rename_i h
    simp [List.isEmpty_iff.1 h]
  · rw [succeeds_map, succeeds_mapM, List.forall_mem_map]
    exact forall₂_congr fun v _ => v.succeeds_text

theorem Field.succeeds_text (f : Field) : Succeeds f.text ↔ ∀ r ∈ f.references, Succeeds r.text := by
  rw [Field.text, succeeds_bind fun _ => succeeds_map, succeeds_argumentsText, references, List.forall_mem_cons, and_comm]

theorem succeeds_inputFieldText (v : InputValue) : Succeeds (inputFieldText v) ↔ Succeeds v.type.text :=
  succeeds_map.trans v.succeeds_text

theorem succeeds_implementsText (interfaces : List TypeRef) :
    Succeeds (implementsText interfaces) ↔ ∀ r ∈ interfaces, Succeeds r.text :=
  succeeds_map.trans succeeds_mapM

/-- An object or an interface. -/
theorem succeeds_fieldsText (interfaces : List TypeRef) (fields : List Field) (k : String → List String → String) :
    Succeeds (do return k (← implementsText interfaces) (← fields.mapM Field.text)) ↔
      ∀ r ∈ interfaces ++ fields.flatMap Field.references, Succeeds r.text := by
  rw [succeeds_bind fun _ => succeeds_map, succeeds_implementsText, succeeds_mapM, List.forall_mem_append,
    List.forall_mem_flatMap]
  exact and_congr_right fun _ => forall₂_congr fun f _ => f.succeeds_text

namespace FullType

/-- The type is listed though it is a wrapper, or one of the references it is written with is malformed. -/
def Malformed (t : FullType) : Prop := t.kind.isWrapper = true ∨ ∃ r ∈ t.references, r.Malformed

theorem succeeds_text (t : FullType) : Succeeds t.text ↔ ¬t.Malformed := by
  have href : ∀ refs : List TypeRef, (∀ r ∈ refs, Succeeds r.text) ↔ ¬∃ r ∈ refs, r.Malformed := fun refs => by
    simp only [TypeRef.succeeds_text, not_exists, not_and]
  rw [text, Malformed, not_or, references]
  cases t.kind with
  | scalar | enum => simp [Kind.isWrapper]
  | object | interface =>
    simp only [pure_bind]
    rw [succeeds_fieldsText, href]
    simp [Kind.isWrapper]
  | union =>
    simp only [pure_bind]
    rw [succeeds_map, succeeds_mapM, href]
    simp [Kind.isWrapper]
  | inputObject =>
    simp only [pure_bind]
    rw [succeeds_map, succeeds_mapM, ← href, List.forall_mem_map]
    simp [Kind.isWrapper, succeeds_inputFieldText]
  | list | nonNull => exact iff_of_false (not_succeeds_error _) fun h => h.1 rfl

end FullType

/-! ## Schemas -/

namespace FullType

/-- The type is not written: it belongs to the introspection system, or it is a built-in scalar. -/
def IsSkipped (t : FullType) : Prop :=
  "__".toList <+: t.name.toList ∨ t.kind = .scalar ∧ t.name ∈ GraphqlCodegen.Schema.builtinScalars

theorem isPrinted_iff (t : FullType) : t.isPrinted = true ↔ ¬t.IsSkipped := by
  simp only [isPrinted, IsSkipped, Bool.not_eq_true', ← Bool.not_eq_true, Bool.or_eq_true, Bool.and_eq_true,
    decide_eq_true_eq, List.isPrefixOf_iff_prefix, List.contains_iff_mem]

/-- The type without the lists that a type of its kind is written without. -/
def pruned (t : FullType) : FullType :=
  match t.kind with
  | .object | .interface => { t with inputFields := none, enumValues := none, possibleTypes := none }
  | .union => { t with fields := none, inputFields := none, interfaces := none, enumValues := none }
  | .enum => { t with fields := none, inputFields := none, interfaces := none, possibleTypes := none }
  | .inputObject => { t with fields := none, interfaces := none, enumValues := none, possibleTypes := none }
  | .scalar | .list | .nonNull =>
    { t with fields := none, inputFields := none, interfaces := none, enumValues := none, possibleTypes := none }

theorem text_pruned (t : FullType) : t.pruned.text = t.text := by
  obtain ⟨kind, name, description, fields, inputFields, interfaces, enumValues, possibleTypes⟩ := t
  cases kind <;> rfl

theorem isPrinted_pruned (t : FullType) : t.pruned.isPrinted = t.isPrinted := by
  obtain ⟨kind, name, description, fields, inputFields, interfaces, enumValues, possibleTypes⟩ := t
  cases kind <;> rfl

end FullType

namespace Schema

/-- The schema without the types that are not written, and without the lists that the others are written without. -/
def pruned (s : Schema) : Schema := { s with types := s.printed.map FullType.pruned }

theorem toSdl_pruned (s : Schema) : s.pruned.toSdl = s.toSdl := by
  have hprinted : s.pruned.types.filter FullType.isPrinted = s.printed.map FullType.pruned := by
    rw [pruned, List.filter_map, List.filter_eq_self.2]
    exact fun t ht => t.isPrinted_pruned.trans (List.mem_filter.1 ht).2
  have htexts : (s.printed.map FullType.pruned).mapM FullType.text = s.printed.mapM FullType.text := by
    rw [List.mapM_map, show FullType.text ∘ FullType.pruned = FullType.text from funext FullType.text_pruned]
  rw [toSdl, toSdl, hprinted, htexts]
  rfl

/-- A schema cannot be written just if one of the types that are not skipped is malformed. All that is skipped may be
left out, and so may the lists that a type's kind is written without: the text is the same, or the error. -/
theorem toSdl_error_iff (s : Schema) :
    ((∃ e, s.toSdl = .error e) ↔ ∃ t ∈ s.types, ¬t.IsSkipped ∧ t.Malformed) ∧ s.pruned.toSdl = s.toSdl := by
  refine ⟨?_, s.toSdl_pruned⟩
  rw [← not_succeeds_iff, toSdl, succeeds_map, succeeds_mapM]
  simp only [List.mem_filter, FullType.isPrinted_iff, FullType.succeeds_text, and_imp]
  simp only [Classical.not_forall, Classical.not_not, exists_prop]

end Schema
end GraphqlCodegen.Introspection
