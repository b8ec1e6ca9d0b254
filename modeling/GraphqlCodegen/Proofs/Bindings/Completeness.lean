import GraphqlCodegen.Proofs.Bindings.Lookups
import GraphqlCodegen.Proofs.Bindings.Nullability
import GraphqlCodegen.Proofs.Schema.Spelling
import GraphqlCodegen.Proofs.Script.Grammar

/-!
# Complete types

The type maps are written well, part by part (`written_entry`): what is put beside a type makes no empty union, all
keys and literals are made of names, and the words that are taken over from the schema are names of enums. Two things can still
go wrong. A union without members has an empty union as its answer, which is no type, and an enum may have a name that
no type can have. Nothing else does (`types_complete_iff`).
-/

namespace GraphqlCodegen.Bindings

open GraphqlCodegen.Schema GraphqlCodegen.Script

/-! ## Names -/

section

variable {name : String} (h : Sdl.Lexer.isNameText name = true)
include h

/-- Names are identifiers. -/
theorem identifier_of_name : IsIdentifierName name.toList := by
  have hstart : ∀ c, Sdl.Lexer.isNameStart c = true → isKeyStart c = true := fun c hc => by
    simp only [Sdl.Lexer.isNameStart, Bool.or_eq_true] at hc
    simp only [isKeyStart, Bool.or_eq_true, hc, true_or]
  have hchar : ∀ c, Sdl.Lexer.isNameChar c = true → isKeyChar c = true := fun c hc => by
    simp only [Sdl.Lexer.isNameChar, Bool.or_eq_true] at hc
    simp only [isKeyChar, Bool.or_eq_true, hc, true_or]
  rw [← needsQuotes_eq_false_iff, needsQuotes]
  unfold Sdl.Lexer.isNameText at h
  cases hcs : name.toList with
  | nil => rw [hcs] at h; cases h
  | cons c cs =>
    rw [hcs] at h
    obtain ⟨hc, hall⟩ := Bool.and_eq_true_iff.1 h
    have hkeys : cs.all isKeyChar = true := List.all_eq_true.2 fun x hx => hchar x (List.all_eq_true.1 hall x hx)
    have hkey : isKeyChar c = true := (isKeyChar_iff c).2 (.inl ((isKeyStart_iff c).1 (hstart c hc)))
    simp [hstart c hc, hkey, hkeys]

theorem isKey_name : IsKey (keyText name) := isKey_keyText (not_hasLineEnd_identifier (identifier_of_name h))

theorem isKey_fragment : IsKey (keyText (fragmentKey name)) := by
  refine isKey_keyText ?_
  rintro ⟨c, hc, hend⟩
  rw [fragmentKey, String.toList_append, List.mem_append] at hc
  rcases hc with hc | hc
  · have hfront : ∀ c ∈ "...on ".toList, endsLiteral c = false := by simp [endsLiteral]
    rw [hfront c hc] at hend
    cases hend
  · exact not_hasLineEnd_identifier (identifier_of_name h) ⟨c, hc, hend⟩

end

/-! ## What is written -/

/-- The words that the type maps take over fit as types: those that are always the same, those that tag a scalar, and the names of
enums, which stand in front of brackets too. -/
structure Fits (t : Tree) (fits : Tightness → String → Prop) : Prop where
  selections : fits .union "boolean | \x60@$\x7bstring\x7d\x60"
  inputs : fits .union "Variable<any, string>"
  tags : ∀ n ∈ t.nodes, fits .union ("ScalarTag<\"" ++ n.name ++ "\">")
  enums : ∀ n ∈ t.nodes, ∀ values, n.kind = .enum values → ∀ tightness, fits tightness n.name

section

variable {fits : Tightness → String → Prop}

theorem written_or {a b : Ty} (ha : a.Forall (Ty.Written fits)) (hb : b.Forall (Ty.Written fits)) :
    (a.or b).Forall (Ty.Written fits) := by
  have hmembers : ∀ {c : Ty}, c.Forall (Ty.Written fits) → c.members ≠ [] ∧ ∀ m ∈ c.members, m.Forall (Ty.Written fits) := by
    intro c hc
    cases c with
    | union ms => exact Ty.forall_union.1 hc
    | _ => exact ⟨List.cons_ne_nil _ _, List.forall_mem_singleton.2 hc⟩
  refine Ty.forall_union.2 ⟨?_, List.forall_mem_append.2 ⟨(hmembers ha).2, (hmembers hb).2⟩⟩
  exact List.append_ne_nil_of_left_ne_nil (hmembers ha).1 _

theorem written_allowing {a : Ty} (ha : a.Forall (Ty.Written fits)) (extra : List Primitive) :
    (allowing a extra).Forall (Ty.Written fits) := by
  induction extra generalizing a with
  | nil => exact ha
  | cons p ps ih => exact ih (written_or ha (Ty.forall_primitive.2 trivial))

/-- A type that fits in front of brackets. -/
def Fitting (fits : Tightness → String → Prop) (a : Ty) : Prop := a.Forall (Ty.Written fits) ∧ a.Tight fits

/-- If the bases are written well, so is what lists and non-null wrappers make of them. -/
theorem Wraps.fitting {lax strict : TypeRef → Ty} {p : Primitive} {ps : List Primitive} (h : Wraps lax strict (p :: ps))
    (hbase : ∀ name, Fitting fits (strict (.named name))) (r : TypeRef) : Fitting fits (lax r) ∧ Fitting fits (strict r) := by
  have hlax : ∀ {r : TypeRef}, r.isNonNull = false → Fitting fits (strict r) → Fitting fits (lax r) := fun {r} hr hs =>
    ⟨h.lax_nullable r hr ▸ written_allowing hs.1 _, Ty.Tight.of_isUnion (by rw [h.isUnion_lax, hr]; rfl)⟩
  induction r with
  | named name => exact ⟨hlax rfl (hbase name), hbase name⟩
  | list item ih =>
    have hlist : Fitting fits (strict (.list item)) := by
      rw [h.strict_list]
      exact ⟨Ty.forall_array.2 ⟨ih.1.2, ih.1.1⟩, nofun⟩
    exact ⟨hlax rfl hlist, hlist⟩
  | nonNull inner ih =>
    rw [h.lax_nonNull, h.strict_nonNull]
    exact ⟨ih.2, ih.2⟩

theorem fitting_primitive (p : Primitive) : Fitting fits (.primitive p) := ⟨Ty.forall_primitive.2 trivial, nofun⟩

theorem fitting_builtin {name : String} {b : Ty} (h : builtinType name = some b) : Fitting fits b := by
  unfold builtinType at h
  split at h <;> cases h <;> exact fitting_primitive _

theorem fitting_lookup {map name : String} (hmap : IsTypeWord map) (h : Sdl.Lexer.isNameText name = true) :
    Fitting fits (.lookup map name) :=
  ⟨Ty.forall_lookup.2 ⟨hmap, isLiteral_identifier (identifier_of_name h)⟩, nofun⟩

theorem isTypeWord_valueMap : IsTypeWord valueMap := by decide +kernel

theorem isTypeWord_answerMap (map : AnswerMap) : IsTypeWord map.name := by
  cases map <;> decide +kernel

end

/-! ## Properties -/

/-- A property with a key, and with a type that is written well. -/
def Property.Written (fits : Tightness → String → Prop) (q : Property Ty) : Prop :=
  IsKey (keyText q.name) ∧ q.type.Forall (Ty.Written fits)

theorem written_object {fits : Tightness → String → Prop} {properties : List (Property Ty)}
    (h : ∀ q ∈ properties, Property.Written fits q) : (Ty.object properties).Forall (Ty.Written fits) :=
  Ty.forall_object.2 ⟨fun q hq => (h q hq).1, fun q hq => (h q hq).2⟩

theorem written_aliased {fits : Tightness → String → Prop} {properties : List (Property Ty)}
    (h : ∀ q ∈ properties, Property.Written fits q) : (aliased properties).Forall (Ty.Written fits) := by
  have halias : IsTypeWord "AliasType" := by decide +kernel
  exact Ty.forall_apply.2 ⟨halias, written_object h⟩

theorem written_fragment {fits : Tightness → String → Prop} {member : String} (h : Sdl.Lexer.isNameText member = true) :
    Property.Written fits (fragmentProperty member) :=
  ⟨isKey_fragment h, (fitting_lookup isTypeWord_valueMap h).1⟩

theorem written_typename {fits : Tightness → String → Prop} {names : List String} (hne : names ≠ [])
    (h : ∀ name ∈ names, Sdl.Lexer.isNameText name = true) : Property.Written fits (typenameProperty names) := by
  have hliteral : ∀ name ∈ names, (Ty.literal name).Forall (Ty.Written fits) := fun name hn =>
    Ty.forall_literal.2 (isLiteral_quoted (not_hasLineEnd_identifier (identifier_of_name (h name hn))))
  refine ⟨@isKey_name "__typename" (by decide +kernel), ?_⟩
  rw [typenameProperty]
  unfold oneOf
  split
  · exact hliteral _ List.mem_cons_self
  · exact Ty.forall_union.2 ⟨List.map_eq_nil_iff.not.2 hne, List.forall_mem_map.2 hliteral⟩

section

variable {t : Tree} {fits : Tightness → String → Prop}

theorem fitting_inputType (hs : ∀ n ∈ t.nodes, n.Spelled) (r : TypeRef) : Fitting fits (inputType t r) := by
  refine ((wraps_inputType t).fitting (fun name => ?_) r).1
  rw [strictInputType]
  split
  · rename_i b hb
    exact fitting_builtin hb
  · split
    · rename_i n hn
      obtain ⟨hmem, rfl⟩ := Tree.of_get? hn
      split
      · exact fitting_lookup isTypeWord_valueMap (hs n hmem).name
      · exact fitting_lookup isTypeWord_valueMap (hs n hmem).name
      · exact fitting_primitive _
    · exact fitting_primitive _

variable (hs : ∀ n ∈ t.nodes, n.Spelled) (hf : Fits t fits)
include hs hf

theorem written_inputProperty {i : InputValue} (h : Sdl.Lexer.isNameText i.name = true) :
    Property.Written fits (inputProperty t i) :=
  ⟨isKey_name h, written_or (fitting_inputType hs i.type).1 (Ty.forall_ref.2 hf.inputs)⟩

theorem written_bareSelection (f : Field) : (bareSelection t f).Forall (Ty.Written fits) := by
  rw [bareSelection]
  split
  · exact Ty.forall_ref.2 hf.selections
  · rename_i hleaf
    cases hn : t.get? f.type.baseName with
    | none => simp [isLeaf, hn] at hleaf
    | some n =>
      obtain ⟨hmem, hname⟩ := Tree.of_get? hn
      exact (fitting_lookup isTypeWord_valueMap (hname ▸ (hs n hmem).name)).1

theorem written_selectionProperty {f : Field} (hname : Sdl.Lexer.isNameText f.name = true)
    (hargs : ∀ a ∈ f.args, Sdl.Lexer.isNameText a.name = true) : Property.Written fits (selectionProperty t f) := by
  have hbare := written_bareSelection hs hf f
  have harguments : (Ty.object (f.args.map (inputProperty t))).Forall (Ty.Written fits) :=
    written_object (List.forall_mem_map.2 fun a ha => written_inputProperty hs hf (hargs a ha))
  have hpair : (Ty.tuple [.object (f.args.map (inputProperty t)), bareSelection t f]).Forall (Ty.Written fits) :=
    Ty.forall_tuple.2 ⟨trivial, List.forall_mem_cons.2 ⟨harguments, List.forall_mem_singleton.2 hbare⟩⟩
  refine ⟨isKey_name hname, ?_⟩
  rw [selectionProperty]
  split
  · exact hbare
  · split
    · exact written_or hpair hbare
    · exact hpair

theorem fitting_answerType (map : AnswerMap) (r : TypeRef) : Fitting fits (answerType t map r) := by
  refine ((wraps_answerType t map).fitting (fun name => ?_) r).1
  rw [strictAnswerType]
  split
  · rename_i b hb
    exact fitting_builtin hb
  · split
    · rename_i n hn
      obtain ⟨hmem, rfl⟩ := Tree.of_get? hn
      split
      · rename_i values hk
        refine ⟨Ty.forall_ref.2 (hf.enums n hmem values hk _), fun text htext => ?_⟩
        cases htext
        exact hf.enums n hmem values hk _
      · exact fitting_lookup (isTypeWord_answerMap map) (hs n hmem).name
    · exact fitting_primitive _

theorem written_answerProperty (map : AnswerMap) {name : String} (h : Sdl.Lexer.isNameText name = true) (type : TypeRef) :
    Property.Written fits (answerProperty t map name type) :=
  ⟨isKey_name h, (fitting_answerType hs hf map type).1⟩

/-! ## Entries -/

theorem written_valueType {n : Node} (hn : n ∈ t.nodes) : (valueType t n).Forall (Ty.Written fits) := by
  obtain ⟨-, hfields, harguments, hinputs, hmembers⟩ := hs n hn
  rw [Node.fields] at hfields harguments
  rw [Node.inputs] at hinputs
  rw [Node.members] at hmembers
  have hselections : ∀ fields : List Field, (∀ f ∈ fields, Sdl.Lexer.isNameText f.name = true) →
      (∀ f ∈ fields, ∀ a ∈ f.args, Sdl.Lexer.isNameText a.name = true) →
      ∀ q ∈ fields.map (selectionProperty t), Property.Written fits q := fun fields hnames hargs =>
    List.forall_mem_map.2 fun f hm => written_selectionProperty hs hf (hnames f hm) (hargs f hm)
  rw [valueType]
  cases hk : n.kind with
  | object interfaces fields =>
    rw [hk] at hfields harguments
    exact written_aliased (hselections fields hfields harguments)
  | interface fields =>
    rw [hk] at hfields harguments
    have hfragments : ∀ q ∈ (t.implementors n.name).map fun o => fragmentProperty o.name, Property.Written fits q :=
      List.forall_mem_map.2 fun o ho => written_fragment (hs o (List.mem_of_mem_filter ho)).name
    exact written_aliased (List.forall_mem_append.2 ⟨hselections fields hfields harguments, hfragments⟩)
  | union members =>
    rw [hk] at hmembers
    exact written_aliased (List.forall_mem_map.2 fun m hm => written_fragment (hmembers m hm))
  | enum values => exact Ty.forall_ref.2 (hf.enums n hn values hk _)
  | input inputs =>
    rw [hk] at hinputs
    exact written_object (List.forall_mem_map.2 fun i hi => written_inputProperty hs hf (hinputs i hi))
  | scalar => exact Ty.forall_primitive.2 trivial

theorem written_answerShape (map : AnswerMap) {n : Node} (hn : n ∈ t.nodes) (hunion : n.kind ≠ .union []) :
    (answerShape t map n).Forall (Ty.Written fits) := by
  obtain ⟨hname, hfields, -, hinputs, hmembers⟩ := hs n hn
  rw [Node.fields] at hfields
  rw [Node.inputs] at hinputs
  rw [Node.members] at hmembers
  have hanswers : ∀ fields : List Field, (∀ f ∈ fields, Sdl.Lexer.isNameText f.name = true) →
      ∀ q ∈ fields.map fun f => answerProperty t map f.name f.type, Property.Written fits q := fun fields hnames =>
    List.forall_mem_map.2 fun f hm => written_answerProperty hs hf map (hnames f hm) f.type
  have hlookups : ∀ names : List String, names ≠ [] → (∀ m ∈ names, Sdl.Lexer.isNameText m = true) →
      (Ty.union (names.map (.lookup map.name))).Forall (Ty.Written fits) := fun names hne hnames =>
    Ty.forall_union.2 ⟨List.map_eq_nil_iff.not.2 hne,
      List.forall_mem_map.2 fun m hm => (fitting_lookup (isTypeWord_answerMap map) (hnames m hm)).1⟩
  unfold answerShape
  cases hk : n.kind with
  | object interfaces fields =>
    rw [hk] at hfields
    refine written_object (List.forall_mem_append.2 ⟨?_, hanswers fields hfields⟩)
    split
    · exact List.forall_mem_singleton.2 (written_typename (by simp) (by simpa using hname))
    · exact List.forall_mem_nil _
  | interface fields =>
    rw [hk] at hfields
    have hnames : ∀ m ∈ (t.implementors n.name).map Node.name, Sdl.Lexer.isNameText m = true :=
      List.forall_mem_map.2 fun o ho => (hs o (List.mem_of_mem_filter ho)).name
    dsimp only
    split
    · exact written_object (hanswers fields hfields)
    · rename_i hne
      exact hlookups _ hne hnames
    · rename_i hne
      exact written_object (List.forall_mem_cons.2 ⟨written_typename hne hnames, hanswers fields hfields⟩)
  | union members =>
    rw [hk] at hmembers hunion
    exact hlookups members (fun h => hunion (h ▸ rfl)) hmembers
  | enum values => exact Ty.forall_ref.2 (hf.enums n hn values hk _)
  | input inputs =>
    rw [hk] at hinputs
    exact written_object (List.forall_mem_map.2 fun i hi => written_answerProperty hs hf map (hinputs i hi) i.type)
  | scalar =>
    cases map with
    | model => exact Ty.forall_primitive.2 trivial
    | graphql => exact Ty.forall_ref.2 (hf.tags n hn)

theorem written_entry {map : String} {entry : Node → Ty} (he : (map, entry) ∈ typeMaps t) {n : Node} (hn : n ∈ t.nodes)
    (hunion : n.kind ≠ .union []) : (entry n).Forall (Ty.Written fits) := by
  simp only [typeMaps, List.mem_cons, List.not_mem_nil, or_false, Prod.mk.injEq] at he
  rcases he with ⟨rfl, rfl⟩ | ⟨rfl, rfl⟩ | ⟨rfl, rfl⟩
  · exact written_valueType hs hf hn
  · exact written_answerShape hs hf .model hn hunion
  · exact written_answerShape hs hf .graphql hn hunion

end

/-! ## Words that fit -/

theorem fits_any (t : Tree) : Fits t fun _ _ => True := by
  constructor <;> intros <;> trivial

/-- All words are types if enums have names that types may have. -/
theorem fits_isType {t : Tree} (hs : ∀ n ∈ t.nodes, n.Spelled)
    (henums : ∀ n ∈ t.nodes, ∀ values, n.kind = .enum values → n.name ∉ wordsBesideTypes) : Fits t IsType where
  selections := by
    have hstring : IsType .union "string" := .operand (.word (by decide +kernel))
    have hboolean : IsType .union "boolean" := .operand (.word (by decide +kernel))
    have halias : IsType .operand ("\x60" ++ "@" ++ "$\x7b" ++ "string" ++ "\x7d" ++ "" ++ "\x60") :=
      .template (by decide) hstring (by decide)
    exact .or hboolean (.operand halias)
  inputs := by
    have hany : IsType .union "any" := .operand (.word (by decide +kernel))
    have hstring : IsType .union "string" := .operand (.word (by decide +kernel))
    have hgeneric : IsTypeWord "Variable" := by decide +kernel
    have hall : ∀ text ∈ ["any", "string"], IsType .union text :=
      List.forall_mem_cons.2 ⟨hany, List.forall_mem_singleton.2 hstring⟩
    exact .operand (.apply hgeneric (List.cons_ne_nil _ _) hall)
  tags n hn := by
    have hname : IsType .union ("\"" ++ n.name ++ "\"") :=
      .operand (.literal (isLiteral_identifier (identifier_of_name (hs n hn).name)))
    have hgeneric : IsTypeWord "ScalarTag" := by decide +kernel
    have htag := IsType.apply hgeneric (List.cons_ne_nil _ _) (List.forall_mem_singleton.2 hname)
    rw [Text.joined, ← String.append_assoc, ← String.append_assoc, String.append_assoc] at htag
    exact .operand htag
  enums n hn values hk tightness := by
    have hword : IsType .operand n.name := .word ⟨identifier_of_name (hs n hn).name, henums n hn values hk⟩
    cases tightness with
    | operand => exact hword
    | union => exact .operand hword

/-! ## The modules -/

/-- Something holds of the type of every property of the type maps. -/
def EveryType (P : Ty → Prop) (m : Module) : Prop :=
  ∀ map properties, .interface map properties ∈ m.types → ∀ p ∈ properties, P p.type

theorem everyType_iff {P : Ty → Prop} {t : Tree} {o : Options} {host : Option String} :
    EveryType P (indexModule t o host) ↔ ∀ map entry, (map, entry) ∈ typeMaps t → ∀ n ∈ t.nodes, P (entry n) := by
  constructor
  · intro h map entry he n hn
    exact h map _ (interface_mem.2 ⟨entry, he, rfl⟩) ⟨n.name, false, entry n⟩ (List.mem_map_of_mem hn)
  · rintro h map _ hi p hp
    obtain ⟨entry, he, rfl⟩ := interface_mem.1 hi
    obtain ⟨n, hn, rfl⟩ := List.mem_map.1 hp
    exact h map entry he n hn

/-- For every schema text, all unions inside the type maps have members just if those of the schema do, and all properties have
a text that is a type just if besides no enum has a name that no type can have. -/
theorem types_complete_iff {text : String} {t : Tree} (ht : readSchema text = .ok t) (o : Options) (host : Option String) :
    (EveryType (Ty.Forall Ty.HasMembers) (indexModule t o host) ↔ ∀ n ∈ t.nodes, n.kind ≠ .union []) ∧
    (EveryType (fun type => IsType .union type.text) (indexModule t o host) ↔ ∀ n ∈ t.nodes, n.kind ≠ .union [] ∧
      ∀ values, n.kind = .enum values → n.name ∉ wordsBesideTypes) := by
  have hs := Tree.spelled_of_readSchema ht
  have hanswer : (AnswerMap.model.name, answerShape t .model) ∈ typeMaps t := by simp [typeMaps]
  have hvalue : (valueMap, valueType t) ∈ typeMaps t := by simp [typeMaps]
  rw [everyType_iff, everyType_iff]
  refine ⟨⟨fun h n hn hk => ?_, fun h map entry he n hn => ?_⟩, ⟨fun h n hn => ⟨fun hk => ?_, fun values hk => ?_⟩, fun h => ?_⟩⟩
  · have hunion := h _ _ hanswer n hn
    rw [answerShape, hk] at hunion
    exact (Ty.forall_union.1 hunion).1 rfl
  · exact (written_entry hs (fits_any t) he hn (h n hn)).imp fun _ => Ty.Written.hasMembers
  · have hunion := h _ _ hanswer n hn
    rw [answerShape, hk] at hunion
    exact hunion.ne_empty rfl
  · have henum := h _ _ hvalue n hn
    rw [valueType, hk] at henum
    exact (IsType.word_iff (identifier_of_name (hs n hn).name)).1 henum
  · intro map entry he n hn
    exact (Ty.isType_text _ (written_entry hs (fits_isType hs fun n hn => (h n hn).2) he hn (h n hn).1)).1

/-- Of the plants of a garden none is known yet. -/
def bareGarden : String := "type Query { plant: Plant }\nunion Plant\n"

/-- An extension adds the first one. -/
def plantedGarden : String := bareGarden ++ "type Fern { id: ID }\nextend union Plant = Fern\nenum Season { SPRING }\n"

theorem types_complete_iff_garden : ∃ bare planted, readSchema bareGarden = .ok bare ∧ readSchema plantedGarden = .ok planted ∧
    ¬EveryType (Ty.Forall Ty.HasMembers)
      (indexModule bare ⟨none, "", [], .post, .browser, .commonJs, false, .legacy, none, none, false, false⟩ none) ∧
    EveryType (fun type => IsType .union type.text)
      (indexModule planted ⟨none, "", [], .post, .browser, .commonJs, false, .legacy, none, none, false, false⟩ none) := by
  have hbare : (readSchema bareGarden).toOption.map Tree.nodes = some [
      ⟨"Query", none, .object [] [⟨"plant", none, .named "Plant", []⟩]⟩, ⟨"Plant", none, .union []⟩] := by
    decide +kernel
  have hplanted : (readSchema plantedGarden).toOption.map Tree.nodes = some [
      ⟨"Query", none, .object [] [⟨"plant", none, .named "Plant", []⟩]⟩, ⟨"Plant", none, .union ["Fern"]⟩,
      ⟨"Fern", none, .object [] [⟨"id", none, .named "ID", []⟩]⟩, ⟨"Season", none, .enum [⟨"SPRING", none⟩]⟩] := by
    decide +kernel
  cases hb : readSchema bareGarden with
  | error e => rw [hb] at hbare; cases hbare
  | ok bare =>
    cases hp : readSchema plantedGarden with
    | error e => rw [hp] at hplanted; cases hplanted
    | ok planted =>
      rw [hb] at hbare
      rw [hp] at hplanted
      have hnodes : bare.nodes = _ := Option.some.inj hbare
      have hnodes' : planted.nodes = _ := Option.some.inj hplanted
      refine ⟨bare, planted, rfl, rfl, fun h => ?_, ?_⟩
      · exact (types_complete_iff hb _ none).1.1 h ⟨"Plant", none, .union []⟩ (by simp [hnodes]) rfl
      · refine (types_complete_iff hp _ none).2.2 ?_
        rw [hnodes']
        simp [wordsBesideTypes]

end GraphqlCodegen.Bindings
