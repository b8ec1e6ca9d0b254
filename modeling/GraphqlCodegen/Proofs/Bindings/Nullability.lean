import GraphqlCodegen.Bindings.Types
import GraphqlCodegen.Script.Emit

/-!
# Nullability in the texts of types

The text of the type of an input or of an answer tells for the base and for each list around it whether it may be missing. A type
that may be missing is a union, which stands in parentheses as the item of a list; all other types of these kinds are no unions
and end as a list does or are the base itself (`strictText_cases`). So from the end of the text the wrappers can be taken off one
by one, and two references with one base have the same text just if they are the same up to a non-null wrapper directly inside
another (`text_eq_iff`).
-/

namespace GraphqlCodegen.Schema.TypeRef

/-- The reference inside one non-null wrapper. -/
def required : TypeRef → TypeRef
  | .nonNull inner => .nonNull inner
  | r => .nonNull r

/-- The reference without non-null wrappers directly inside others. -/
def collapsed : TypeRef → TypeRef
  | .named name => .named name
  | .list item => .list item.collapsed
  | .nonNull inner => inner.collapsed.required

@[simp] theorem required_required (r : TypeRef) : r.required.required = r.required := by
  cases r <;> rfl

theorem isNonNull_required (r : TypeRef) : r.required.isNonNull = true := by
  cases r <;> rfl

@[simp] theorem isNonNull_collapsed (r : TypeRef) : r.collapsed.isNonNull = r.isNonNull := by
  cases r with
  | named name => rfl
  | list item => rfl
  | nonNull inner => exact isNonNull_required _

theorem required_of_isNonNull {r : TypeRef} (h : r.isNonNull = true) : r.required = r := by
  cases r with
  | nonNull inner => rfl
  | named name => cases h
  | list item => cases h

/-- References that are both non-null, or both not, are told apart inside one more wrapper. -/
theorem required_inj {r r' : TypeRef} (hn : r.isNonNull = r'.isNonNull) : r.required = r'.required ↔ r = r' := by
  refine ⟨fun h => ?_, congrArg required⟩
  cases hr : r.isNonNull with
  | true => rwa [required_of_isNonNull hr, required_of_isNonNull (hn ▸ hr)] at h
  | false =>
    have hwrap : ∀ {r : TypeRef}, r.isNonNull = false → r.required = .nonNull r := by
      intro r h
      cases r <;> first | rfl | cases h
    rw [hwrap hr, hwrap (hn ▸ hr)] at h
    exact TypeRef.nonNull.inj h

end GraphqlCodegen.Schema.TypeRef

namespace GraphqlCodegen.Bindings

open GraphqlCodegen.Schema GraphqlCodegen.Script

/-! ## The text of a reference -/

section

variable (mark base : List Char)

/-- The text of a reference that is there, from the text of its base; the mark stands behind what may be missing. -/
def strictText : TypeRef → List Char
  | .named _ => base
  | .nonNull inner => strictText inner
  | .list item => (if item.isNonNull then strictText item else '(' :: (strictText item ++ mark ++ [')'])) ++ ['[', ']']

/-- The text of a reference. -/
def laxText (r : TypeRef) : List Char := if r.isNonNull then strictText mark base r else strictText mark base r ++ mark

variable {mark base}

theorem length_base_le (r : TypeRef) : base.length ≤ (strictText mark base r).length := by
  induction r with
  | named name => exact Nat.le_refl _
  | nonNull inner ih => exact ih
  | list item ih =>
    rw [strictText]
    split <;> simp <;> omega

theorem length_base_lt (item : TypeRef) : base.length < (strictText mark base (.list item)).length := by
  have hle := @length_base_le mark base item
  rw [strictText]
  split <;> simp <;> omega

/-- The text is that of the base, or a list is written last. -/
theorem strictText_cases (r : TypeRef) : strictText mark base r = base ∨ (strictText mark base r).getLast? = some ']' := by
  induction r with
  | named name => exact .inl rfl
  | nonNull inner ih => exact ih
  | list item _ => exact .inr (by simp [strictText])

/-- A text that is longer than the base and ends otherwise than a list is not that of a reference that is there. -/
theorem strictText_ne {cs : List Char} {c : Char} (hc : c ≠ ']') (hlength : base.length ≤ cs.length) (r : TypeRef) :
    strictText mark base r ≠ cs ++ [c] := by
  intro h
  rcases @strictText_cases mark base r with hbase | hlast
  · rw [hbase] at h
    rw [h, List.length_append, List.length_singleton] at hlength
    omega
  · rw [h, List.getLast?_concat] at hlast
    exact hc (Option.some.inj hlast)

/-- The text of the item of a list tells whether the item may be missing, and its text without that. -/
theorem item_inj {item item' : TypeRef}
    (h : strictText mark base (.list item) = strictText mark base (.list item')) :
    item.isNonNull = item'.isNonNull ∧ strictText mark base item = strictText mark base item' := by
  rw [strictText, strictText] at h
  have hitem := List.append_cancel_right h
  have hmixed : ∀ i i' : TypeRef, strictText mark base i ≠ '(' :: (strictText mark base i' ++ mark ++ [')']) := by
    intro i i'
    have hle := @length_base_le mark base i'
    have hlength : base.length ≤ ('(' :: (strictText mark base i' ++ mark)).length := by
      simp
      omega
    exact strictText_ne (by decide) hlength i
  cases hn : item.isNonNull <;> cases hn' : item'.isNonNull <;> rw [hn, hn'] at hitem
  · exact ⟨rfl, List.append_cancel_right (List.append_cancel_right (List.cons.inj hitem).2)⟩
  · exact absurd hitem.symm (hmixed _ _)
  · exact absurd hitem (hmixed _ _)
  · exact ⟨rfl, hitem⟩

/-- References with one text are the same, but that either may be non-null. -/
theorem strictText_inj : ∀ {r r' : TypeRef}, r.baseName = r'.baseName → strictText mark base r = strictText mark base r' →
    r.collapsed.required = r'.collapsed.required
  | .nonNull inner, r', hb, h => by
    rw [TypeRef.collapsed, TypeRef.required_required]
    exact strictText_inj (r := inner) hb h
  | .named name, .nonNull inner, hb, h => by
    rw [TypeRef.collapsed.eq_3, TypeRef.required_required]
    exact strictText_inj (r := .named name) hb h
  | .list item, .nonNull inner, hb, h => by
    rw [TypeRef.collapsed.eq_3, TypeRef.required_required]
    exact strictText_inj (r := .list item) hb h
  | .named name, .named name', hb, _ => by
    rw [show name = name' from hb]
  | .named name, .list item, _, h => absurd (congrArg List.length h) (Nat.ne_of_lt (length_base_lt item))
  | .list item, .named name, _, h => absurd (congrArg List.length h) (Nat.ne_of_gt (length_base_lt item))
  | .list item, .list item', hb, h => by
    obtain ⟨hn, hitem⟩ := item_inj h
    have hcollapsed : item.collapsed.required = item'.collapsed.required := strictText_inj hb hitem
    rw [TypeRef.required_inj (by simp [hn])] at hcollapsed
    rw [TypeRef.collapsed, TypeRef.collapsed, hcollapsed]

@[simp] theorem strictText_required (r : TypeRef) : strictText mark base r.required = strictText mark base r := by
  cases r <;> rfl

@[simp] theorem strictText_collapsed (r : TypeRef) : strictText mark base r.collapsed = strictText mark base r := by
  induction r with
  | named name => rfl
  | nonNull inner ih => rw [TypeRef.collapsed, strictText_required, ih, strictText]
  | list item ih => simp only [TypeRef.collapsed, strictText, TypeRef.isNonNull_collapsed, ih]

/-- Behind a mark that does not end as a list does, references have one text just if they are the same. -/
theorem laxText_eq_iff {m : List Char} {c : Char} (hc : c ≠ ']') {r r' : TypeRef} (hb : r.baseName = r'.baseName) :
    laxText (m ++ [c]) base r = laxText (m ++ [c]) base r' ↔ r.collapsed = r'.collapsed := by
  constructor
  · intro h
    have hmixed : ∀ i i' : TypeRef, strictText (m ++ [c]) base i ≠ strictText (m ++ [c]) base i' ++ (m ++ [c]) := by
      intro i i'
      have hle := @length_base_le (m ++ [c]) base i'
      rw [← List.append_assoc]
      exact strictText_ne hc (by simp; omega) i
    rw [laxText, laxText] at h
    cases hn : r.isNonNull <;> cases hn' : r'.isNonNull <;> rw [hn, hn'] at h
    · exact (TypeRef.required_inj (by simp [hn, hn'])).1 (strictText_inj hb (List.append_cancel_right h))
    · exact absurd h.symm (hmixed _ _)
    · exact absurd h (hmixed _ _)
    · exact (TypeRef.required_inj (by simp [hn, hn'])).1 (strictText_inj hb h)
  · intro h
    have hcollapsed : ∀ i : TypeRef, laxText (m ++ [c]) base i.collapsed = laxText (m ++ [c]) base i := by
      intro i
      simp only [laxText, TypeRef.isNonNull_collapsed, strictText_collapsed]
    rw [← hcollapsed r, h, hcollapsed]

end

/-! ## The types of answers and inputs -/

/-- Whether a type may be missing is told by the primitives beside it. -/
structure Wraps (lax strict : TypeRef → Ty) (extra : List Primitive) : Prop where
  lax_nonNull (r : TypeRef) : lax (.nonNull r) = strict r
  strict_nonNull (r : TypeRef) : strict (.nonNull r) = strict r
  strict_list (item : TypeRef) : strict (.list item) = .array (lax item)
  /-- A base is no union, so it stands as the item of a list without parentheses. -/
  strict_named (name : String) : (strict (.named name)).isUnion = false
  lax_nullable (r : TypeRef) : r.isNonNull = false → lax r = allowing (strict r) extra

/-- What stands behind a type that may be missing. -/
def markOf (extra : List Primitive) : List Char := extra.flatMap fun p => (" | " ++ p.text).toList

theorem allowing_union (members : List Ty) (extra : List Primitive) :
    allowing (.union members) extra = .union (members ++ extra.map .primitive) := by
  induction extra generalizing members with
  | nil => simp [allowing]
  | cons p ps ih =>
    rw [allowing, List.foldl_cons]
    exact (ih _).trans (by simp [Ty.members])

theorem allowing_cons {t : Ty} (h : t.isUnion = false) (p : Primitive) (ps : List Primitive) :
    allowing t (p :: ps) = .union (t :: (p :: ps).map .primitive) := by
  have hmembers : t.members = [t] := by
    cases t <;> first | rfl | cases h
  rw [allowing, List.foldl_cons, Ty.or, hmembers]
  exact allowing_union _ ps

theorem toList_joined_texts (t : Ty) (extra : List Primitive) :
    (Text.joined " | " (Ty.texts (t :: extra.map .primitive))).toList = t.text.toList ++ markOf extra := by
  induction extra generalizing t with
  | nil => simp [Ty.texts, Text.joined, markOf]
  | cons p ps ih =>
    have hrest := ih (.primitive p)
    rw [Ty.texts] at hrest
    rw [List.map_cons, Ty.texts, Ty.texts, Text.joined, String.toList_append, String.toList_append, hrest, Ty.text, markOf, markOf,
      List.flatMap_cons, String.toList_append]
    · simp only [List.append_assoc]
    · nofun

namespace Wraps

variable {lax strict : TypeRef → Ty} {p : Primitive} {ps : List Primitive}

theorem isUnion_strict (h : Wraps lax strict (p :: ps)) (r : TypeRef) : (strict r).isUnion = false := by
  induction r with
  | named name => exact h.strict_named name
  | nonNull inner ih => rw [h.strict_nonNull, ih]
  | list item _ => rw [h.strict_list]; rfl

theorem lax_of_isNonNull (h : Wraps lax strict (p :: ps)) {r : TypeRef} (hr : r.isNonNull = true) : lax r = strict r := by
  cases r with
  | nonNull inner => rw [h.lax_nonNull, h.strict_nonNull]
  | named name => cases hr
  | list item => cases hr

theorem isUnion_lax (h : Wraps lax strict (p :: ps)) (r : TypeRef) : (lax r).isUnion = !r.isNonNull := by
  cases hr : r.isNonNull with
  | false =>
    rw [h.lax_nullable r hr, allowing_cons (h.isUnion_strict r)]
    rfl
  | true =>
    rw [h.lax_of_isNonNull hr, h.isUnion_strict]
    rfl

/-- The text of what may be missing, from the text of the same that is there. -/
theorem text_lax (h : Wraps lax strict (p :: ps)) {r : TypeRef} {base : List Char}
    (hr : (strict r).text.toList = strictText (markOf (p :: ps)) base r) :
    (lax r).text.toList = laxText (markOf (p :: ps)) base r := by
  cases hn : r.isNonNull with
  | false =>
    rw [h.lax_nullable r hn, allowing_cons (h.isUnion_strict r), laxText, hn, Ty.text, toList_joined_texts, hr]
    rfl
  | true =>
    rw [h.lax_of_isNonNull hn, hr, laxText, hn]
    rfl

theorem text_strict (h : Wraps lax strict (p :: ps)) (r : TypeRef) :
    (strict r).text.toList = strictText (markOf (p :: ps)) (strict (.named r.baseName)).text.toList r := by
  induction r with
  | named name => rfl
  | nonNull inner ih =>
    rw [h.strict_nonNull, ih]
    rfl
  | list item ih =>
    have hitem := h.text_lax ih
    rw [h.strict_list, Ty.text, h.isUnion_lax, strictText]
    rw [laxText] at hitem
    cases hn : item.isNonNull <;> simp only [hn] at hitem ⊢
    · simp [hitem, TypeRef.baseName]
    · simp [hitem, TypeRef.baseName]

/-- References with one base have the same text just if they are the same without non-null wrappers inside others. -/
theorem text_eq_iff (h : Wraps lax strict (p :: ps)) {m : List Char} {c : Char} (hm : markOf (p :: ps) = m ++ [c]) (hc : c ≠ ']')
    {r r' : TypeRef} (hb : r.baseName = r'.baseName) : (lax r).text = (lax r').text ↔ r.collapsed = r'.collapsed := by
  rw [← String.toList_inj, h.text_lax (h.text_strict r), h.text_lax (h.text_strict r'), ← hb, hm]
  exact laxText_eq_iff hc hb

end Wraps

theorem isUnion_builtinType {name : String} {b : Ty} (h : builtinType name = some b) : b.isUnion = false := by
  unfold builtinType at h
  split at h <;> cases h <;> rfl

theorem wraps_answerType (t : Tree) (map : AnswerMap) : Wraps (answerType t map) (strictAnswerType t map) [.undefined] where
  lax_nonNull r := by rw [answerType]
  strict_nonNull r := by rw [strictAnswerType]
  strict_list item := by rw [strictAnswerType]
  strict_named name := by
    rw [strictAnswerType]
    split
    · rename_i b hb
      exact isUnion_builtinType hb
    · split
      · split <;> rfl
      · rfl
  lax_nullable r hr := by
    cases r with
    | named name => rw [answerType]
    | list item => rw [answerType, strictAnswerType]
    | nonNull inner => cases hr

theorem wraps_inputType (t : Tree) : Wraps (inputType t) (strictInputType t) [.undefined, .null] where
  lax_nonNull r := by rw [inputType]
  strict_nonNull r := by rw [strictInputType]
  strict_list item := by rw [strictInputType]
  strict_named name := by
    rw [strictInputType]
    split
    · rename_i b hb
      exact isUnion_builtinType hb
    · split
      · split <;> rfl
      · rfl
  lax_nullable r hr := by
    cases r with
    | named name => rw [inputType]
    | list item => rw [inputType, strictInputType]
    | nonNull inner => cases hr

/-- The text of the type of an answer or of an input tells how its reference is wrapped, at every depth: two references with one
base have the same text just if they are the same up to a non-null wrapper directly inside another. -/
theorem nullability_kept (t : Tree) {r r' : TypeRef} (h : r.baseName = r'.baseName) :
    (∀ map, (answerType t map r).text = (answerType t map r').text ↔ r.collapsed = r'.collapsed) ∧
    ((inputType t r).text = (inputType t r').text ↔ r.collapsed = r'.collapsed) :=
  ⟨fun map => (wraps_answerType t map).text_eq_iff (m := " | undefine".toList) (c := 'd') (by decide) (by decide) h,
    (wraps_inputType t).text_eq_iff (m := " | undefined | nul".toList) (c := 'l') (by decide) (by decide) h⟩

/-- Moons have phases. -/
def almanac : Tree := ⟨[⟨"Phase", none, .enum [⟨"NEW", none⟩, ⟨"FULL", none⟩]⟩], ⟨none, none, none⟩⟩

/-- A wrapper that stands one list further in makes another text, and one that is repeated does not. -/
theorem nullability_kept_almanac :
    (TypeRef.list (.list (.nonNull (.named "Phase")))).baseName = (TypeRef.list (.nonNull (.list (.named "Phase")))).baseName ∧
    (answerType almanac .graphql (.list (.list (.nonNull (.named "Phase"))))).text ≠
      (answerType almanac .graphql (.list (.nonNull (.list (.named "Phase"))))).text ∧
    (inputType almanac (.list (.list (.nonNull (.named "Phase"))))).text =
      (inputType almanac (.list (.list (.nonNull (.nonNull (.named "Phase")))))).text := by
  refine ⟨rfl, fun htext => ?_, (nullability_kept almanac (by rfl)).2.2 (by decide)⟩
  have hsame := ((nullability_kept almanac (by rfl)).1 .graphql).1 htext
  exact absurd hsame (by decide)

end GraphqlCodegen.Bindings
