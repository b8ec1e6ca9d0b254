import Mathlib.Data.List.Basic
import GraphqlCodegen.Proofs.Script.Literals
import GraphqlCodegen.Proofs.Script.Parts
import GraphqlCodegen.Script.Emit

/-!
# Texts that are types

What the language takes for a type, as far as the types of scripts go: `IsType tightness text` is built from the words, the literals
and the brackets of a text. An operand of a union, and what stands in front of the brackets of an array or of a lookup, holds
together more tightly than a union, which needs parentheses there. Blank space stands where the texts of scripts have it; the
language allows more.

A type is never empty (`IsType.ne_empty`), and one word is a type just if types may be named by it (`IsType.word_iff`).
-/

namespace GraphqlCodegen.Script

/-! ## Words -/

/-- Words that no type is named by: those that are reserved, in modules too, and are no types, and those that stand in front of
another type. -/
def wordsBesideTypes : List String := [
  "break", "case", "catch", "class", "const", "continue", "debugger", "default", "delete", "do", "else", "enum", "export", "extends",
  "finally", "for", "function", "if", "import", "in", "instanceof", "new", "return", "super", "switch", "throw", "try", "typeof",
  "var", "while", "with",
  "await", "implements", "interface", "let", "package", "private", "protected", "public", "static", "yield",
  "infer", "keyof", "readonly", "unique"]

/-- A word that is a type, or a name that one may have. -/
def IsTypeWord (word : String) : Prop := IsIdentifierName word.toList ∧ word ∉ wordsBesideTypes

instance (word : String) : Decidable (IsTypeWord word) :=
  decidable_of_iff (needsQuotes word = false ∧ word ∉ wordsBesideTypes) (and_congr_left' (needsQuotes_eq_false_iff word))

/-- A literal between double quotes. -/
def IsLiteral (text : String) : Prop := ∃ units, readLiteral text.toList = some (units, [])

/-- A key of a property. -/
def IsKey (text : String) : Prop := IsIdentifierName text.toList ∨ IsLiteral text

/-! ## Types -/

inductive Tightness where
  | operand | union

/-- A part of a template that stands for itself. -/
def IsTemplatePart (text : String) : Prop := ∀ c ∈ text.toList, c ≠ '\x60' ∧ c ≠ '$' ∧ c ≠ '\\'

instance (text : String) : Decidable (IsTemplatePart text) := List.decidableBAll _ _

inductive IsType : Tightness → String → Prop
  | word {word : String} : IsTypeWord word → IsType .operand word
  | literal {text : String} : IsLiteral text → IsType .operand text
  | template {front text back : String} : IsTemplatePart front → IsType .union text → IsTemplatePart back →
    IsType .operand ("\x60" ++ front ++ "$\x7b" ++ text ++ "\x7d" ++ back ++ "\x60")
  | array {text : String} : IsType .operand text → IsType .operand (text ++ "[]")
  | lookup {text key : String} : IsType .operand text → IsType .union key → IsType .operand (text ++ "[" ++ key ++ "]")
  | parentheses {text : String} : IsType .union text → IsType .operand ("(" ++ text ++ ")")
  | apply {generic : String} {arguments : List String} : IsTypeWord generic → arguments ≠ [] →
    (∀ text ∈ arguments, IsType .union text) → IsType .operand (generic ++ "<" ++ Text.joined ", " arguments ++ ">")
  | tuple {items : List String} : (∀ text ∈ items, IsType .union text) → IsType .operand ("[" ++ Text.joined ", " items ++ "]")
  | emptyObject : IsType .operand "\x7b\x7d"
  /-- The properties are given by their keys, the marks of those that are optional, and their types. -/
  | object {properties : List (String × Bool × String)} : properties ≠ [] → (∀ p ∈ properties, IsKey p.1) →
    (∀ p ∈ properties, IsType .union p.2.2) → IsType .operand ("\x7b " ++ Text.joined "; " (properties.map fun p =>
      p.1 ++ (if p.2.1 then "?" else "") ++ ": " ++ p.2.2) ++ " \x7d")
  | operand {text : String} : IsType .operand text → IsType .union text
  | or {text text' : String} : IsType .union text → IsType .union text' → IsType .union (text ++ " | " ++ text')

/-! ## Identifiers, literals and keys -/

theorem isKeyChar_of_mem {name : List Char} (h : IsIdentifierName name) {c : Char} (hc : c ∈ name) : isKeyChar c = true := by
  rw [isKeyChar_iff]
  cases name with
  | nil => cases hc
  | cons d ds =>
    rcases List.mem_cons.1 hc with rfl | hc
    · exact .inl h.1
    · exact h.2 c hc

theorem isLiteral_quoted {s : String} (h : ¬HasLineEnd s) : IsLiteral (quoted s) := by
  have hread := readLiteral_quoted s []
  rw [List.append_nil, if_neg h] at hread
  exact ⟨_, hread⟩

theorem isKey_keyText {s : String} (h : ¬HasLineEnd s) : IsKey (keyText s) := by
  rw [keyText]
  cases hq : needsQuotes s with
  | true => exact .inr (isLiteral_quoted h)
  | false => exact .inl ((needsQuotes_eq_false_iff s).1 hq)

section

variable {name : String} (hname : IsIdentifierName name.toList)
include hname

theorem not_hasLineEnd_identifier : ¬HasLineEnd name := by
  rintro ⟨c, hc, hend⟩
  have hkey := isKeyChar_of_mem hname hc
  simp only [endsLiteral, Bool.or_eq_true, decide_eq_true_eq] at hend
  rcases hend with rfl | rfl <;> exact absurd hkey (by decide)

/-- Nothing in an identifier is escaped. -/
theorem quoted_identifier : quoted name = "\"" ++ name ++ "\"" := by
  have hescape : name.toList.flatMap escapeChar = name.toList := by
    refine (List.flatMap_congr fun c hc => ?_).trans (List.flatMap_singleton' _)
    have hkey := isKeyChar_of_mem hname hc
    rw [escapeChar, if_neg, if_neg] <;> rintro rfl <;> exact absurd hkey (by decide)
  rw [quoted, escape, hescape, String.ofList_toList]

theorem isLiteral_identifier : IsLiteral ("\"" ++ name ++ "\"") :=
  quoted_identifier hname ▸ isLiteral_quoted (not_hasLineEnd_identifier hname)

end

/-! ## Words among the types -/

namespace IsType

variable {tightness : Tightness} {text : String}

/-- The text of a type is one word that types are named by, or has a character that no word has. -/
theorem cases_word (h : IsType tightness text) : IsTypeWord text ∨ ∃ c ∈ text.toList, isKeyChar c = false := by
  induction h with
  | word h => exact .inl h
  | @literal text h =>
    obtain ⟨units, h⟩ := h
    cases ht : text.toList with
    | nil => simp [ht, readLiteral] at h
    | cons c cs =>
      rw [ht] at h
      unfold readLiteral at h
      split at h
      · rename_i hquote
        exact .inr ⟨'"', hquote ▸ List.mem_cons_self, by decide⟩
      · cases h
  | template _ _ _ => exact .inr ⟨'\x60', by simp, by decide⟩
  | array _ => exact .inr ⟨'[', by simp, by decide⟩
  | lookup _ _ => exact .inr ⟨'[', by simp, by decide⟩
  | parentheses _ => exact .inr ⟨'(', by simp, by decide⟩
  | apply _ _ _ => exact .inr ⟨'<', by simp, by decide⟩
  | tuple _ => exact .inr ⟨'[', by simp, by decide⟩
  | emptyObject => exact .inr ⟨'\x7b', by simp, by decide⟩
  | object _ _ _ => exact .inr ⟨'\x7b', by simp, by decide⟩
  | operand _ ih => exact ih
  | or _ _ => exact .inr ⟨'|', by simp, by decide⟩

theorem ne_empty (h : IsType tightness text) : text ≠ "" := by
  rintro rfl
  rcases h.cases_word with hw | ⟨c, hc, -⟩
  · exact hw.1
  · simp at hc

/-- One word is a type just if types are named by it. -/
theorem word_iff (hname : IsIdentifierName text.toList) : IsType .union text ↔ text ∉ wordsBesideTypes := by
  refine ⟨fun h => ?_, fun h => .operand (.word ⟨hname, h⟩)⟩
  rcases h.cases_word with hw | ⟨c, hc, hk⟩
  · exact hw.2
  · rw [isKeyChar_of_mem hname hc] at hk
    cases hk

/-- Types between bars are a type if there are any. -/
theorem joined {texts : List String} (hne : texts ≠ []) (h : ∀ text ∈ texts, IsType .union text) :
    IsType .union (Text.joined " | " texts) := by
  induction texts with
  | nil => exact absurd rfl hne
  | cons text rest ih =>
    obtain ⟨htext, hrest⟩ := List.forall_mem_cons.1 h
    cases rest with
    | nil => exact htext
    | cons t ts => exact .or htext (ih (List.cons_ne_nil t ts) hrest)

end IsType

/-! ## The texts of types -/

namespace Ty

/-- A union has members. -/
def HasMembers : Ty → Prop
  | .union members => members ≠ []
  | _ => True

/-- Words that stand for a type fit where they stand in front of brackets. -/
def Tight (fits : Tightness → String → Prop) (t : Ty) : Prop := ∀ text, t = .ref text → fits .operand text

/-- What the text of a type needs of one of its parts. Which words fit as types is left open. -/
def Written (fits : Tightness → String → Prop) : Ty → Prop
  | .primitive _ | .tuple _ => True
  | .array item => item.Tight fits
  | .union members => members ≠ []
  | .object properties => ∀ p ∈ properties, IsKey (keyText p.name)
  | .literal value => IsLiteral (quoted value)
  | .ref text => fits .union text
  | .lookup map name => IsTypeWord map ∧ IsLiteral ("\"" ++ name ++ "\"")
  | .apply generic _ => IsTypeWord generic

variable {fits : Tightness → String → Prop}

theorem Written.hasMembers {t : Ty} (h : t.Written fits) : t.HasMembers := by
  cases t with
  | union members => exact h
  | _ => trivial

theorem Tight.of_isUnion {t : Ty} (h : t.isUnion = true) : t.Tight fits := by
  rintro text rfl
  cases h

theorem texts_eq_map (ts : List Ty) : texts ts = ts.map text := by
  induction ts with
  | nil => rfl
  | cons t ts ih => rw [texts, ih, List.map_cons]

theorem propertyTexts_eq_map (ps : List (Property Ty)) : propertyTexts ps = ps.map Property.text := by
  induction ps with
  | nil => rfl
  | cons p ps ih => rw [propertyTexts, ih, List.map_cons, Property.text]

theorem isTypeWord_primitive (p : Primitive) : IsTypeWord p.text := by
  cases p <;> decide +kernel

theorem isType_bracesText {properties : List (Property Ty)} (hkeys : ∀ p ∈ properties, IsKey (keyText p.name))
    (htypes : ∀ p ∈ properties, IsType .union p.type.text) : IsType .operand (bracesText (properties.map Property.text)) := by
  cases properties with
  | nil => exact .emptyObject
  | cons p ps =>
    let triple (p : Property Ty) : String × Bool × String := (keyText p.name, p.optional, p.type.text)
    have hkeys' : ∀ q ∈ (p :: ps).map triple, IsKey q.1 := List.forall_mem_map.2 hkeys
    have htypes' : ∀ q ∈ (p :: ps).map triple, IsType .union q.2.2 := List.forall_mem_map.2 htypes
    have hobject := IsType.object (List.cons_ne_nil _ _) hkeys' htypes'
    rw [← List.map_cons, List.map_map] at hobject
    exact hobject

mutual

/-- If all parts of a type are written well, its text is a type. -/
theorem isType_text : ∀ t : Ty, t.Forall (Written IsType) →
    IsType .union t.text ∧ (t.isUnion = false → t.Tight IsType → IsType .operand t.text)
  | .primitive p, _ => by
    have hword : IsType .operand p.text := .word (isTypeWord_primitive p)
    exact ⟨.operand hword, fun _ _ => hword⟩
  | .array item, h => by
    obtain ⟨htight, hitem⟩ := forall_array.1 h
    have htext : IsType .operand (Ty.array item).text := by
      cases hu : item.isUnion with
      | true =>
        have harray := IsType.array (.parentheses (isType_text item hitem).1)
        rw [String.append_assoc] at harray
        rw [text, if_pos hu]
        exact harray
      | false =>
        rw [text, if_neg (by simp [hu])]
        exact .array ((isType_text item hitem).2 hu htight)
    exact ⟨.operand htext, fun _ _ => htext⟩
  | .union members, h => by
    obtain ⟨hne, hmembers⟩ := forall_union.1 h
    refine ⟨?_, fun hu => by cases hu⟩
    rw [text, texts_eq_map]
    exact IsType.joined (List.map_eq_nil_iff.not.2 hne) (List.forall_mem_map.2 (isType_items members hmembers))
  | .object properties, h => by
    obtain ⟨hkeys, htypes⟩ := forall_object.1 h
    have htext : IsType .operand (Ty.object properties).text := by
      rw [text, propertyTexts_eq_map]
      exact isType_bracesText hkeys (isType_properties properties htypes)
    exact ⟨.operand htext, fun _ _ => htext⟩
  | .tuple items, h => by
    have htext : IsType .operand (Ty.tuple items).text := by
      rw [text, texts_eq_map]
      exact .tuple (List.forall_mem_map.2 (isType_items items (forall_tuple.1 h).2))
    exact ⟨.operand htext, fun _ _ => htext⟩
  | .literal value, h => by
    have htext : IsType .operand (quoted value) := .literal (forall_literal.1 h)
    exact ⟨.operand htext, fun _ _ => htext⟩
  | .ref text, h => ⟨forall_ref.1 h, fun _ htight => htight text rfl⟩
  | .lookup map name, h => by
    obtain ⟨hmap, hname⟩ := forall_lookup.1 h
    have htext : IsType .operand (Ty.lookup map name).text := by
      have hlookup := IsType.lookup (.word hmap) (.operand (.literal hname))
      rw [String.append_assoc, String.append_assoc, String.append_assoc, String.append_assoc] at hlookup
      rw [text, String.append_assoc, String.append_assoc]
      exact hlookup
    exact ⟨.operand htext, fun _ _ => htext⟩
  | .apply generic argument, h => by
    obtain ⟨hgeneric, hargument⟩ := forall_apply.1 h
    have hall : ∀ text ∈ [argument.text], IsType .union text := by simpa using (isType_text argument hargument).1
    have htext : IsType .operand (Ty.apply generic argument).text := .apply hgeneric (List.cons_ne_nil _ _) hall
    exact ⟨.operand htext, fun _ _ => htext⟩

theorem isType_items : ∀ ts : List Ty, (∀ t ∈ ts, t.Forall (Written IsType)) → ∀ t ∈ ts, IsType .union t.text
  | [], _ => List.forall_mem_nil _
  | t :: ts, h => by
    obtain ⟨ht, hts⟩ := List.forall_mem_cons.1 h
    exact List.forall_mem_cons.2 ⟨(isType_text t ht).1, isType_items ts hts⟩

theorem isType_properties : ∀ ps : List (Property Ty), (∀ p ∈ ps, p.type.Forall (Written IsType)) →
    ∀ p ∈ ps, IsType .union p.type.text
  | [], _ => List.forall_mem_nil _
  | ⟨_, _, type⟩ :: ps, h => by
    obtain ⟨hp, hps⟩ := List.forall_mem_cons.1 h
    exact List.forall_mem_cons.2 ⟨(isType_text type hp).1, isType_properties ps hps⟩

end

end Ty
end GraphqlCodegen.Script
