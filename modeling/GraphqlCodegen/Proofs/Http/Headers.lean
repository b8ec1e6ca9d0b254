import Mathlib.Data.List.Forall2
import Mathlib.Data.List.TakeWhile
import GraphqlCodegen.Http.Headers
import GraphqlCodegen.Proofs.Outcomes

/-!
# Header fields given as texts

A text gives a field by its first colon: the name stands in front of it and the value behind it, further colons included (`Gives`).
Texts are read if each of them gives a field. Then no value is lost or moved: the values of a name are those that were given for it,
in the order of the texts and in whatever case the name was written. Otherwise the first text that gives none is complained about
(`fields_of_texts`).
-/

namespace GraphqlCodegen.Http

namespace Header

/-! ## One text -/

/-- The text has the name in front of its first colon and the value behind it, with blanks around both. -/
def Splits (text : String) (name value : List Char) : Prop :=
  ∃ before after, text.toList = before ++ ':' :: after ∧ ':' ∉ before ∧ name = Text.trim before ∧ value = Text.trim after

/-- The text gives a field with this name and this value. -/
structure Gives (text : String) (name value : List Char) : Prop where
  splits : Splits text name value
  isName : isName name = true
  isValue : value.all isValueChar = true

/-- What is said about a text that gives no field. -/
inductive Complaint (text : String) : String → Prop
  | noColon : ':' ∉ text.toList → Complaint text ("Invalid header '" ++ text ++ "', expected 'Name: Value'")
  | name {name value : List Char} : Splits text name value → isName name = false →
    Complaint text ("Invalid header name in '" ++ text ++ "': invalid HTTP header name")
  | value {name value : List Char} : Splits text name value → isName name = true → value.all isValueChar = false →
    Complaint text ("Invalid header value in '" ++ text ++ "': failed to parse header value")

variable {text : String}

theorem ne_colon {before : List Char} (h : ':' ∉ before) : ∀ c ∈ before, (c != ':') = true :=
  fun _ hc => bne_iff_ne.2 fun he => h (he ▸ hc)

theorem takeWhile_colon {before after : List Char} (h : ':' ∉ before) :
    (before ++ ':' :: after).takeWhile (· != ':') = before := by
  rw [List.takeWhile_append_of_pos (ne_colon h)]
  simp

theorem dropWhile_colon {before after : List Char} (h : ':' ∉ before) :
    (before ++ ':' :: after).dropWhile (· != ':') = ':' :: after := by
  rw [List.dropWhile_append_of_pos (ne_colon h)]
  simp

/-- There is one first colon. -/
theorem Splits.unique {n v n' v' : List Char} (h : Splits text n v) (h' : Splits text n' v') : n = n' ∧ v = v' := by
  obtain ⟨before, after, htext, hbefore, rfl, rfl⟩ := h
  obtain ⟨before', after', htext', hbefore', rfl, rfl⟩ := h'
  obtain rfl : before = before' := by
    rw [← takeWhile_colon hbefore, ← htext, htext', takeWhile_colon hbefore']
  rw [htext, List.append_cancel_left_eq, List.cons.injEq] at htext'
  rw [htext'.2]
  exact ⟨rfl, rfl⟩

theorem Splits.colon {n v : List Char} (h : Splits text n v) : ':' ∈ text.toList := by
  obtain ⟨before, after, htext, -⟩ := h
  rw [htext]
  exact List.mem_append_right _ List.mem_cons_self

/-- A text that is complained about gives no field. -/
theorem Complaint.not_gives {message : String} (h : Complaint text message) : ¬∃ name value, Gives text name value := by
  rintro ⟨n, v, hgives⟩
  cases h with
  | noColon hnone => exact hnone hgives.splits.colon
  | name hsplits hname =>
    rw [(hsplits.unique hgives.splits).1, hgives.isName] at hname
    cases hname
  | value hsplits _ hvalue =>
    rw [(hsplits.unique hgives.splits).2, hgives.isValue] at hvalue
    cases hvalue

/-- The field of a name and a value. -/
def ofGiven (given : List Char × List Char) : Header := ⟨nameOf given.1, String.ofList given.2⟩

/-- What is read behind the first colon. -/
theorem parse_eq {before after : List Char} (htext : text.toList = before ++ ':' :: after) (hbefore : ':' ∉ before) :
    parse text = if !isName (Text.trim before) then .error (.invalidName text)
      else if !(Text.trim after).all isValueChar then .error (.invalidValue text)
      else .ok (ofGiven (Text.trim before, Text.trim after)) := by
  rw [parse]
  simp only [htext, takeWhile_colon hbefore, dropWhile_colon hbefore]
  rfl

/-- A text is read if it gives a field, and complained about otherwise. -/
theorem parse_cases (text : String) :
    (∃ name value, Gives text name value ∧ parse text = .ok (ofGiven (name, value))) ∨
      ∃ e, parse text = .error e ∧ Complaint text e.message := by
  by_cases hcolon : ':' ∈ text.toList
  · obtain ⟨before, after, htext, hbefore⟩ := List.eq_append_cons_of_mem hcolon
    have hsplits : Splits text (Text.trim before) (Text.trim after) := ⟨before, after, htext, hbefore, rfl, rfl⟩
    rw [parse_eq htext hbefore]
    cases hname : isName (Text.trim before) with
    | false => exact .inr ⟨_, rfl, .name hsplits hname⟩
    | true =>
      cases hvalue : (Text.trim after).all isValueChar with
      | false => exact .inr ⟨_, rfl, .value hsplits hname hvalue⟩
      | true => exact .inl ⟨_, _, ⟨hsplits, hname, hvalue⟩, rfl⟩
  · have hall : text.toList.dropWhile (· != ':') = [] :=
      List.dropWhile_eq_nil_iff.2 (ne_colon hcolon)
    refine .inr ⟨.noColon text, ?_, .noColon hcolon⟩
    simp only [parse, hall]

theorem succeeds_parse : Succeeds (parse text) ↔ ∃ name value, Gives text name value := by
  rcases parse_cases text with ⟨name, value, hgives, hparse⟩ | ⟨e, hparse, hcomplaint⟩
  · exact iff_of_true ⟨_, hparse⟩ ⟨name, value, hgives⟩
  · rw [hparse]
    exact iff_of_false (not_succeeds_error e) hcomplaint.not_gives

end Header

/-! ## A list of texts -/

namespace Headers

open Header (Gives Complaint nameOf ofGiven)

theorem parse_cons (text : String) (texts : List String) :
    parse (text :: texts) = (Header.parse text).bind fun h => (parse texts).map (h :: ·) := by
  rw [parse, List.mapM_cons]
  cases Header.parse text with
  | error e => rfl
  | ok h => cases hrest : parse texts <;> rw [parse] at hrest <;> rw [hrest] <;> rfl

/-- Texts that are read give the fields that were read, one each; otherwise there is a first text that gives none. -/
theorem parse_cases : ∀ texts : List String,
    (∃ given, List.Forall₂ (fun text (g : List Char × List Char) => Gives text g.1 g.2) texts given ∧
      parse texts = .ok (given.map ofGiven)) ∨
    ∃ before text after e, texts = before ++ text :: after ∧ (∀ t ∈ before, ∃ name value, Gives t name value) ∧
      parse texts = .error e ∧ Complaint text e.message
  | [] => .inl ⟨[], .nil, rfl⟩
  | text :: texts => by
    rw [parse_cons]
    rcases Header.parse_cases text with ⟨name, value, hgives, hparse⟩ | ⟨e, hparse, hcomplaint⟩
    · rw [hparse]
      rcases parse_cases texts with ⟨given, hall, hrest⟩ | ⟨before, t, after, e, rfl, hbefore, hrest, hcomplaint⟩
      · exact .inl ⟨(name, value) :: given, .cons hgives hall, by rw [hrest]; rfl⟩
      · refine .inr ⟨text :: before, t, after, e, rfl, ?_, by rw [hrest]; rfl, hcomplaint⟩
        exact List.forall_mem_cons.2 ⟨⟨name, value, hgives⟩, hbefore⟩
    · exact .inr ⟨[], text, texts, e, rfl, by simp, by rw [hparse]; rfl, hcomplaint⟩

/-- Under a name are the values that were given for it. -/
theorem values_ofGiven (given : List (List Char × List Char)) (name : String) :
    values (given.map ofGiven) name = (given.filter (nameOf ·.1 = name)).map fun g => String.ofList g.2 := by
  rw [values, List.filter_map, List.map_map]
  rfl

/-- Texts are read just if all of them give fields. Under every name, in whatever case it is asked for, are the values given for it, in
the order of the texts; and if a text gives no field, the first such text is complained about. -/
theorem fields_of_texts (texts : List String) :
    (Succeeds (parse texts) ↔ ∀ text ∈ texts, ∃ name value, Gives text name value) ∧
    match parse texts with
    | .ok headers => ∃ given, List.Forall₂ (fun text (g : List Char × List Char) => Gives text g.1 g.2) texts given ∧
        ∀ name : String, headers.values (nameOf name.toList) =
          (given.filter (nameOf ·.1 = nameOf name.toList)).map fun g => String.ofList g.2
    | .error e => ∃ before text after, texts = before ++ text :: after ∧
        (∀ t ∈ before, ∃ name value, Gives t name value) ∧ Complaint text e.message := by
  refine ⟨succeeds_mapM.trans (forall₂_congr fun _ _ => Header.succeeds_parse), ?_⟩
  rcases parse_cases texts with ⟨given, hall, hparse⟩ | ⟨before, text, after, e, htexts, hbefore, hparse, hcomplaint⟩
  · rw [hparse]
    exact ⟨given, hall, fun name => values_ofGiven given _⟩
  · rw [hparse]
    exact ⟨before, text, after, htexts, hbefore, hcomplaint⟩

example : parse ["X-Team: core", "Authorization: Bearer abc:def", "x-team:\tedge "] =
    .ok [⟨"x-team", "core"⟩, ⟨"authorization", "Bearer abc:def"⟩, ⟨"x-team", "edge"⟩] := by rfl

end Headers
end GraphqlCodegen.Http
