import Mathlib
import GraphqlCodegen.Proofs.Introspection.Bodies

/-!
# Errors that an endpoint reports

A JSON body is looked at for a result first and for errors second. So the errors of a body are reported if nothing stands in the
place of the result, whatever stands around this place; but a null there is taken for a result, and the errors are hidden behind a
complaint about its form (`errors_reported_iff`).
-/

namespace GraphqlCodegen

/-! ## JSON is not blank -/

namespace Json

open Reader (skipSpace)
open Text (isBlank)

theorem Begins.head {cs rest : List Char} (h : Begins cs rest) : ∃ c ds, cs = c :: ds ∧ isBlank c = false := by
  cases h with
  | string _ => exact ⟨_, _, rfl, by decide⟩
  | bracket hc => rcases hc with rfl | rfl <;> exact ⟨_, _, rfl, by decide⟩
  | @number c _ _ hc =>
    refine ⟨_, _, rfl, ?_⟩
    rcases hc with rfl | hdigit
    · decide
    · simp only [Char.isDigit, Bool.and_eq_true, decide_eq_true_eq, UInt32.le_iff_toNat_le] at hdigit
      have hn : 48 ≤ c.toNat ∧ c.toNat ≤ 57 := hdigit
      simp only [isBlank, Bool.or_eq_false_iff, Bool.and_eq_false_iff, decide_eq_false_iff_not, beq_eq_false_iff_ne]
      omega
  | word hw =>
    simp only [words, List.mem_cons, List.not_mem_nil, or_false] at hw
    rcases hw with rfl | rfl | rfl <;> exact ⟨_, _, rfl, by decide⟩

theorem not_all_isBlank {text : List Char} {json : Value} (h : parse? text = some json) : text.all isBlank = false := by
  obtain ⟨rest, hbegins, -⟩ := parse?_begins h
  obtain ⟨c, cs, hskip, hc⟩ := hbegins.head
  have hmem : c ∈ text := (List.dropWhile_sublist Reader.isSpace).subset (hskip ▸ List.mem_cons_self : c ∈ skipSpace text)
  exact List.all_eq_false.2 ⟨c, hmem, by simp [hc]⟩

end Json

namespace Introspection

open Json (Value)

/-! ## Reports -/

/-- The text that an error is reported with: its message, or its own text if it has no message that is a string. -/
inductive Explains : Value → String → Prop
  | message {error : Value} {text : String} : error.get? "message" = some (.string text) → Explains error text
  | whole {error : Value} : (∀ text, error.get? "message" ≠ some (.string text)) → Explains error (Json.compact error)

/-- The message tells all errors in their order. -/
def Reports (errors : List Value) (message : String) : Prop :=
  ∃ texts, List.Forall₂ Explains errors texts ∧ message = "GraphQL errors: " ++ Text.joined "; " texts

theorem explains_reportedMessage (error : Value) : Explains error (reportedMessage error) := by
  unfold reportedMessage
  cases hm : error.get? "message" with
  | none => exact .whole (by simp [hm])
  | some m =>
    cases m with
    | string text => exact .message hm
    | _ => exact .whole (by simp [hm])

theorem reports_reported (errors : List Value) : Reports errors (AnswerError.reported (errors.map reportedMessage)).message := by
  refine ⟨errors.map reportedMessage, ?_, rfl⟩
  induction errors with
  | nil => exact .nil
  | cons error rest ih => exact .cons (explains_reportedMessage error) ih

/-- A complaint about the form of a result begins otherwise than a report. -/
theorem not_reports_malformed (errors : List Value) (cause : DecodeError) :
    ¬Reports errors (AnswerError.malformed cause).message := by
  intro ⟨texts, _, h⟩
  have hlist : ("Malformed introspection result: " ++ cause.message).toList =
    ("GraphQL errors: " ++ Text.joined "; " texts).toList := congrArg String.toList h
  rw [String.toList_append, String.toList_append] at hlist
  exact absurd (List.cons.inj hlist).1 (by decide)

/-! ## Bodies with errors -/

/-- What stands in the place of the result in a body. -/
def resultOf? (body : Value) : Option Value := (body.get? "data").bind (·.get? "__schema")

theorem schemaText_json {body : String} {json : Value} (h : Json.parse? body.toList = some json) :
    schemaText body = sdlOfJson json := by
  rw [schemaText, Json.not_all_isBlank h, h]
  rfl

theorem sdlOfJson_errors {json : Value} {errors : List Value} (herrors : json.get? "errors" = some (.array errors))
    (hresult : resultOf? json = none) : sdlOfJson json = .error (.reported (errors.map reportedMessage)) := by
  rw [sdlOfJson, ← resultOf?, hresult, herrors]
  rfl

/-- A null has not the form of a result. -/
theorem sdlOfJson_null {json : Value} (hresult : resultOf? json = some .null) :
    sdlOfJson json = .error (.malformed (.wrongType .null "struct IntrospectionSchema")) := by
  rw [sdlOfJson, ← resultOf?, hresult]
  rfl

/-- A JSON body with errors and with no result but a null gives no schema. Its errors are reported just if nothing, not even a
null, stands in the place of the result; the message is about the null otherwise. -/
theorem errors_reported_iff {body : String} {json : Value} {errors : List Value} (hjson : Json.parse? body.toList = some json)
    (herrors : json.get? "errors" = some (.array errors)) (hnull : ∀ result, resultOf? json = some result → result = .null) :
    ∃ e, schemaText body = .error e ∧ (Reports errors e.message ↔ resultOf? json = none) ∧
      (resultOf? json ≠ none →
        e.message = "Malformed introspection result: invalid type: null, expected struct IntrospectionSchema") := by
  rw [schemaText_json hjson]
  cases hresult : resultOf? json with
  | none => exact ⟨_, sdlOfJson_errors herrors hresult, iff_of_true (reports_reported errors) rfl, fun h => absurd rfl h⟩
  | some result =>
    obtain rfl := hnull result hresult
    exact ⟨_, sdlOfJson_null hresult, iff_of_false (not_reports_malformed errors _) (by simp), fun _ => rfl⟩

/-- The result is null, and of the errors only the first has a message. -/
def greenhouseBody : String :=
  "\x7b\"data\": \x7b\"__schema\": null\x7d, \"errors\": [\x7b\"message\": \"introspection is off\"\x7d, \x7b\"code\": 5\x7d]\x7d"

/-- The endpoint's explanation is not told. -/
theorem errors_reported_iff_greenhouse : ∃ json errors e, Json.parse? greenhouseBody.toList = some json ∧
    json.get? "errors" = some (.array errors) ∧ resultOf? json = some .null ∧ schemaText greenhouseBody = .error e ∧
    ¬Reports errors e.message ∧
    e.message = "Malformed introspection result: invalid type: null, expected struct IntrospectionSchema" := by
  have hjson : Json.parse? greenhouseBody.toList = some (.object [("data", .object [("__schema", .null)]),
      ("errors", .array [.object [("message", .string "introspection is off")], .object [("code", .int 5)]])]) := by
    cbv
  have hresult : resultOf? (.object [("data", .object [("__schema", .null)]), ("errors", .array
      [.object [("message", .string "introspection is off")], .object [("code", .int 5)]])]) = some .null := by
    cbv
  obtain ⟨e, hfails, hreports, hmessage⟩ := errors_reported_iff hjson rfl fun result h => Option.some.inj (h.symm.trans hresult)
  have hne := Option.ne_none_iff_exists'.2 ⟨_, hresult⟩
  exact ⟨_, _, e, hjson, rfl, hresult, hfails, mt hreports.1 hne, hmessage hne⟩

end Introspection
end GraphqlCodegen
