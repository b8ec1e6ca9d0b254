import Mathlib.Data.List.TakeWhile
import GraphqlCodegen.Bindings.Index
import GraphqlCodegen.Script.Emit

/-!
# The endpoint in the client

The client's module knows its endpoint only as the initial value of `HOST`: the text in front of the value and the text
behind it are the same for every endpoint (`indexModule_text`).
-/

namespace GraphqlCodegen

/-- Trimming the end of a text keeps what stands in front of a character that is not blank. -/
theorem Text.trimEnd_append {c : Char} (h : isBlank c = false) (cs rest : List Char) :
    trimEnd (cs ++ c :: rest) = cs ++ trimEnd (c :: rest) := by
  have hne : (rest.reverse ++ [c]).dropWhile isBlank ≠ [] := by
    rw [Ne, List.dropWhile_eq_nil_iff]
    intro hall
    rw [hall c (by simp)] at h
    cases h
  rw [trimEnd, trimEnd, List.reverse_append, List.reverse_cons, List.dropWhile_append, if_neg (by simpa using hne),
    List.reverse_append, List.reverse_reverse]

namespace Script

/-! ## A module around its first statement -/

/-- The parts of a module in front of its statements. -/
def Module.front (m : Module) : String :=
  Text.concat (m.header.map (· ++ "\n")) ++ (if m.header.isEmpty then "" else "\n")
    ++ Text.concat (m.imports.map Import.text) ++ (if m.imports.isEmpty then "" else "\n")

/-- The parts of a module behind its first statement. -/
def Module.back (m : Module) : String :=
  Text.concat (m.statements.tail.map (Stmt.text · ++ "\n")) ++ Text.concat (m.types.map (TypeDef.text · ++ "\n"))

variable {m : Module} {s : Stmt} {statements : List Stmt}

theorem Module.body_cons (h : m.statements = s :: statements) : m.body = m.front ++ (s.text ++ "\n") ++ m.back := by
  rw [body, front, back, h, List.map_cons, List.tail_cons, Text.concat]
  simp only [String.append_assoc]

/-- The text of a module whose second statement does not begin with a blank. -/
theorem Module.text_cons (h : m.statements = s :: statements) {c : Char} {rest : List Char} (hb : m.back.toList = c :: rest)
    (hc : Text.isBlank c = false) :
    m.text = m.front ++ s.text ++ ("\n" ++ String.ofList (Text.trimEnd m.back.toList) ++ "\n") := by
  rw [text, body_cons h, String.toList_append, hb, Text.trimEnd_append hc, String.ofList_append, String.ofList_toList]
  simp only [String.append_assoc]

theorem Stmt.text_string (name value : String) :
    (Stmt.const name none (.string value) true).text = "export const " ++ name ++ " = " ++ quoted value ++ ";\n" := by
  rw [Stmt.text, exportText, if_pos rfl, Expr.text, Expr.textAt, String.append_empty,
    show "export " ++ "const " = "export const " from rfl]

/-- A declaration that is exported begins with the word for it. -/
theorem Stmt.text_exported (name : String) (type : Option Ty) (init : Expr) :
    ∃ rest, (Stmt.const name type init true).text.toList = 'e' :: rest := by
  have hword : (exportText true).toList = 'e' :: "xport ".toList := rfl
  rw [Stmt.text.eq_def]
  simp only [String.append_assoc, String.toList_append, hword]
  exact ⟨_, List.cons_append⟩

/-- Behind its first statement a module begins like its second one. -/
theorem Module.back_begins (h : m.statements.tail = s :: statements) {c : Char} {cs : List Char}
    (hs : s.text.toList = c :: cs) : ∃ rest, m.back.toList = c :: rest := by
  rw [back, h, List.map_cons, Text.concat]
  simp only [String.append_assoc, String.toList_append, hs]
  exact ⟨_, List.cons_append⟩

end Script

/-! ## The client's module -/

namespace Bindings

open Schema (Tree)
open Script

variable (t : Tree) (o : Options)

/-- The declaration of the endpoint with its value. -/
def hostDeclaration (host : Option String) : String := "export const HOST = " ++ quoted (host.getD unknownHost) ++ ";\n"

theorem hostDeclaration_eq (host : Option String) :
    (Stmt.const "HOST" none (.string (host.getD unknownHost)) true).text = hostDeclaration host := by
  have hdeclared : "export const " ++ "HOST" ++ " = " = "export const HOST = " := rfl
  exact (Stmt.text_string _ _).trans (congrArg (· ++ quoted (host.getD unknownHost) ++ ";\n") hdeclared)

/-- What stands in the client's module in front of the endpoint. -/
def beforeHost : String := (indexModule t o none).front

/-- What stands in the client's module behind the endpoint. -/
def behindHost : String := "\n" ++ String.ofList (Text.trimEnd (indexModule t o none).back.toList) ++ "\n"

/-- The client's module is a text around its endpoint. -/
theorem indexModule_text (host : Option String) :
    (indexModule t o host).text = beforeHost t o ++ hostDeclaration host ++ behindHost t o := by
  have hfront : (indexModule t o host).front = beforeHost t o := by
    rw [beforeHost, Module.front, Module.front, indexModule, indexModule]
  have hback : (indexModule t o host).back = (indexModule t o none).back := by
    rw [Module.back, Module.back, indexModule, indexModule, List.tail_cons, List.tail_cons]
  have hstatements : (indexModule t o host).statements = .const "HOST" none (.string (host.getD unknownHost)) true :: _ := rfl
  have htail : (indexModule t o host).statements.tail =
      .const "HEADERS" (some (.ref "Record<string, string>")) (.object []) true :: _ := rfl
  obtain ⟨_, hexported⟩ := Stmt.text_exported "HEADERS" (some (.ref "Record<string, string>")) (.object [])
  obtain ⟨_, hbegins⟩ := Module.back_begins htail hexported
  rw [Module.text_cons hstatements hbegins (by decide), hfront, hback, hostDeclaration_eq, behindHost]

end Bindings
end GraphqlCodegen
