import GraphqlCodegen.Bindings.Constants
import GraphqlCodegen.Proofs.Script.Expressions
import GraphqlCodegen.Proofs.Bindings.Host

/-!
# The constant maps read from their module

The three maps stand in the text of their module as expressions of strings, objects and constant casts. `readConstants` takes
them from the text alone, and what it takes are the maps that were written, each entry in its place (`constants_readable`).
-/

namespace GraphqlCodegen.Bindings

open GraphqlCodegen.Schema GraphqlCodegen.Script

/-! ## What the maps are made of -/

section

variable {α : Type}

theorem isConstant_map {f : α → String × Expr} (h : ∀ x, (f x).2.IsConstant) (xs : List α) :
    (Expr.object (xs.map f)).IsConstant := by
  refine .object fun p hp => ?_
  obtain ⟨x, -, rfl⟩ := List.mem_map.1 hp
  exact h x

theorem isConstant_filterMap {f : α → Option (String × Expr)} (h : ∀ x {p}, f x = some p → p.2.IsConstant) (xs : List α) :
    (Expr.object (xs.filterMap f)).IsConstant := by
  refine .object fun p hp => ?_
  obtain ⟨x, -, hx⟩ := List.mem_filterMap.1 hp
  exact h x hx

end

theorem isConstant_constString (value : String) : (Expr.constString value).IsConstant := .cast (.string value)

theorem isConstant_baseNames (fields : List (String × TypeRef)) : (baseNames fields).IsConstant :=
  isConstant_map (fun f => .string f.2.baseName) fields

theorem isConstant_propsEntry (n : Node) {p : String × Expr} (hp : propsEntry n = some p) : p.2.IsConstant := by
  have hinputs : ∀ inputs, (inputTypes inputs).IsConstant := fun _ => isConstant_baseNames _
  have hargs : ∀ fields, (Expr.object (argumentTypes fields)).IsConstant := fun _ => isConstant_map (fun f => hinputs f.args) _
  have henum := isConstant_constString "enum"
  unfold propsEntry at hp
  grind

theorem isConstant_returnsEntry (n : Node) {p : String × Expr} (hp : returnsEntry n = some p) : p.2.IsConstant := by
  have hfields : ∀ fields, (returnTypes fields).IsConstant := fun _ => isConstant_baseNames _
  have hmembers : ∀ members : List String, (Expr.object (members.map fun m => (fragmentKey m, .string m))).IsConstant :=
    isConstant_map fun m => .string m
  unfold returnsEntry at hp
  grind

theorem isConstant_propsMap (t : Tree) : (propsMap t).IsConstant := isConstant_filterMap isConstant_propsEntry t.nodes

theorem isConstant_returnsMap (t : Tree) : (returnsMap t).IsConstant := isConstant_filterMap isConstant_returnsEntry t.nodes

theorem isConstant_operationsMap (t : Tree) : (operationsMap t).IsConstant :=
  isConstant_map (fun r => isConstant_constString r.2) t.roots.toList

/-! ## Reading -/

/-- An expression between what introduces it and the end of its statement. -/
def readDeclaration (head : String) (cs : List Char) : Option (Expr × List Char) := do
  let rest ← cs.dropPrefix? head.toList
  let (e, rest) ← readExpr rest.length rest
  let rest ← rest.dropPrefix? ";\n".toList
  return (e, rest)

/-- The properties, the results and the operations that a module of constant maps holds. -/
def readConstants (text : String) : Option (Expr × Expr × Expr) := do
  let rest ← text.toList.dropPrefix? (headerComment ++ "\n\n").toList
  let (props, rest) ← readDeclaration "export const AllTypesProps: Record<string, any> = " rest
  let (results, rest) ← readDeclaration "\nexport const ReturnTypes: Record<string, any> = " rest
  let (operations, rest) ← readDeclaration "\nexport const Ops = " rest
  if rest.isEmpty then some (props, results, operations) else none

theorem readDeclaration_text (head : String) {e : Expr} (h : e.IsConstant) (rest : List Char) :
    readDeclaration head (head.toList ++ (e.text.toList ++ (";\n".toList ++ rest))) = some (e, rest) := by
  have hexpr : ∀ n, e.text.toList.length < n →
      readExpr n (e.text.toList ++ (";\n".toList ++ rest)) = some (e, ";\n".toList ++ rest) := fun n hn => h.readAt 0 n _ hn
  have hlength : e.text.toList.length < (e.text.toList ++ (";\n".toList ++ rest)).length := by simp
  simp only [readDeclaration, dropPrefix?_toList, hexpr _ hlength, Option.bind_eq_bind, Option.bind_some]
  rfl

/-- How a constant with a type annotation stands in its module. -/
theorem toList_declaration (name type : String) (e : Expr) :
    (Stmt.const name (some (.ref type)) e true).text.toList =
      ("export const " ++ name ++ ": " ++ type ++ " = ").toList ++ (e.text.toList ++ ";\n".toList) := by
  have hwords : "export const " = "export " ++ "const " := rfl
  simp [Stmt.text, exportText, Ty.text, hwords]

/-- The module of the constant maps in front of the end of its last statement. -/
def constantsFront (t : Tree) : List Char :=
  (headerComment ++ "\n\n").toList ++
    ("export const AllTypesProps: Record<string, any> = ".toList ++ ((propsMap t).text.toList ++ (";\n".toList ++
      ("\nexport const ReturnTypes: Record<string, any> = ".toList ++ ((returnsMap t).text.toList ++ (";\n".toList ++
        ("\nexport const Ops = ".toList ++ (operationsMap t).text.toList)))))))

theorem constantsModule_text (t : Tree) : (constantsModule t).text.toList = constantsFront t ++ ";\n".toList := by
  have hops : (Stmt.const "Ops" none (operationsMap t) true).text.toList =
      "export const Ops = ".toList ++ ((operationsMap t).text.toList ++ ";\n".toList) := by
    have hwords : "export const Ops = " = "export " ++ "const " ++ "Ops" ++ " = " := rfl
    simp only [Stmt.text, exportText, hwords]
    simp
  have hbody : (constantsModule t).body.toList = constantsFront t ++ ';' :: ['\n', '\n'] := by
    simp [Module.body, constantsModule, constantsFront, Text.concat, toList_declaration, hops]
  have hend : Text.trimEnd [';', '\n', '\n'] = [';'] := by decide
  rw [Module.text, hbody, Text.trimEnd_append (by decide), hend]
  simp

/-- A text is that of one expression of strings, objects and constant casts at most, at whatever levels it is written; and the
maps are read from the text of their module. -/
theorem constants_readable :
    (∀ {e e' : Expr}, e.IsConstant → e'.IsConstant → ∀ {level level'}, e.textAt level = e'.textAt level' → e = e') ∧
    ∀ t, readConstants (constantsModule t).text = some (propsMap t, returnsMap t, operationsMap t) := by
  refine ⟨Expr.IsConstant.eq_of_textAt, fun t => ?_⟩
  have hops := readDeclaration_text "\nexport const Ops = " (isConstant_operationsMap t) []
  rw [List.append_nil] at hops
  simp only [readConstants, constantsModule_text, constantsFront, List.append_assoc, dropPrefix?_toList,
    readDeclaration_text _ (isConstant_propsMap t), readDeclaration_text _ (isConstant_returnsMap t), hops,
    Option.bind_eq_bind, Option.bind_some]
  rfl

/-- Two entries under one empty key. -/
def repeatedKey : Expr := .object [("", .string "moon"), ("", .string "full")]

/-- One entry whose string spells the second one of the other expression. -/
def spelledEntry : Expr := .object [("", .string "moon\",\n  \"\": \"full")]

theorem constants_readable_spelled :
    repeatedKey.IsConstant ∧ spelledEntry.IsConstant ∧ repeatedKey.textAt 0 ≠ spelledEntry.textAt 0 := by
  have hrepeated : repeatedKey.IsConstant := .object (by simp [Expr.IsConstant.string])
  have hspelled : spelledEntry.IsConstant := .object (by simp [Expr.IsConstant.string])
  refine ⟨hrepeated, hspelled, fun htext => ?_⟩
  have hsame := constants_readable.1 hrepeated hspelled htext
  simp [repeatedKey, spelledEntry] at hsame

end GraphqlCodegen.Bindings
