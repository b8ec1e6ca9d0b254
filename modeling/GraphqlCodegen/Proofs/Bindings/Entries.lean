import GraphqlCodegen.Bindings.Constants
import GraphqlCodegen.Proofs.Schema.Names

/-!
# Entries of the constant maps

The entries of an object expression, those of a constant that a module declares (`entriesOf`), and what the module of the
constant maps holds under its three names: an entry for a type carries the name of the type.
-/

namespace GraphqlCodegen

open Schema

namespace Script

/-- The entries of an object. -/
def Expr.entries : Expr → List (String × Expr)
  | .object entries => entries
  | .cast expr _ => expr.entries
  | .string _ => []

@[simp] theorem Expr.entries_object (entries : List (String × Expr)) : (Expr.object entries).entries = entries := rfl

@[simp] theorem Expr.entries_constString (value : String) : (Expr.constString value).entries = [] := rfl

/-- The entries of a constant of a module. -/
def entriesOf (m : Module) (name : String) : List (String × Expr) :=
  m.statements.flatMap fun
    | .const n _ init _ => if n = name then init.entries else []
    | _ => []

end Script

namespace Bindings

open Script

theorem entriesOf_props (t : Tree) : entriesOf (constantsModule t) "AllTypesProps" = t.nodes.filterMap propsEntry := by
  simp [entriesOf, constantsModule, propsMap]

theorem entriesOf_returns (t : Tree) : entriesOf (constantsModule t) "ReturnTypes" = t.nodes.filterMap returnsEntry := by
  simp [entriesOf, constantsModule, returnsMap]

theorem entriesOf_operations (t : Tree) :
    entriesOf (constantsModule t) "Ops" = t.roots.toList.map fun r => (r.1, Expr.constString r.2) := by
  simp [entriesOf, constantsModule, operationsMap]

variable {n : Node}

theorem propsEntry_name (n : Node) : ((propsEntry n).map Prod.snd).map (n.name, ·) = propsEntry n := by
  unfold propsEntry
  cases n.kind with
  | object interfaces fields => dsimp only; cases argumentTypes fields <;> rfl
  | interface fields => dsimp only; cases argumentTypes fields <;> rfl
  | _ => rfl

theorem returnsEntry_name (n : Node) : ((returnsEntry n).map Prod.snd).map (n.name, ·) = returnsEntry n := by
  unfold returnsEntry
  cases n.kind <;> rfl

/-- A type whose fields take no arguments has no entry. -/
theorem propsEntry_fields (h : n.HasFields) : ((propsEntry n).map fun e => e.2.entries).getD [] = argumentTypes n.fields ∧
    (argumentTypes n.fields ≠ [] → propsEntry n = some (n.name, .object (argumentTypes n.fields))) := by
  obtain ⟨interfaces, hk⟩ | hk := h.kind
  · rw [propsEntry, hk]
    dsimp only
    cases argumentTypes n.fields <;> simp
  · rw [propsEntry, hk]
    dsimp only
    cases argumentTypes n.fields <;> simp

theorem returnsEntry_fields (h : n.HasFields) : returnsEntry n = some (n.name, returnTypes n.fields) := by
  obtain ⟨interfaces, hk⟩ | hk := h.kind
  · rw [returnsEntry, hk]
  · rw [returnsEntry, hk]

end Bindings
end GraphqlCodegen
