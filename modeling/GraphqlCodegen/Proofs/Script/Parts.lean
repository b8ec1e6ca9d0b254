import GraphqlCodegen.Script.Syntax
import GraphqlCodegen.Script.Quoted

/-!
# Parts of types

The types inside a type, at any depth and with the type itself (`Ty.parts`), and what holds of all of them
(`Ty.Forall`), one equation for each way to build a type.
-/

namespace GraphqlCodegen.Script

namespace Ty

mutual

/-- All types inside a type, the type itself first. -/
def parts : Ty → List Ty
  | .primitive p => [.primitive p]
  | .array item => .array item :: item.parts
  | .union members => .union members :: partsOfItems members
  | .object properties => .object properties :: partsOfProperties properties
  | .tuple items => .tuple items :: partsOfItems items
  | .literal value => [.literal value]
  | .ref text => [.ref text]
  | .lookup map name => [.lookup map name]
  | .apply generic argument => .apply generic argument :: argument.parts

def partsOfItems : List Ty → List Ty
  | [] => []
  | t :: ts => t.parts ++ partsOfItems ts

def partsOfProperties : List (Property Ty) → List Ty
  | [] => []
  | ⟨_, _, type⟩ :: ps => type.parts ++ partsOfProperties ps

end

attribute [local simp] parts partsOfItems partsOfProperties

theorem mem_partsOfItems {p : Ty} {items : List Ty} : p ∈ partsOfItems items ↔ ∃ t ∈ items, p ∈ t.parts := by
  induction items with
  | nil => simp
  | cons t ts ih => simp [ih]

theorem mem_partsOfProperties {p : Ty} {properties : List (Property Ty)} :
    p ∈ partsOfProperties properties ↔ ∃ q ∈ properties, p ∈ q.type.parts := by
  induction properties with
  | nil => simp
  | cons q qs ih => simp [ih]

/-- All parts of a type have a property. -/
def Forall (P : Ty → Prop) (t : Ty) : Prop := ∀ p ∈ t.parts, P p

section

variable {P Q : Ty → Prop}

@[simp] theorem forall_primitive {p : Primitive} : Forall P (.primitive p) ↔ P (.primitive p) := by
  simp [Forall]

@[simp] theorem forall_literal {value : String} : Forall P (.literal value) ↔ P (.literal value) := by
  simp [Forall]

@[simp] theorem forall_ref {text : String} : Forall P (.ref text) ↔ P (.ref text) := by
  simp [Forall]

@[simp] theorem forall_lookup {map name : String} : Forall P (.lookup map name) ↔ P (.lookup map name) := by
  simp [Forall]

@[simp] theorem forall_array {item : Ty} : Forall P (.array item) ↔ P (.array item) ∧ Forall P item := by
  simp [Forall]

@[simp] theorem forall_apply {generic : String} {argument : Ty} :
    Forall P (.apply generic argument) ↔ P (.apply generic argument) ∧ Forall P argument := by
  simp [Forall]

@[simp] theorem forall_union {members : List Ty} :
    Forall P (.union members) ↔ P (.union members) ∧ ∀ t ∈ members, Forall P t := by
  simp only [Forall, parts, List.mem_cons, forall_eq_or_imp, mem_partsOfItems, forall_exists_index, and_imp]
  exact and_congr_right fun _ => ⟨fun h t ht p => h p t ht, fun h p t ht => h t ht p⟩

@[simp] theorem forall_tuple {items : List Ty} :
    Forall P (.tuple items) ↔ P (.tuple items) ∧ ∀ t ∈ items, Forall P t := by
  simp only [Forall, parts, List.mem_cons, forall_eq_or_imp, mem_partsOfItems, forall_exists_index, and_imp]
  exact and_congr_right fun _ => ⟨fun h t ht p => h p t ht, fun h p t ht => h t ht p⟩

@[simp] theorem forall_object {properties : List (Property Ty)} :
    Forall P (.object properties) ↔ P (.object properties) ∧ ∀ q ∈ properties, Forall P q.type := by
  simp only [Forall, parts, List.mem_cons, forall_eq_or_imp, mem_partsOfProperties, forall_exists_index, and_imp]
  exact and_congr_right fun _ => ⟨fun h q hq p => h p q hq, fun h p q hq => h q hq p⟩

theorem Forall.imp {t : Ty} (h : Forall P t) (hpq : ∀ p, P p → Q p) : Forall Q t := fun p hp => hpq p (h p hp)

/-- The members of a union are its parts, and any other type is its own member. -/
theorem forall_members {t : Ty} (hunion : ∀ members, P (.union members)) : (∀ m ∈ t.members, Forall P m) ↔ Forall P t := by
  cases t <;> simp [members, hunion]

theorem forall_or {t u : Ty} (hunion : ∀ members, P (.union members)) :
    Forall P (t.or u) ↔ Forall P t ∧ Forall P u := by
  simp only [Ty.or, forall_union, hunion, true_and, List.mem_append, or_imp, forall_and, forall_members hunion]

end

end Ty

/-- A key with a character that no bare key has. -/
theorem needsQuotes_of_mem {key : String} {c : Char} (hc : c ∈ key.toList) (hk : isKeyChar c = false) :
    needsQuotes key = true := by
  unfold needsQuotes
  split
  · rfl
  · rename_i d ds hd
    have hall : (d :: ds).all isKeyChar = false := List.all_eq_false.2 ⟨c, hd ▸ hc, by simp [hk]⟩
    rw [hall, Bool.and_false, Bool.not_false]

end GraphqlCodegen.Script
