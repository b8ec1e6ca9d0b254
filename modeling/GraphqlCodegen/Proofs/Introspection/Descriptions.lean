import GraphqlCodegen.Proofs.Introspection.RoundTrip
import GraphqlCodegen.Proofs.Schema.Names
import GraphqlCodegen.Proofs.Sdl.Dedent

/-!
# Descriptions, written and read back

Types, fields, arguments, input fields and enum values can be described. `PartIndex` says where such a part stands, and
`partAt?` finds it with its description, among the described types as well as in the tree that is read back. A
description of tidy lines comes back as it is from every place but one: what is said of an argument is not written,
so it is lost (`toSdl_descriptions`).
-/

namespace GraphqlCodegen

/-- Where a part of a schema stands: its index in the list that holds it, behind the indexes of what it belongs to. -/
inductive PartIndex where
  | type (type : Nat)
  | field (type field : Nat)
  | argument (type field argument : Nat)
  | inputField (type field : Nat)
  | enumValue (type value : Nat)

def PartIndex.isArgument : PartIndex → Bool
  | .argument _ _ _ => true
  | _ => false

namespace Introspection

/-! ## Parts with their descriptions -/

namespace FullType

/-- The fields of an object or an interface. -/
def outputFields (t : FullType) : List Field :=
  match t.kind with
  | .object | .interface => t.fields.getD []
  | _ => []

/-- The fields of an input object. -/
def inputObjectFields (t : FullType) : List InputValue :=
  match t.kind with
  | .inputObject => t.inputFields.getD []
  | _ => []

/-- The values of an enum. -/
def values (t : FullType) : List EnumValue :=
  match t.kind with
  | .enum => t.enumValues.getD []
  | _ => []

theorem fields_node (t : FullType) : t.node.fields = t.outputFields.map Field.field := by
  unfold node GraphqlCodegen.Schema.Node.fields nodeKind outputFields
  cases t.kind <;> rfl

theorem inputs_node (t : FullType) : t.node.inputs = t.inputObjectFields.map InputValue.inputField := by
  unfold node GraphqlCodegen.Schema.Node.inputs nodeKind inputObjectFields
  cases t.kind <;> rfl

theorem values_node (t : FullType) : t.node.values = t.values.map EnumValue.value := by
  unfold node GraphqlCodegen.Schema.Node.values nodeKind values
  cases t.kind <;> rfl

end FullType

/-- What stands at a place among the types that are written: its name and its description. -/
def Schema.partAt? (s : Schema) : PartIndex → Option (String × Option String)
  | .type i => s.printed[i]?.map fun t => (t.name, t.description)
  | .field i j => (s.printed[i]?.bind (·.outputFields[j]?)).map fun f => (f.name, f.description)
  | .argument i j k => ((s.printed[i]?.bind (·.outputFields[j]?)).bind (·.args[k]?)).map fun a => (a.name, a.description)
  | .inputField i j => (s.printed[i]?.bind (·.inputObjectFields[j]?)).map fun v => (v.name, v.description)
  | .enumValue i j => (s.printed[i]?.bind (·.values[j]?)).map fun v => (v.name, v.description)

end Introspection

/-- What stands at a place of a tree: its name and its description. -/
def Schema.Tree.partAt? (t : Schema.Tree) : PartIndex → Option (String × Option String)
  | .type i => t.nodes[i]?.map fun n => (n.name, n.description)
  | .field i j => (t.nodes[i]?.bind (·.fields[j]?)).map fun f => (f.name, f.description)
  | .argument i j k => ((t.nodes[i]?.bind (·.fields[j]?)).bind (·.args[k]?)).map fun a => (a.name, a.description)
  | .inputField i j => (t.nodes[i]?.bind (·.inputs[j]?)).map fun v => (v.name, v.description)
  | .enumValue i j => (t.nodes[i]?.bind (·.values[j]?)).map fun v => (v.name, v.description)

namespace Introspection

open Sdl (nestingLimit Position)
open Sdl.BlockString (Tidy Flush)
open Sdl.Lexer (skipIgnored readToken)

/-! ## One description -/

/-- A description is written as one block string with its indentation in front and a line end behind. Behind blanks it
is read as that block, whatever follows, and its value is the description. -/
theorem descriptionText_read {d indent : String} (hd : Flush d) (hi : ∀ c ∈ indent.toList, c = ' ') :
    ∃ block : List Char, (descriptionText (some d) indent).toList = indent.toList ++ block ++ ['\n'] ∧
      ∀ (p : Sdl.Position) (more : List Char), ∃ q,
        skipIgnored p ((descriptionText (some d) indent).toList ++ more) = (q, block ++ '\n' :: more) ∧
          readToken (block ++ '\n' :: more) = some (.string d, block, '\n' :: more) := by
  have hne : d ≠ "" := by
    rintro rfl
    exact absurd (hd.first [] rfl) (by decide)
  have htext : (descriptionText (some d) indent).toList =
      indent.toList ++ Sdl.BlockString.block indent.toList d.toList ++ ['\n'] := by
    rw [descriptionText_some hne, String.toList_ofList, Sdl.BlockString.written_eq]
  refine ⟨_, htext, fun p more => ?_⟩
  obtain ⟨q, hq⟩ := Sdl.Lexer.skipIgnored_blanks hi p (Sdl.BlockString.block indent.toList d.toList ++ '\n' :: more)
  refine ⟨q, ?_, ?_⟩
  · rw [htext, List.append_assoc, List.append_assoc, List.singleton_append, hq]
    exact Sdl.Lexer.skipIgnored_token rfl (by decide) q _
  · rw [Sdl.Lexer.readToken_block hi, Sdl.BlockString.writtenValue_eq hi hd]

/-- Four and five quotes in a row, a backslash in front of three, a blank and an indented line, and a quote at the end. -/
def quotedNotes : String := "\"\"\"\"Sown\"\"\"\"\"\n\n    in \\\"\"\" rows  \n  or \\\\ \"beds\""

theorem descriptionText_read_notes : Flush quotedNotes ∧ ∃ block : List Char,
    (descriptionText (some quotedNotes) "  ").toList = ' ' :: ' ' :: block ++ ['\n'] ∧
      readToken (block ++ "\n  sown: Int".toList) = some (.string quotedNotes, block, "\n  sown: Int".toList) := by
  have hflush : Flush quotedNotes := ⟨by decide, by decide, by decide, by decide⟩
  obtain ⟨block, htext, hread⟩ := descriptionText_read hflush (show ∀ c ∈ "  ".toList, c = ' ' by simp)
  obtain ⟨-, -, ht⟩ := hread Sdl.Position.start "  sown: Int".toList
  exact ⟨hflush, block, htext, ht⟩

/-! ## What comes back -/

/-- What the description of a part at a place is read back as. -/
def descriptionBack : PartIndex → Option String → Option String
  | .type _ => readDescription ""
  | .argument _ _ _ => fun _ => none
  | .field _ _ | .inputField _ _ | .enumValue _ _ => readDescription "  "

/-- A description, if it says something. -/
def stated (description : Option String) : Option String := description.filter (· ≠ "")

theorem readDescription_eq {indent : String} (hi : ∀ c ∈ indent.toList, c = ' ') {description : Option String}
    (h : ∀ d ∈ description, d ≠ "" → Tidy d) : readDescription indent description = stated description := by
  cases description with
  | none => rfl
  | some d =>
    by_cases hd : d = ""
    · subst hd; rfl
    · rw [readDescription_some hd, Sdl.BlockString.writtenValue_eq hi (h d rfl hd).flush]
      rw [stated, Option.filter_some, if_pos (by simpa using hd)]

theorem descriptionBack_eq (place : PartIndex) {description : Option String} (h : ∀ d ∈ description, d ≠ "" → Tidy d) :
    descriptionBack place description = if place.isArgument then none else stated description := by
  have htop : readDescription "" description = stated description := readDescription_eq (by simp) h
  have hbelow : readDescription "  " description = stated description := readDescription_eq (by simp) h
  cases place with
  | type _ => exact htop
  | argument _ _ _ => rfl
  | field _ _ => exact hbelow
  | inputField _ _ => exact hbelow
  | enumValue _ _ => exact hbelow

namespace Schema

/-- What belongs to a type of the tree is what belongs to the described type. -/
theorem bind_nodes {α β : Type} {part : FullType → Option α} {part' : GraphqlCodegen.Schema.Node → Option β} {f : α → β}
    (h : ∀ t, part' (FullType.node t) = (part t).map f) (s : Schema) (i : Nat) :
    s.tree.nodes[i]?.bind part' = (s.printed[i]?.bind part).map f := by
  have hnode : s.tree.nodes[i]? = s.printed[i]?.map FullType.node := List.getElem?_map
  rw [hnode]
  cases s.printed[i]? with
  | none => rfl
  | some t => exact h t

theorem fields_tree (s : Schema) (i j : Nat) :
    s.tree.nodes[i]?.bind (·.fields[j]?) = (s.printed[i]?.bind (·.outputFields[j]?)).map Field.field :=
  bind_nodes (fun t => by rw [FullType.fields_node, List.getElem?_map]) s i

theorem inputs_tree (s : Schema) (i j : Nat) :
    s.tree.nodes[i]?.bind (·.inputs[j]?) = (s.printed[i]?.bind (·.inputObjectFields[j]?)).map InputValue.inputField :=
  bind_nodes (fun t => by rw [FullType.inputs_node, List.getElem?_map]) s i

theorem values_tree (s : Schema) (i j : Nat) :
    s.tree.nodes[i]?.bind (·.values[j]?) = (s.printed[i]?.bind (·.values[j]?)).map EnumValue.value :=
  bind_nodes (fun t => by rw [FullType.values_node, List.getElem?_map]) s i

theorem partAt?_tree (s : Schema) (place : PartIndex) :
    s.tree.partAt? place = (s.partAt? place).map fun part => (part.1, descriptionBack place part.2) := by
  cases place with
  | type i =>
    have hnode : s.tree.nodes[i]? = s.printed[i]?.map FullType.node := List.getElem?_map
    rw [GraphqlCodegen.Schema.Tree.partAt?, partAt?, hnode, Option.map_map, Option.map_map]
    rfl
  | field i j =>
    rw [GraphqlCodegen.Schema.Tree.partAt?, partAt?, fields_tree, Option.map_map, Option.map_map]
    rfl
  | argument i j k =>
    have hargs : ∀ f : Field, f.field.args[k]? = f.args[k]?.map InputValue.argument := fun f => List.getElem?_map
    rw [GraphqlCodegen.Schema.Tree.partAt?, partAt?, fields_tree]
    cases s.printed[i]?.bind (·.outputFields[j]?) with
    | none => rfl
    | some f =>
      rw [Option.map_some, Option.bind_some, Option.bind_some, hargs, Option.map_map, Option.map_map]
      rfl
  | inputField i j =>
    rw [GraphqlCodegen.Schema.Tree.partAt?, partAt?, inputs_tree, Option.map_map, Option.map_map]
    rfl
  | enumValue i j =>
    rw [GraphqlCodegen.Schema.Tree.partAt?, partAt?, values_tree, Option.map_map, Option.map_map]
    rfl

/-- A description of tidy lines is carried by the part of the tree that it was given to, unless that is an argument:
arguments carry none, whatever is said of them. A part of which nothing is said carries nothing. -/
theorem toSdl_descriptions {s : Schema} (h : s.WellFormed) :
    ∃ text tree, s.toSdl = .ok text ∧ readSchema text = .ok tree ∧
      ∀ place name description, s.partAt? place = some (name, description) →
        (∀ d ∈ description, d ≠ "" → Tidy d) →
          ∃ carried, tree.partAt? place = some (name, carried) ∧
            (place.isArgument = true → carried = none) ∧ (place.isArgument = false → carried = stated description) := by
  obtain ⟨text, ht, hr⟩ := h.readSchema
  refine ⟨text, s.tree, ht, hr, fun place name description hpart htidy => ?_⟩
  refine ⟨descriptionBack place description, by rw [partAt?_tree, hpart, Option.map_some], fun ha => ?_, fun ha => ?_⟩
  · rw [descriptionBack_eq place htidy, if_pos ha]
  · rw [descriptionBack_eq place htidy, if_neg (by simp [ha])]

/-- Everything in it is described, the argument as well. -/
def genome : Schema :=
  ⟨some "Query", none, none,
    [⟨.object, "Query", some "All genes,\nwith \"\"\"notes\"\"\"",
        some [⟨"genes", some "By name", [⟨"first", some "How many", .mk .scalar (some "Int") none, none⟩],
          .mk .enum (some "Strand") none, false, none⟩],
        none, none, none, none⟩,
      ⟨.enum, "Strand", some "", none, none, none, some [⟨"PLUS", some "Read forwards", false, none⟩], none⟩,
      ⟨.inputObject, "Filter", none, none, some [⟨"name", some "May be\na pattern", .mk .scalar (some "String") none, none⟩],
        none, none, none⟩]⟩

theorem genome_wellFormed : genome.WellFormed := by
  have hint : (TypeRef.mk .scalar (some "Int") none).WellFormed (nestingLimit - 2) := .named (by decide) (by decide) rfl
  have hstrand : (TypeRef.mk .enum (some "Strand") none).WellFormed (nestingLimit - 1) :=
    .named (by decide) (by decide) rfl
  have hstring : (TypeRef.mk .scalar (some "String") none).WellFormed (nestingLimit - 1) :=
    .named (by decide) (by decide) rfl
  have hfirst : InputValue.WellFormed (nestingLimit - 2) ⟨"first", some "How many", .mk .scalar (some "Int") none, none⟩ :=
    ⟨rfl, hint, nofun⟩
  have hname : InputField.WellFormed ⟨"name", some "May be\na pattern", .mk .scalar (some "String") none, none⟩ :=
    ⟨⟨rfl, hstring, nofun⟩, by rintro d ⟨⟩; simp⟩
  refine ⟨by rintro n ⟨⟩; rfl, nofun, nofun, by decide, ?_⟩
  have hp : genome.printed = genome.types := rfl
  rw [hp]
  simp only [genome, List.mem_cons, List.not_mem_nil, or_false, forall_eq_or_imp, forall_eq]
  refine ⟨⟨rfl, by rintro d ⟨⟩; simp, ?_⟩, ⟨rfl, by rintro d ⟨⟩; simp, ?_⟩, ⟨rfl, nofun, ?_⟩⟩
  · simp only [FullType.MembersWellFormed, Option.getD_some, Option.getD_none, List.mem_singleton, forall_eq]
    exact ⟨by simp, by simp, rfl, by rintro d ⟨⟩; simp, by simpa using hfirst, hstrand⟩
  · simp only [FullType.MembersWellFormed, Option.getD_some, List.mem_singleton, forall_eq]
    exact ⟨by simp, rfl, by rintro d ⟨⟩; simp⟩
  · simp only [FullType.MembersWellFormed, Option.getD_some, List.mem_singleton, forall_eq]
    exact ⟨by simp, hname⟩

/-- The argument is described, and the tree that is read back says nothing of it. -/
theorem toSdl_descriptions_genome : genome.WellFormed ∧ ∃ text tree, genome.toSdl = .ok text ∧ readSchema text = .ok tree ∧
    tree.partAt? (.type 0) = some ("Query", some "All genes,\nwith \"\"\"notes\"\"\"") ∧
    tree.partAt? (.field 0 0) = some ("genes", some "By name") ∧
    tree.partAt? (.inputField 2 0) = some ("name", some "May be\na pattern") ∧
    genome.partAt? (.argument 0 0 0) = some ("first", some "How many") ∧
    tree.partAt? (.argument 0 0 0) = some ("first", none) := by
  obtain ⟨text, tree, ht, hr, hback⟩ := toSdl_descriptions genome_wellFormed
  have hcarried : ∀ place name d, genome.partAt? place = some (name, some d) → d ≠ "" → Tidy d →
      tree.partAt? place = some (name, if place.isArgument then none else some d) := by
    intro place name d hpart hd htidy
    obtain ⟨carried, htree, ha, hn⟩ := hback place name (some d) hpart (by rintro _ ⟨⟩ -; exact htidy)
    rw [htree]
    cases hp : place.isArgument with
    | true => simp [ha hp]
    | false => simp [hn hp, stated, hd]
  refine ⟨genome_wellFormed, text, tree, ht, hr, ?_, ?_, ?_, rfl, ?_⟩
  · exact hcarried (.type 0) _ _ rfl (by decide) (by decide +kernel)
  · exact hcarried (.field 0 0) _ _ rfl (by decide) (by decide +kernel)
  · exact hcarried (.inputField 2 0) _ _ rfl (by decide) (by decide +kernel)
  · exact hcarried (.argument 0 0 0) _ "How many" rfl (by decide) (by decide +kernel)

end Schema
end Introspection
end GraphqlCodegen
