import GraphqlCodegen.Schema.Merge
import GraphqlCodegen.Proofs.Schema.Names
import GraphqlCodegen.Proofs.Sdl.Soundness
import GraphqlCodegen.Run

/-!
# Where the parts of a tree come from

A node has the name of a type definition, and its fields, members and inputs are written in the bodies of definitions and of
extensions (`drawnFrom_ofDocument`): merging makes none of its own. So what holds of every definition that was read holds of
the nodes; above all, their names are spelled as the schema language spells names (`spelled_ofDocument`).
-/

namespace GraphqlCodegen.Schema

open Sdl.Lexer (isNameText)

/-! ## Bodies -/

namespace Node

/-- The fields, members and inputs of a node stand in the bodies. -/
structure DrawnFrom (bodies : List Sdl.TypeBody) (n : Node) : Prop where
  fields : ∀ f ∈ n.fields, ∃ b ∈ bodies, ∃ g ∈ b.fields, Field.ofSdl g = f
  members : ∀ m ∈ n.members, ∃ b ∈ bodies, m ∈ b.members
  inputs : ∀ i ∈ n.inputs, ∃ b ∈ bodies, ∃ j ∈ b.inputs, InputValue.ofSdl j = i

variable {bodies : List Sdl.TypeBody} {n m : Node}

theorem drawnFrom_ofBody {b : Sdl.TypeBody} (hb : b ∈ bodies) (hk : n.kind = .ofBody b) : n.DrawnFrom bodies where
  fields f hf := by
    refine ⟨b, hb, ?_⟩
    rw [Node.fields, hk] at hf
    cases b <;> simp_all [NodeKind.ofBody, Sdl.TypeBody.fields]
  members m hm := by
    refine ⟨b, hb, ?_⟩
    rw [Node.members, hk] at hm
    cases b <;> simp_all [NodeKind.ofBody, Sdl.TypeBody.members]
  inputs i hi := by
    refine ⟨b, hb, ?_⟩
    rw [Node.inputs, hk] at hi
    cases b <;> simp_all [NodeKind.ofBody, Sdl.TypeBody.inputs]

/-- What stands in a node that was extended stood in one of both. -/
theorem DrawnFrom.extend (hn : n.DrawnFrom bodies) (hm : m.DrawnFrom bodies) :
    { n with kind := n.kind.extend m.kind : Node }.DrawnFrom bodies := by
  obtain ⟨name, description, kind⟩ := n
  obtain ⟨name', description', kind'⟩ := m
  constructor
  · intro f hf
    have hsplit : f ∈ Node.fields ⟨name, description, kind⟩ ∨ f ∈ Node.fields ⟨name', description', kind'⟩ := by
      cases kind <;> cases kind' <;> simp_all [Node.fields, NodeKind.extend]
    exact hsplit.elim (hn.fields f) (hm.fields f)
  · intro x hx
    have hsplit : x ∈ Node.members ⟨name, description, kind⟩ ∨ x ∈ Node.members ⟨name', description', kind'⟩ := by
      cases kind <;> cases kind' <;> simp_all [Node.members, NodeKind.extend]
    exact hsplit.elim (hn.members x) (hm.members x)
  · intro i hi
    have hsplit : i ∈ Node.inputs ⟨name, description, kind⟩ ∨ i ∈ Node.inputs ⟨name', description', kind'⟩ := by
      cases kind <;> cases kind' <;> simp_all [Node.inputs, NodeKind.extend]
    exact hsplit.elim (hn.inputs i) (hm.inputs i)

end Node

namespace Tree

/-- The bodies of all definitions and extensions. -/
def bodiesOf (d : Sdl.Document) : List Sdl.TypeBody :=
  (definitionsOf d).map (·.body) ++ (extensionsOf d).map (·.body)

/-- What an extension adds is drawn from its body. -/
theorem drawnFrom_applyExtension {bodies : List Sdl.TypeBody} {ext : Sdl.TypeExtension} (hext : ext.body ∈ bodies) {ns : List Node}
    (hns : ∀ n ∈ ns, n.DrawnFrom bodies) : ∀ n ∈ applyExtension ns ext, n.DrawnFrom bodies := by
  induction ns with
  | nil => simp [applyExtension]
  | cons n ns ih =>
    obtain ⟨hn, hns⟩ := List.forall_mem_cons.1 hns
    rw [applyExtension]
    split
    · have hadded : Node.DrawnFrom bodies ⟨ext.name, none, .ofBody ext.body⟩ := Node.drawnFrom_ofBody hext rfl
      exact List.forall_mem_cons.2 ⟨hn.extend hadded, hns⟩
    · exact List.forall_mem_cons.2 ⟨hn, ih hns⟩

theorem names_applyExtension (ns : List Node) (ext : Sdl.TypeExtension) :
    (applyExtension ns ext).map Node.name = ns.map Node.name := by
  induction ns with
  | nil => rfl
  | cons n ns ih =>
    rw [applyExtension]
    split
    · rfl
    · rw [List.map_cons, ih, List.map_cons]

theorem drawnFrom_ofDocument (d : Sdl.Document) : ∀ n ∈ (ofDocument d).nodes, n.DrawnFrom (bodiesOf d) := by
  have hfold : ∀ (exts : List Sdl.TypeExtension), (∀ e ∈ exts, e.body ∈ bodiesOf d) → ∀ ns : List Node,
      (∀ n ∈ ns, n.DrawnFrom (bodiesOf d)) → ∀ n ∈ exts.foldl applyExtension ns, n.DrawnFrom (bodiesOf d) := by
    intro exts
    induction exts with
    | nil => exact fun _ _ h => h
    | cons e exts ih =>
      intro hexts ns hns
      obtain ⟨he, hexts⟩ := List.forall_mem_cons.1 hexts
      exact ih hexts _ (drawnFrom_applyExtension he hns)
  refine hfold _ (fun e he => List.mem_append_right _ (List.mem_map_of_mem he)) _ (List.forall_mem_map.2 fun e he => ?_)
  exact Node.drawnFrom_ofBody (List.mem_append_left _ (List.mem_map_of_mem he)) rfl

theorem names_ofDocument (d : Sdl.Document) :
    (ofDocument d).nodes.map Node.name = (definitionsOf d).map Sdl.TypeDefinition.name := by
  have hfold : ∀ (exts : List Sdl.TypeExtension) (ns : List Node),
      (exts.foldl applyExtension ns).map Node.name = ns.map Node.name := by
    intro exts
    induction exts with
    | nil => exact fun _ => rfl
    | cons e exts ih => exact fun ns => (ih _).trans (names_applyExtension ns e)
  rw [ofDocument, hfold, List.map_map]
  rfl

end Tree

/-! ## Names -/

/-- The names in a node are texts of names. -/
structure Node.Spelled (n : Node) : Prop where
  name : isNameText n.name = true
  fields : ∀ f ∈ n.fields, isNameText f.name = true
  arguments : ∀ f ∈ n.fields, ∀ a ∈ f.args, isNameText a.name = true
  inputs : ∀ i ∈ n.inputs, isNameText i.name = true
  members : ∀ m ∈ n.members, isNameText m = true

namespace Tree

variable {d : Sdl.Document}

theorem forall_bodies {P : Sdl.TypeBody → Prop} (htype : ∀ t, .type t ∈ d → P t.body) (hext : ∀ e, .extension e ∈ d → P e.body) :
    ∀ b ∈ bodiesOf d, P b := by
  refine List.forall_mem_append.2 ⟨List.forall_mem_map.2 fun t ht => ?_, List.forall_mem_map.2 fun e he => ?_⟩
  · obtain ⟨x, hx, hxt⟩ := List.mem_filterMap.1 ht
    cases x with
    | type y => cases hxt; exact htype _ hx
    | _ => cases hxt
  · obtain ⟨x, hx, hxe⟩ := List.mem_filterMap.1 he
    cases x with
    | extension y => cases hxe; exact hext _ hx
    | _ => cases hxe

theorem sound_body (hd : ∀ e ∈ d, e.Sound) : ∀ b ∈ bodiesOf d, b.Sound :=
  forall_bodies (fun _ ht => ((hd _ ht).types _ rfl).2) fun _ he => (hd _ he).extensions _ rfl

theorem spelled_ofDocument (hd : ∀ e ∈ d, e.Sound) {n : Node} (hn : n ∈ (ofDocument d).nodes) : n.Spelled := by
  have hdrawn := drawnFrom_ofDocument d n hn
  have hfield : ∀ f ∈ n.fields, ∃ g : Sdl.Field, g.Sound ∧ Field.ofSdl g = f := by
    intro f hf
    obtain ⟨b, hb, g, hg, rfl⟩ := hdrawn.fields f hf
    exact ⟨g, (sound_body hd b hb).fields g hg, rfl⟩
  refine ⟨?_, fun f hf => ?_, fun f hf a ha => ?_, fun i hi => ?_, fun m hm => ?_⟩
  · have hname : n.name ∈ (definitionsOf d).map Sdl.TypeDefinition.name := names_ofDocument d ▸ List.mem_map_of_mem hn
    obtain ⟨x, hx, hxn⟩ := List.mem_map.1 hname
    obtain ⟨e, he, hex⟩ := List.mem_filterMap.1 hx
    cases e with
    | type t => cases hex; exact hxn ▸ ((hd _ he).types _ rfl).1
    | _ => cases hex
  · obtain ⟨g, hg, rfl⟩ := hfield f hf
    exact hg.name
  · obtain ⟨g, hg, rfl⟩ := hfield f hf
    obtain ⟨a, hb, rfl⟩ := List.mem_map.1 ha
    exact (hg.arguments a hb).name
  · obtain ⟨b, hb, j, hj, rfl⟩ := hdrawn.inputs i hi
    exact ((sound_body hd b hb).inputs j hj).name
  · obtain ⟨b, hb, hm⟩ := hdrawn.members m hm
    exact (sound_body hd b hb).members m hm

/-- The tree of a text is that of its document. -/
theorem ofDocument_of_readSchema {text : String} {t : Tree} (h : readSchema text = .ok t) :
    ∃ d, Sdl.parse text = .ok d ∧ t = ofDocument d := by
  unfold readSchema at h
  split at h
  · rename_i d hd
    cases h
    exact ⟨d, hd, rfl⟩
  · cases h

theorem spelled_of_readSchema {text : String} {t : Tree} (h : readSchema text = .ok t) : ∀ n ∈ t.nodes, n.Spelled := by
  obtain ⟨d, hd, rfl⟩ := ofDocument_of_readSchema h
  exact fun n hn => spelled_ofDocument (Sdl.parse_sound hd) hn

end Tree
end GraphqlCodegen.Schema
