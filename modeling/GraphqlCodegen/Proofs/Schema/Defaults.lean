import Mathlib
import GraphqlCodegen.Proofs.Schema.Spelling
import GraphqlCodegen.Proofs.Sdl.Rereading

/-!
# Default values of a tree

The default of an argument or of an input field is kept as a text, printed from the value that was written. Unless a floating-point
number is in it, this text is read as a constant again, and only strings in it are at risk: a control character or one outside the
basic plane may have become others, and a block may have lost blank space (`defaults_kept_iff`).
-/

namespace GraphqlCodegen

/-- The input fields of a body, and the arguments of its fields. -/
def Sdl.TypeBody.inputValues (b : Sdl.TypeBody) : List Sdl.InputValue := b.inputs ++ b.fields.flatMap (·.arguments)

namespace Schema

/-- The input fields of a node, and the arguments of its fields. -/
def Node.inputValues (n : Node) : List InputValue := n.inputs ++ n.fields.flatMap (·.args)

theorem Node.DrawnFrom.inputValues {bodies : List Sdl.TypeBody} {n : Node} (h : n.DrawnFrom bodies) :
    ∀ a ∈ n.inputValues, ∃ b ∈ bodies, ∃ j ∈ b.inputValues, InputValue.ofSdl j = a := by
  refine List.forall_mem_append.2 ⟨fun a ha => ?_, fun a ha => ?_⟩
  · obtain ⟨b, hb, j, hj, rfl⟩ := h.inputs a ha
    exact ⟨b, hb, j, List.mem_append_left _ hj, rfl⟩
  · obtain ⟨f, hf, ha⟩ := List.mem_flatMap.1 ha
    obtain ⟨b, hb, g, hg, rfl⟩ := h.fields f hf
    obtain ⟨j, hj, rfl⟩ := List.mem_map.1 ha
    exact ⟨b, hb, j, List.mem_append_right _ (List.mem_flatMap.2 ⟨g, hg, hj⟩), rfl⟩

namespace Tree

variable {text : String} {d : Sdl.Document}

theorem sound_inputValue (hd : ∀ e ∈ d, e.Sound) {b : Sdl.TypeBody} (hb : b ∈ bodiesOf d) : ∀ j ∈ b.inputValues, j.Sound := by
  have hsound := sound_body hd b hb
  exact List.forall_mem_append.2 ⟨hsound.inputs, List.forall_mem_flatMap.2 fun g hg => (hsound.fields g hg).arguments⟩

/-- A default without floating-point numbers is read again just if all strings in it last. -/
theorem defaults_kept_iff {tree : Tree} (h : readSchema text = .ok tree) : ∃ d, Sdl.parse text = .ok d ∧ tree = ofDocument d ∧
    (∀ n ∈ tree.nodes, ∀ a ∈ n.inputValues, ∃ b ∈ bodiesOf d, ∃ j ∈ b.inputValues, InputValue.ofSdl j = a) ∧
    ∀ b ∈ bodiesOf d, ∀ j ∈ b.inputValues, ∀ v, j.default = some v → v.FloatFree →
      ∃ printed back, (InputValue.ofSdl j).default = some printed ∧ Sdl.constant? printed = some back ∧
        (back = v ↔ ∀ s, .string s ∈ v.parts → Sdl.Value.Lasting s) := by
  obtain ⟨d, hd, rfl⟩ := ofDocument_of_readSchema h
  refine ⟨d, hd, rfl, fun n hn => (drawnFrom_ofDocument d n hn).inputValues, fun b hb j hj v hv hf => ?_⟩
  have hsound := (sound_inputValue (Sdl.parse_sound hd) hb j hj).default v hv
  exact ⟨v.text, v.reread, by simp [InputValue.ofSdl, hv], Sdl.Value.constant?_text hsound hf, Sdl.Value.reread_eq_iff hsound⟩

/-- Ships ask for the flag and for the lamp that they are to watch for. -/
def harbour : String := "type Query \x7b signal(flag: String = \"🚩\", lamp: Lamp = \x7b note: \"on\\toff\" \x7d): Int \x7d"

/-- What the text of the harbour says. -/
def harbourBody : Sdl.TypeBody := .object [] [⟨none, "signal", [⟨none, "flag", .named "String", some (.string "🚩"), []⟩,
  ⟨none, "lamp", .named "Lamp", some (.object [("note", .string "on\toff")]), []⟩], .named "Int", []⟩]

/-- The lamp is read again; the flag comes back as the character of the first four digits of its code, with the others behind it. -/
theorem defaults_kept_iff_harbour : ∃ tree, readSchema harbour = .ok tree ∧
    (∃ back, Sdl.constant? (Sdl.Value.string "🚩").text = some back ∧ back ≠ .string "🚩") ∧
    Sdl.constant? (Sdl.Value.object [("note", .string "on\toff")]).text = some (.object [("note", .string "on\toff")]) := by
  have hparse : Sdl.parse harbour = .ok [.type ⟨none, "Query", [], harbourBody⟩] := by cbv
  have hread : readSchema harbour = .ok (ofDocument [.type ⟨none, "Query", [], harbourBody⟩]) := by rw [readSchema, hparse]
  obtain ⟨d, hd, -, -, hdefaults⟩ := defaults_kept_iff hread
  obtain rfl := Except.ok.inj (hparse.symm.trans hd)
  have hbody := hdefaults harbourBody List.mem_cons_self
  refine ⟨_, hread, ?_, ?_⟩
  · obtain ⟨printed, back, hprinted, hback, hiff⟩ := hbody _ List.mem_cons_self _ rfl
      (by simp [Sdl.Value.FloatFree, Sdl.Value.parts])
    cases hprinted
    have hlost : ¬Sdl.Value.Lasting "🚩" := by
      rw [Sdl.Value.Lasting, if_neg (by decide)]
      simp [Sdl.Value.isSpelled, Sdl.Value.isPlain]
    exact ⟨back, hback, fun heq => hlost (hiff.1 heq "🚩" List.mem_cons_self)⟩
  · obtain ⟨printed, back, hprinted, hback, hiff⟩ := hbody _ (List.mem_cons_of_mem _ List.mem_cons_self) _ rfl
      (by simp [Sdl.Value.FloatFree, Sdl.Value.parts, Sdl.Value.partsOfEntries])
    cases hprinted
    have hlasting : Sdl.Value.Lasting "on\toff" := by
      rw [Sdl.Value.Lasting, if_neg (by decide)]
      simp [Sdl.Value.isSpelled, Sdl.Value.isPlain]
    have hall : ∀ s, .string s ∈ (Sdl.Value.object [("note", .string "on\toff")]).parts → Sdl.Value.Lasting s := by
      simpa [Sdl.Value.parts, Sdl.Value.partsOfEntries] using hlasting
    rw [hback, hiff.2 hall]

end Tree
end Schema
end GraphqlCodegen
