import GraphqlCodegen.Proofs.Introspection.Reading

/-!
# A described schema, written and read back

The types come back as they were described (`toSdl_readSchema`). The operations come back only if the
schema block is written, or if no type carries the default name of an operation that is not there
(`toSdl_roots_iff`): without a block each operation is taken to start from the type of its default
name, whatever that type was meant for.
-/

namespace GraphqlCodegen.Introspection

open Sdl (nestingLimit)
open Sdl.Lexer

/-! ## From definitions to nodes -/

theorem InputValue.ofSdl_argument (v : InputValue) : Schema.InputValue.ofSdl (v.definition none) = v.argument := rfl

theorem InputValue.ofSdl_inputField (v : InputValue) :
    Schema.InputValue.ofSdl (v.definition (readDescription "  " v.description)) = v.inputField := rfl

theorem Field.ofSdl_definition (f : Field) : Schema.Field.ofSdl f.definition = f.field := by
  simp [Schema.Field.ofSdl, Field.definition, Field.field, InputValue.ofSdl_argument]

theorem EnumValue.ofSdl_definition (v : EnumValue) : Schema.EnumValue.ofSdl v.definition = v.value := rfl

theorem FullType.ofDefinition_definition (t : FullType) : Schema.Node.ofDefinition t.definition = t.node := by
  have hb : Schema.NodeKind.ofBody t.typeBody = t.nodeKind := by
    unfold typeBody nodeKind
    cases t.kind <;> simp [Schema.NodeKind.ofBody, Field.ofSdl_definition, EnumValue.ofSdl_definition,
      InputValue.ofSdl_inputField]
  rw [Schema.Node.ofDefinition, definition, hb, node]

namespace Schema

open GraphqlCodegen.Schema (Tree Roots Node)

/-- The types that the operations are described to start from. -/
def declaredRoots (s : Schema) : Roots := ⟨s.queryType, s.mutationType, s.subscriptionType⟩

/-- The tree that a schema is read back as. -/
def tree (s : Schema) : Tree :=
  ⟨s.printed.map FullType.node,
    if s.needsBlock then s.declaredRoots else Tree.defaultRoots (s.printed.map FullType.node)⟩

theorem ofDocument_document (s : Schema) : Tree.ofDocument s.document = s.tree := by
  have hd : Tree.definitionsOf s.document = s.printed.map FullType.definition := by
    cases hb : s.needsBlock <;> simp [document, hb, Tree.definitionsOf, List.filterMap_map, Function.comp_def]
  have he : Tree.extensionsOf s.document = [] := by
    cases hb : s.needsBlock <;> simp [document, hb, Tree.extensionsOf]
  have hs : Tree.schemaBlocksOf s.document = if s.needsBlock then [s.block] else [] := by
    cases hb : s.needsBlock <;> simp [document, hb, Tree.schemaBlocksOf]
  have hn : (s.printed.map FullType.definition).map Node.ofDefinition = s.printed.map FullType.node := by
    simp [FullType.ofDefinition_definition]
  unfold Tree.ofDocument
  rw [hd, he, hs, List.foldl_nil, hn]
  cases hb : s.needsBlock <;> simp [tree, hb, declaredRoots, block]

theorem WellFormed.readSchema {s : Schema} (h : s.WellFormed) :
    ∃ text, s.toSdl = .ok text ∧ readSchema text = .ok s.tree := by
  obtain ⟨text, ht, hp⟩ := h.parses
  refine ⟨text, ht, ?_⟩
  rw [GraphqlCodegen.readSchema, hp]
  exact congrArg Except.ok s.ofDocument_document

/-- The types of a described schema come back in their order, each with its kind and all its members. -/
theorem toSdl_readSchema {s : Schema} (h : s.WellFormed) :
    ∃ text tree, s.toSdl = .ok text ∧ readSchema text = .ok tree ∧ tree.nodes = s.printed.map FullType.node := by
  obtain ⟨text, ht, hr⟩ := h.readSchema
  exact ⟨text, s.tree, ht, hr, rfl⟩

/-- Wrappers, a default, a description and a reason that have to be escaped, and a built-in scalar. -/
def shop : Schema :=
  ⟨some "Shop", none, none,
    [⟨.object, "Shop", some "Sells \"\"\"all\"\"\"",
        some [⟨"items", none, [⟨"kinds", none, .mk .list none (some (.mk .enum (some "Kind") none)), some "[NEW, OLD]"⟩],
          .mk .nonNull none (some (.mk .list none (some (.mk .scalar (some "ID") none)))), true, some "use \"goods\""⟩],
        none, some [.mk .interface (some "Place") none], none, none⟩,
      ⟨.interface, "Place", none, some [⟨"name", none, [], .mk .scalar (some "String") none, false, none⟩],
        none, none, none, none⟩,
      ⟨.enum, "Kind", none, none, none, none, some [⟨"NEW", none, false, none⟩, ⟨"OLD", none, true, none⟩], none⟩,
      ⟨.scalar, "ID", none, none, none, none, none, none⟩]⟩

theorem shop_default : IsConstant (nestingLimit - 2) "[NEW, OLD]" := by
  have h1 := @Lexes.name "OLD" [']'] _ rfl rfl (Lexes.mark (c := ']') rfl .nil)
  have h2 := @Lexes.name "NEW" (',' :: ' ' :: _) _ rfl rfl (.blank rfl (.blank rfl h1))
  have h3 := Lexes.mark (c := '[') rfl h2
  exact ⟨⟨_, by simpa using h3, by decide⟩, by decide +kernel⟩

theorem shop_wellFormed : shop.WellFormed := by
  have hid : (TypeRef.mk .scalar (some "ID") none).WellFormed (nestingLimit - 2) := .named (by decide) (by decide) rfl
  have hstring : (TypeRef.mk .scalar (some "String") none).WellFormed (nestingLimit - 1) :=
    .named (by decide) (by decide) rfl
  have hkind : (TypeRef.mk .enum (some "Kind") none).WellFormed (nestingLimit - 3) := .named (by decide) (by decide) rfl
  have hplace : (TypeRef.mk .interface (some "Place") none).IsPlain := ⟨.named (by decide) (by decide) rfl, by decide⟩
  have hkinds : InputValue.WellFormed (nestingLimit - 2)
      ⟨"kinds", none, .mk .list none (some (.mk .enum (some "Kind") none)), some "[NEW, OLD]"⟩ :=
    ⟨rfl, .list hkind, by rintro d ⟨⟩; exact shop_default⟩
  refine ⟨by rintro n ⟨⟩; rfl, nofun, nofun, by decide, ?_⟩
  have hp : shop.printed = shop.types.take 3 := rfl
  rw [hp]
  simp only [shop, List.take, List.mem_cons, List.not_mem_nil, or_false, forall_eq_or_imp, forall_eq]
  refine ⟨⟨rfl, ?_, ?_⟩, ⟨rfl, nofun, ?_⟩, ⟨rfl, nofun, ?_⟩⟩
  · rintro d ⟨⟩; simp
  · simp only [FullType.MembersWellFormed, Option.getD_some, List.mem_singleton, forall_eq]
    refine ⟨hplace, by simp, rfl, nofun, ?_, .nonNull (by decide) (.list hid)⟩
    simpa using hkinds
  · simp only [FullType.MembersWellFormed, Option.getD_some, Option.getD_none, List.mem_singleton, forall_eq]
    exact ⟨nofun, by simp, rfl, nofun, nofun, hstring⟩
  · simp only [FullType.MembersWellFormed, Option.getD_some, List.mem_cons, List.not_mem_nil, or_false,
      forall_eq_or_imp, forall_eq]
    exact ⟨by simp, ⟨rfl, nofun⟩, ⟨rfl, nofun⟩⟩

theorem toSdl_readSchema_shop : shop.WellFormed ∧ ∃ text tree, shop.toSdl = .ok text ∧ readSchema text = .ok tree ∧
    tree.nodes.map (·.name) = ["Shop", "Place", "Kind"] ∧
    tree.get? "Shop" = some ⟨"Shop", some "Sells \"\"\"all\"\"\"", .object ["Place"] [⟨"items", none,
      .nonNull (.list (.named "ID")), [⟨"kinds", none, .list (.named "Kind"), some "[NEW, OLD]"⟩]⟩]⟩ := by
  obtain ⟨text, tree, ht, hr, hn⟩ := toSdl_readSchema shop_wellFormed
  refine ⟨shop_wellFormed, text, tree, ht, hr, ?_⟩
  rw [GraphqlCodegen.Schema.Tree.get?, hn]
  decide +kernel

/-! ## Roots -/

/-- The types that operations start from are among those that are written. -/
def RootsPrinted (s : Schema) : Prop := ∀ r ∈ s.roots, ∀ n ∈ r.2.2, ∃ t ∈ s.printed, t.name = n

/-- No type that is written carries the default name of an operation that is not there. -/
def NamesNoAbsentRoot (s : Schema) : Prop := ∀ r ∈ s.roots, r.2.2 = none → ∀ t ∈ s.printed, t.name ≠ r.2.1

/-- Without a schema block an operation starts from the type of its default name, or from none. -/
theorem defaultRoot_eq_iff {nodes : List Node} {name : String} {root : Option String}
    (hd : ∀ n ∈ root, n = name) (hp : ∀ n ∈ root, ∃ t ∈ nodes, t.name = n) :
    (if nodes.any (·.name == name) then some name else none) = root ↔ (root = none → ∀ t ∈ nodes, t.name ≠ name) := by
  cases root with
  | none => simp
  | some n =>
    obtain rfl := hd n rfl
    obtain ⟨t, ht, hn⟩ := hp n rfl
    have hany : nodes.any (·.name == n) = true := List.any_eq_true.2 ⟨t, ht, by simpa using hn⟩
    simp [hany]

theorem default_of_not_needsBlock {s : Schema} (hb : s.needsBlock = false) : ∀ r ∈ s.roots, ∀ n ∈ r.2.2, n = r.2.1 := by
  intro r hr n hn
  have h := List.any_eq_false.1 hb r hr
  obtain ⟨op, d, root⟩ := r
  cases hn
  simpa using h

theorem tree_roots_iff {s : Schema} (hp : s.RootsPrinted) :
    s.tree.roots = s.declaredRoots ↔ s.needsBlock = true ∨ s.NamesNoAbsentRoot := by
  cases hb : s.needsBlock with
  | true => simp [tree, hb]
  | false =>
    have hdef := default_of_not_needsBlock hb
    have hnodes : ∀ r ∈ s.roots, ∀ n ∈ r.2.2, ∃ t ∈ s.printed.map FullType.node, t.name = n := by
      intro r hr n hn
      obtain ⟨t, ht, hname⟩ := hp r hr n hn
      exact ⟨t.node, List.mem_map_of_mem ht, hname⟩
    have hroot : ∀ r ∈ s.roots, (if (s.printed.map FullType.node).any (·.name == r.2.1) then some r.2.1 else none) = r.2.2 ↔
        (r.2.2 = none → ∀ t ∈ s.printed, t.name ≠ r.2.1) := by
      intro r hr
      rw [defaultRoot_eq_iff (hdef r hr) (hnodes r hr)]
      simp [FullType.node]
    have hq := hroot ("query", "Query", s.queryType) (by simp [roots])
    have hm := hroot ("mutation", "Mutation", s.mutationType) (by simp [roots])
    have hn := hroot ("subscription", "Subscription", s.subscriptionType) (by simp [roots])
    simp only [tree, hb, Bool.false_eq_true, if_false, false_or, declaredRoots, Tree.defaultRoots, Roots.mk.injEq]
    rw [hq, hm, hn]
    simp [NamesNoAbsentRoot, roots]

/-- The roots of a described schema come back if a schema block is written, and without one exactly if
no other type carries a name that a missing operation would have by default. -/
theorem toSdl_roots_iff {s : Schema} (h : s.WellFormed) (hp : s.RootsPrinted) :
    ∃ text tree, s.toSdl = .ok text ∧ readSchema text = .ok tree ∧
      (tree.roots = s.declaredRoots ↔ s.needsBlock = true ∨ s.NamesNoAbsentRoot) := by
  obtain ⟨text, ht, hr⟩ := h.readSchema
  exact ⟨text, s.tree, ht, hr, tree_roots_iff hp⟩

/-- A read-only schema with a type for the mutations of genes. -/
def lab : Schema :=
  ⟨some "Query", none, none,
    [⟨.object, "Query", none, some [⟨"genes", none, [], .mk .object (some "Mutation") none, false, none⟩],
        none, none, none, none⟩,
      ⟨.object, "Mutation", none, some [⟨"gene", none, [], .mk .scalar (some "String") none, false, none⟩],
        none, none, none, none⟩]⟩

theorem lab_wellFormed : lab.WellFormed := by
  have hmutation : (TypeRef.mk .object (some "Mutation") none).WellFormed (nestingLimit - 1) :=
    .named (by decide) (by decide) rfl
  have hstring : (TypeRef.mk .scalar (some "String") none).WellFormed (nestingLimit - 1) :=
    .named (by decide) (by decide) rfl
  refine ⟨by rintro n ⟨⟩; rfl, nofun, nofun, by decide, ?_⟩
  have hp : lab.printed = lab.types := rfl
  rw [hp]
  simp only [lab, List.mem_cons, List.not_mem_nil, or_false, forall_eq_or_imp, forall_eq]
  refine ⟨⟨rfl, nofun, ?_⟩, ⟨rfl, nofun, ?_⟩⟩
  · simp only [FullType.MembersWellFormed, Option.getD_some, Option.getD_none, List.mem_singleton, forall_eq]
    exact ⟨nofun, by simp, rfl, nofun, nofun, hmutation⟩
  · simp only [FullType.MembersWellFormed, Option.getD_some, Option.getD_none, List.mem_singleton, forall_eq]
    exact ⟨nofun, by simp, rfl, nofun, nofun, hstring⟩

theorem lab_rootsPrinted : lab.RootsPrinted := by
  intro r hr n hn
  simp only [roots, lab, List.mem_cons, List.not_mem_nil, or_false] at hr
  rcases hr with rfl | rfl | rfl
  · cases hn; exact ⟨_, List.mem_cons_self, rfl⟩
  · cases hn
  · cases hn

/-- Nobody declared mutations, and the tree that is read back starts them from the type of genes. -/
theorem toSdl_roots_lab : lab.WellFormed ∧ lab.RootsPrinted ∧
    ∃ text tree, lab.toSdl = .ok text ∧ readSchema text = .ok tree ∧ tree.roots ≠ lab.declaredRoots := by
  obtain ⟨text, tree, ht, hr, hiff⟩ := toSdl_roots_iff lab_wellFormed lab_rootsPrinted
  refine ⟨lab_wellFormed, lab_rootsPrinted, text, tree, ht, hr, fun heq => ?_⟩
  rcases hiff.1 heq with hb | hn
  · exact absurd hb (by decide)
  · exact hn ("mutation", "Mutation", none) (by simp [roots, lab]) rfl _ (List.mem_cons_of_mem _ List.mem_cons_self) rfl

end Schema
end GraphqlCodegen.Introspection
