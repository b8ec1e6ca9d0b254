import Mathlib.Data.List.Nodup
import GraphqlCodegen.Proofs.Schema.Merging

/-!
# Definitions in another order

Where no two types share a name, each type takes the extensions of its name, so the nodes of the tree are those of the
type definitions, in the order of the document (`nodes_of_distinct`). Other orders of the same definitions give the same
nodes in another order and the same roots (`Shuffled.sameTypes`), as long as the extensions of each type keep
their order and at most one schema block names the roots.
-/

namespace GraphqlCodegen.Schema.Tree

open GraphqlCodegen

/-- The same definitions in another order: no two types share a name, at most one block names the roots, and the extensions
of each type stand in the same order. -/
structure Shuffled (d d' : Sdl.Document) : Prop where
  perm : d.Perm d'
  distinct : ((definitionsOf d).map Sdl.TypeDefinition.name).Nodup
  oneBlock : (schemaBlocksOf d).length ≤ 1
  extensions : ∀ name, extensionsFor name (extensionsOf d') = extensionsFor name (extensionsOf d)

/-- The same types in any order, no two of a name, and the same roots. -/
structure SameTypes (t t' : Tree) : Prop where
  nodes : t.nodes.Perm t'.nodes
  distinct : (t.nodes.map Node.name).Nodup
  roots : t.roots = t'.roots

theorem SameTypes.symm {t t' : Tree} (h : SameTypes t t') : SameTypes t' t :=
  ⟨h.nodes.symm, (h.nodes.map Node.name).nodup_iff.1 h.distinct, h.roots.symm⟩

/-! ## Nodes -/

/-- If all nodes have names of their own, each of them takes the extensions of its name. -/
theorem foldl_applyExtension_of_nodup {nodes : List Node} (h : (nodes.map Node.name).Nodup) (exts : List Sdl.TypeExtension) :
    exts.foldl applyExtension nodes = nodes.map fun n => n.taking (extensionsFor n.name exts) := by
  induction nodes generalizing exts with
  | nil => exact foldl_applyExtension_nil exts
  | cons n ns ih =>
    obtain ⟨hn, hns⟩ := List.nodup_cons.1 h
    rw [foldl_applyExtension_cons, ih hns, List.map_cons]
    refine congrArg _ (List.map_congr_left fun m hm => ?_)
    have hne : m.name ≠ n.name := fun he => hn (he ▸ List.mem_map_of_mem hm)
    rw [extensionsFor_filter_ne hne]

/-- The node of a type definition among these extensions. -/
def extendedNode (exts : List Sdl.TypeExtension) (e : Sdl.TypeDefinition) : Node :=
  (Node.ofDefinition e).taking (extensionsFor e.name exts)

theorem nodes_of_distinct {d : Sdl.Document} (h : ((definitionsOf d).map Sdl.TypeDefinition.name).Nodup) :
    (ofDocument d).nodes = (definitionsOf d).map (extendedNode (extensionsOf d)) := by
  have hnames : ((definitionsOf d).map Node.ofDefinition).map Node.name = (definitionsOf d).map Sdl.TypeDefinition.name := by
    rw [List.map_map]
    rfl
  rw [ofDocument, foldl_applyExtension_of_nodup (by rwa [hnames]), List.map_map]
  rfl

/-! ## Roots -/

theorem defaultRoots_perm {ns ns' : List Node} (h : ns.Perm ns') : defaultRoots ns = defaultRoots ns' := by
  have hany : ∀ name : String, ns.any (·.name == name) = ns'.any (·.name == name) := fun name => h.any_eq
  simp only [defaultRoots, hany]

/-- At most one element has no other order. -/
theorem perm_eq_of_length {α : Type} {xs ys : List α} (h : xs.Perm ys) (hl : xs.length ≤ 1) : xs = ys := by
  match xs with
  | [] => exact (List.nil_perm.1 h).symm
  | [x] => exact (List.singleton_perm.1 h).symm ▸ rfl
  | _ :: _ :: _ => simp at hl

/-! ## Trees -/

variable {d d' : Sdl.Document}

/-- The order of the definitions is the order of the nodes, and nothing else. -/
theorem Shuffled.sameTypes (h : Shuffled d d') : SameTypes (ofDocument d) (ofDocument d') := by
  have hdefs : (definitionsOf d).Perm (definitionsOf d') := h.perm.filterMap _
  have hblocks : schemaBlocksOf d = schemaBlocksOf d' := perm_eq_of_length (h.perm.filterMap _) h.oneBlock
  have hnodes : (ofDocument d).nodes.Perm (ofDocument d').nodes := by
    rw [nodes_of_distinct h.distinct, nodes_of_distinct ((hdefs.map _).nodup_iff.1 h.distinct)]
    have hof : extendedNode (extensionsOf d') = extendedNode (extensionsOf d) := funext fun e => by
      rw [extendedNode, extendedNode, h.extensions]
    rw [hof]
    exact hdefs.map _
  refine ⟨hnodes, ?_, ?_⟩
  · rw [nodes_of_distinct h.distinct, List.map_map]
    exact h.distinct
  · have hroots := defaultRoots_perm hnodes
    simp only [ofDocument] at hroots ⊢
    rw [hblocks, hroots]

/-- The same names are found. -/
theorem SameTypes.isSome_get? {t t' : Tree} (h : SameTypes t t') (name : String) :
    (t.get? name).isSome = (t'.get? name).isSome := by
  rw [get?, get?, Bool.eq_iff_iff, List.find?_isSome, List.find?_isSome]
  exact exists_congr fun n => and_congr_left fun _ => h.nodes.mem_iff

end GraphqlCodegen.Schema.Tree
