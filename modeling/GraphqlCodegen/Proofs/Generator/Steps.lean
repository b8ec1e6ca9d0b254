import GraphqlCodegen.Proofs.Generator.Destinations
import GraphqlCodegen.Proofs.Writing.Interleaving

/-!
# The steps of a generator

A generator that makes its files takes two steps for each of its destinations (`begin_pending`); one that
cannot make them takes none. All its files have places of their own.
-/

namespace GraphqlCodegen

open Disk (placeOf)

/-! ## Artifacts as steps -/

theorem Artifact.target_steps (as : List Artifact) :
    (as.flatMap Artifact.steps).filterMap Step.target = as.map fun a => placeOf a.path := by
  induction as with
  | nil => rfl
  | cons a as ih => rw [List.flatMap_cons, List.filterMap_append, ih]; rfl

theorem Artifact.completed_steps (as : List Artifact) :
    (as.flatMap Artifact.steps).flatMap Step.completed = as.map Artifact.path := by
  induction as with
  | nil => rfl
  | cons a as ih => rw [List.flatMap_cons, List.flatMap_append, ih]; rfl

theorem Artifact.mem_steps {as : List Artifact} {a : Artifact} (h : a ∈ as) :
    .writeFile a.path a.content ∈ as.flatMap Artifact.steps :=
  List.mem_flatMap.2 ⟨a, h, by simp [Artifact.steps]⟩

namespace Generator

theorem map_destination_zipWith : ∀ {ds : List Destination} {cs : List String}, ds.length ≤ cs.length →
    (ds.zipWith Artifact.mk cs).map Artifact.destination = ds
  | [], _, _ => rfl
  | _ :: _, [], h => by simp at h
  | d :: ds, c :: cs, h => by
    rw [List.zipWith_cons_cons, List.map_cons, map_destination_zipWith (by simpa using h)]

theorem length_contents {input : SchemaInput} {o : Options} {g : Generator} {cs : List String}
    (h : g.contents input o = .ok cs) : (g.destinations o).length ≤ cs.length := by
  cases g with
  | schemaCopy => cases h; cases hg : o.graphql <;> simp [destinations, hg]
  | jsonSchema =>
    unfold contents at h
    cases hd : JsonSchema.document input.tree with
    | error e => rw [hd] at h; cases h
    | ok v => rw [hd] at h; cases h; cases hg : o.jsonSchema <;> simp [destinations, hg]
  | bindings => cases h; simp [destinations]
  | typedDocument => cases h; simp [destinations]

/-- A generator that makes its files makes one for each of its destinations. -/
theorem artifacts_ok {input : SchemaInput} {o : Options} {g : Generator} {as : List Artifact}
    (h : g.artifacts input o = .ok as) : as.map Artifact.destination = g.destinations o := by
  unfold artifacts at h
  cases hd : g.destinations o with
  | nil => rw [hd] at h; cases h; rfl
  | cons d ds =>
    rw [hd] at h
    simp only at h
    cases hc : g.contents input o with
    | error e => rw [hc] at h; cases h
    | ok cs =>
      rw [hc] at h
      cases h
      rw [← hd]
      exact map_destination_zipWith (length_contents hc)

theorem begin_ok {input : SchemaInput} {o : Options} {g : Generator} (h : (g.begin input o).failure = none) :
    ∃ as, g.artifacts input o = .ok as ∧ g.begin input o = Progress.start as := by
  unfold Generator.begin at h ⊢
  cases ha : g.artifacts input o with
  | error e => rw [ha] at h; cases h
  | ok as => exact ⟨as, rfl, rfl⟩

theorem begin_stopped {input : SchemaInput} {o : Options} {g : Generator} (h : (g.begin input o).failure ≠ none) :
    (g.begin input o).pending = [] := by
  unfold Generator.begin at h ⊢
  cases ha : g.artifacts input o with
  | error e => rfl
  | ok as => rw [ha] at h; exact absurd rfl h

theorem begin_target {input : SchemaInput} {o : Options} {g : Generator} {s : Step} (hs : s ∈ (g.begin input o).pending)
    {place : Disk.Place} (ht : s.target = some place) : ∃ t ∈ g.destinations o, place = placeOf t.path := by
  have hf : (g.begin input o).failure = none :=
    Decidable.byContradiction fun hf => by rw [begin_stopped hf] at hs; cases hs
  obtain ⟨as, ha, hb⟩ := begin_ok hf
  rw [hb] at hs
  have hm : place ∈ (as.flatMap Artifact.steps).filterMap Step.target := List.mem_filterMap.2 ⟨s, hs, ht⟩
  rw [Artifact.target_steps] at hm
  obtain ⟨x, hx, rfl⟩ := List.mem_map.1 hm
  exact ⟨x.destination, by rw [← artifacts_ok ha]; exact List.mem_map_of_mem hx, rfl⟩

theorem begin_targets_nodup (input : SchemaInput) (o : Options) (g : Generator) :
    ((g.begin input o).pending.filterMap Step.target).Nodup := by
  by_cases hf : (g.begin input o).failure = none
  · obtain ⟨as, ha, hb⟩ := begin_ok hf
    have h := own_places_nodup o g
    rw [← artifacts_ok ha, List.map_map] at h
    rw [hb, show (Progress.start as).pending = as.flatMap Artifact.steps from rfl, Artifact.target_steps]
    exact h
  · rw [begin_stopped hf]; exact List.nodup_nil

/-- The files that a generator makes, none if it fails. -/
def files (input : SchemaInput) (o : Options) (g : Generator) : List Artifact := (g.artifacts input o).toOption.getD []

theorem begin_pending (input : SchemaInput) (o : Options) (g : Generator) :
    (g.begin input o).pending = (g.files input o).flatMap Artifact.steps := by
  unfold Generator.begin files
  cases g.artifacts input o <;> rfl

theorem mem_files {input : SchemaInput} {o : Options} {g : Generator} {a : Artifact} (h : a ∈ g.files input o) :
    a.destination ∈ g.destinations o ∧ (g.files input o).length = (g.destinations o).length ∧
      g.begin input o = Progress.start (g.files input o) := by
  unfold files at h ⊢
  cases ha : g.artifacts input o with
  | error e => rw [ha] at h; cases h
  | ok as =>
    rw [ha] at h
    have hd := artifacts_ok ha
    refine ⟨by rw [← hd]; exact List.mem_map_of_mem h, by rw [← hd, List.length_map]; rfl, ?_⟩
    rw [Generator.begin, ha]
    rfl

end Generator
end GraphqlCodegen
