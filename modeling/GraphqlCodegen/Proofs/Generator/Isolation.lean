import Mathlib.Data.List.Basic
import GraphqlCodegen.Proofs.Generator.Steps
import GraphqlCodegen.Proofs.Writing.Isolation

/-!
# Generators side by side

The generators that are asked for write their files on one disk, and their steps may be taken in any order. The
disk is a tree, all paths are plain, and no file of one generator is where another one needs a directory.

Then what a generator does is what it would do alone, and all of it together is what the generators would do
one after the other (`Isolated`), under one condition that is also necessary (`isolated_iff`): a directory
whose path ends in a dot must not be there only because another generator has made it. It is not made for
its own generator, which fails without it: `a/.` is looked up before `a` is created.
-/

namespace GraphqlCodegen.Generator

open Disk (EndsInDot IsName IsTree Plain placeOf)

variable {input : SchemaInput} {o : Options} {d d' : Disk} {st' : Generator → Progress}

/-- What a generator comes to if it writes alone. -/
def alone (input : SchemaInput) (o : Options) (d : Disk) (g : Generator) : Disk × Progress := (g.begin input o).finish d

/-- The generators have written as each of them would alone, and as they would one after the other. -/
structure Isolated (input : SchemaInput) (o : Options) (d d' : Disk) (st' : Generator → Progress) : Prop where
  disk : ∀ place, d'.get? place = (generateAll all input o d).1.get? place
  results : (requested o).map (fun g => (st' g).result) =
    (finishAll d ((requested o).map (·.begin input o))).2.map Progress.result
  resultsAlone : ∀ g ∈ requested o, (st' g).result = (g.alone input o d).2.result
  changed : ∀ g ∈ requested o, ∀ place, (g.alone input o d).1.get? place ≠ d.get? place →
    d'.get? place = (g.alone input o d).1.get? place
  unchanged : ∀ place, (∀ g ∈ requested o, (g.alone input o d).1.get? place = d.get? place) → d'.get? place = d.get? place
  written : (Report.ofResults ((requested o).map fun g => (st' g).result)).written =
    (requested o).flatMap fun g => if (g.alone input o d).2.failure = none then (g.files input o).map Artifact.path else []
  failures : (Report.ofResults ((requested o).map fun g => (st' g).result)).failures =
    (requested o).filterMap fun g => (g.alone input o d).2.failure

/-- All files are put behind plain paths, and none where another generator needs a directory. -/
structure Placed (input : SchemaInput) (o : Options) : Prop where
  plain : ∀ g ∈ requested o, ∀ a ∈ g.files input o, Plain a.directory
  above : ∀ g ∈ requested o, ∀ h ∈ requested o, g ≠ h → ∀ a ∈ g.files input o, ∀ b ∈ h.files input o,
    ¬placeOf a.path <+: placeOf b.directory

theorem Placed.separate (h : Placed input o) : Separate (requested o) (files input o) where
  plain := h.plain
  named g _ _ ha := (filename_spec o g _ (mem_files ha).1).1
  places _ _ _ _ hne _ ha _ hb := place_ne hne (mem_files ha).1 (mem_files hb).1
  above := h.above

/-- A generator that has not failed has written all its files. -/
theorem alone_written {g : Generator} (h : (g.alone input o d).2.failure = none) :
    (g.alone input o d).2.written = (g.files input o).map Artifact.path := by
  have hsound : Sound (g.alone input o d).1 (g.begin input o) (g.alone input o d).2 :=
    Sound.finishWithin (begin_targets_nodup input o g) _ (Sound.start begin_stopped)
  obtain ⟨h0, steps, hp, hw, -⟩ := hsound.taken h
  have hdone : (g.alone input o d).2.pending = [] := Progress.finish_pending _ _
  obtain ⟨as, -, hb⟩ := begin_ok h0
  rw [hdone, List.append_nil, begin_pending] at hp
  rw [hw, ← hp, Artifact.completed_steps, hb]
  rfl

theorem result_alone (input : SchemaInput) (o : Options) (d : Disk) (g : Generator) :
    (g.alone input o d).2.result.toOption.getD [] =
      if (g.alone input o d).2.failure = none then (g.files input o).map Artifact.path else [] := by
  cases hf : (g.alone input o d).2.failure with
  | none => rw [Progress.result_ok hf, alone_written hf]; rfl
  | some f => rw [Progress.result, hf]; rfl

/-- If no directory is found by chance, the steps of the generators may be taken in any order. -/
theorem isolated (ht : IsTree d) (hp : Placed input o) (hf : Found (requested o) (files input o) d (begin input o))
    (h : Interleaves (requested o) d (begin input o) d' st') : Isolated input o d d' st' := by
  have hpend : ∀ g ∈ requested o, (g.begin input o).pending = (g.files input o).flatMap Artifact.steps :=
    fun g _ => begin_pending input o g
  obtain ⟨halone, hover⟩ := h.as_alone ht hp.separate hpend hf
  obtain ⟨st₁, hrun, hres, -⟩ := @Interleaves.of_finishAll _ _ (requested o) (requested o) d (begin input o) (fun _ hg => hg)
    (requested_nodup o) fun g hg hng => absurd hg hng
  obtain ⟨halone₁, hover₁⟩ := hrun.as_alone ht hp.separate hpend hf
  have hresult : ∀ g ∈ requested o, (st' g).result = (g.alone input o d).2.result := fun g hg => by rw [halone g hg]; rfl
  refine ⟨hover.unique hover₁, ?_, hresult, hover.changed, hover.unchanged, ?_, ?_⟩
  · rw [show (requested o).map (·.begin input o) = (requested o).map (begin input o) from rfl, ← hres, List.map_map]
    exact List.map_congr_left fun g hg => by rw [Function.comp_apply, halone g hg, halone₁ g hg]
  · rw [Report.written_ofResults, List.flatMap_map]
    exact List.flatMap_congr fun g hg => by rw [hresult g hg, result_alone]
  · rw [Report.failures_ofResults, List.filterMap_map]
    exact List.filterMap_congr fun g hg => by
      rw [Function.comp_apply, hresult g hg, Progress.failure?_result]

/-! ## A path that ends in a dot -/

theorem not_endsInDot_bindings (o : Options) : ¬EndsInDot (bindingsDirectory o) := by
  have hz : IsName "zeus" := by decide
  rw [EndsInDot, bindingsDirectory, Disk.namesOf_join hz, List.getLast?_concat]
  decide

/-- Only a generator with one file can be told a path that ends in a dot. -/
theorem files_of_endsInDot {g : Generator} {a : Artifact} (ha : a ∈ g.files input o) (hdot : EndsInDot a.directory) :
    g.files input o = [a] := by
  obtain ⟨hd, hlen, -⟩ := mem_files ha
  have hone : (g.destinations o).length ≤ 1 := by
    cases g with
    | schemaCopy => cases hg : o.graphql <;> simp [destinations, hg]
    | jsonSchema => cases hg : o.jsonSchema <;> simp [destinations, hg]
    | typedDocument => simp [destinations]
    | bindings =>
      refine absurd hdot ?_
      simp only [destinations, List.map_cons, List.map_nil, List.mem_cons, List.not_mem_nil, or_false] at hd
      rw [Artifact.directory]
      rcases hd with hd | hd <;> rw [hd] <;> exact not_endsInDot_bindings o
  cases hf : g.files input o with
  | nil => rw [hf] at ha; cases ha
  | cons b rest =>
    rw [hf] at ha hlen
    obtain rfl : rest = [] := List.eq_nil_of_length_eq_zero (by simp only [List.length_cons] at hlen; omega)
    rw [List.mem_singleton.1 ha]

theorem finish_one_failed {a : Artifact} {e : Disk.Error} (h : (d.makeDirectories a.directory).2 = some e) :
    ((Progress.start [a]).finish d).2.failure = some (.unwritable a.directory e) := by
  have hs : ((Step.makeDirectories a.directory).take d).2 = some (.unwritable a.directory e) := by
    rw [Step.take]
    simp only [h, Option.map_some]
  rw [Progress.finish_failed rfl hs]

theorem finish_one_made {a : Artifact} (hne : a.path ≠ a.directory) (h : (d.makeDirectories a.directory).2 = none) (e : Disk.Error) :
    ((Progress.start [a]).finish d).2.failure ≠ some (.unwritable a.directory e) := by
  have hs : ((Step.makeDirectories a.directory).take d).2 = none := by
    rw [Step.take]
    simp only [h, Option.map_none]
  rw [Progress.finish_ok rfl hs]
  generalize ((Step.makeDirectories a.directory).take d).1 = d₁
  cases hw : d₁.write a.path a.content with
  | ok d₂ =>
    have hs' : ((Step.writeFile a.path a.content).take d₁).2 = none := by rw [Step.take, hw]
    rw [Progress.finish_ok rfl hs', Progress.finish_done rfl]
    intro he
    cases he
  | error e' =>
    have hs' : ((Step.writeFile a.path a.content).take d₁).2 = some (.unwritable a.path e') := by rw [Step.take, hw]
    rw [Progress.finish_failed rfl hs']
    intro he
    injection he with he
    injection he with hpath
    exact hne hpath

/-- If the order makes no difference, no directory is found by chance. -/
theorem found_of_isolated (ht : IsTree d) (hp : Placed input o)
    (hall : ∀ d' st', Interleaves (requested o) d (begin input o) d' st' → Isolated input o d d' st') :
    Found (requested o) (files input o) d (begin input o) := by
  intro g hg h hh hne a ha hdot hdir
  refine Classical.byContradiction fun hno => ?_
  have hplain := hp.plain g hg a ha
  have hbegin : g.begin input o = Progress.start [a] := by rw [(mem_files ha).2.2, files_of_endsInDot ha hdot]
  have hpath : a.path ≠ a.directory := by
    intro he
    have hplace := (mem_files ha).1 |> filename_spec o g _ |>.1 |> Destination.placeOf_path
    rw [show a.destination.path = a.directory from he] at hplace
    simpa using congrArg List.length hplace
  -- the other generator writes first, and then this one
  obtain ⟨d', st', hrun, hst⟩ := Interleaves.exists_second hg hh hne (requested_nodup o) d (begin input o)
  have hsame := congrArg failure? ((hall d' st' hrun).resultsAlone g hg)
  rw [Progress.failure?_result, Progress.failure?_result, hst, alone, hbegin] at hsame
  cases hm : (d.makeDirectories a.directory).2 with
  | none => exact hno (Disk.isDirectory_of_makeDirectories ht hplain hdot hm)
  | some e =>
    have hmade := Disk.makeDirectories_isDirectory (Progress.finish_tree ht _) hplain hdir
    exact finish_one_made hpath (by rw [hmade]) e (hsame.trans (finish_one_failed hm))

/-- The steps of the generators may be taken in any order just if no directory behind a dot is found only
because another generator has made it. -/
theorem isolated_iff (ht : IsTree d) (hp : Placed input o) :
    (∀ d' st', Interleaves (requested o) d (begin input o) d' st' → Isolated input o d d' st') ↔
      Found (requested o) (files input o) d (begin input o) :=
  ⟨found_of_isolated ht hp, fun hf _ _ h => isolated ht hp hf h⟩

/-! ## A run in which the order makes a difference -/

instance (path : String) : Decidable (Plain path) :=
  decidable_of_iff (Disk.Path.isAbsolute path.toList = false ∧ ".." ∉ Disk.namesOf path) ⟨fun h => ⟨h.1, h.2⟩, fun h => ⟨h.1, h.2⟩⟩

/-- It can be read off the options that the files are placed well. -/
theorem placed_of_destinations (hp : ∀ t ∈ requestedDestinations o, Plain t.directory)
    (ha : ∀ g ∈ requested o, ∀ h ∈ requested o, g ≠ h → ∀ s ∈ g.destinations o, ∀ t ∈ h.destinations o,
      ¬placeOf s.path <+: placeOf t.directory) : Placed input o where
  plain g hg _ ha := hp _ (List.mem_flatMap.2 ⟨g, hg, (mem_files ha).1⟩)
  above g hg h hh hne _ hx _ hy := ha g hg h hh hne _ (mem_files hx).1 _ (mem_files hy).1

theorem isTree_empty : IsTree Disk.empty := Disk.isTree_of_entries nofun

def petInput : SchemaInput :=
  ⟨"type Query { pet: ID }", ⟨[⟨"Query", none, .object [] [⟨"pet", none, .named "ID", []⟩]⟩], ⟨some "Query", none, none⟩⟩, .path "pets"⟩

/-- The schema is copied to `a`, and the JSON Schema goes to `a/.`. -/
def dotOptions : Options where
  source := some "pets"
  outputDir := "out"
  headers := []
  method := .post
  environment := .browser
  moduleStyle := .commonJs
  constEnums := false
  transport := .legacy
  graphql := some "a"
  jsonSchema := some "a/."
  typedDocumentNode := false
  saveOnInput := false

example : readSchema petInput.text = .ok petInput.tree := by decide +kernel

theorem isolated_iff_dot : IsTree Disk.empty ∧ Placed petInput dotOptions ∧
    ¬∀ d' st', Interleaves (requested dotOptions) Disk.empty (begin petInput dotOptions) d' st' →
      Isolated petInput dotOptions Disk.empty d' st' := by
  have hp : Placed petInput dotOptions := placed_of_destinations (by decide +kernel) (by decide +kernel)
  refine ⟨isTree_empty, hp, fun hall => ?_⟩
  have hf := (isolated_iff isTree_empty hp).1 hall
  have hfiles : (Generator.jsonSchema.files petInput dotOptions).map Artifact.directory = ["a/."] := by decide +kernel
  obtain ⟨a, ha, hdir⟩ := List.mem_map.1 (show "a/." ∈ (Generator.jsonSchema.files petInput dotOptions).map Artifact.directory by
    rw [hfiles]; exact List.mem_singleton_self _)
  have hfound := hf .jsonSchema (by decide) .schemaCopy (by decide) (by decide) a ha
  rw [hdir] at hfound
  have hnone := hfound (by rw [EndsInDot]; decide) (by decide +kernel)
  exact absurd hnone (by decide)

end GraphqlCodegen.Generator
