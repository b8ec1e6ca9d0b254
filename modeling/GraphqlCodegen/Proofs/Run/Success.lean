import Mathlib.Data.List.Nodup
import GraphqlCodegen.Proofs.Run.Fatality
import GraphqlCodegen.Proofs.Writing.Keeping

/-!
# Runs without failures

A run whose report has no failure has read a schema and written every file that its generators make of it (`Succeeded`,
`Runs.succeeded`). At a place where the source is saved there may be something else in the end (`SavesAt`).

A run cannot fail where all its files are there already and the generators can make them (`Runs.succeeded_of_held`).
-/

namespace GraphqlCodegen

open Disk (Held IsName Stands placeOf)

variable {o : Options} {w : Surroundings} {outcome : Outcome} {input : SchemaInput} {report : Report} {r : Resolved}

/-- The run saves its source, and this is the place of the file. -/
def SavesAt (o : Options) (w : Surroundings) (place : Disk.Place) : Prop :=
  ∃ r, resolve o.source w.settings = .ok r ∧ r.needsSaving w.settings o.saveOnInput = true ∧ w.settings.place? = some place

/-- Settings in memory are saved nowhere. -/
theorem not_savesAt_memory {values : Entries String} {d : Disk} {e : Http.Endpoint} {place : Disk.Place} :
    ¬SavesAt o ⟨.memory values, d, e⟩ place :=
  fun ⟨_, _, _, hplace⟩ => absurd hplace nofun

/-- The run has read its schema, made all files of it and reported them. -/
structure Succeeded (o : Options) (w : Surroundings) (input : SchemaInput) (outcome : Outcome) : Prop where
  read : ∃ r n, resolve o.source w.settings = .ok r ∧ schemaInput w.endpoint (r.saved w o n).1 r.source o = .ok input
  artifacts : ∀ g ∈ Generator.requested o, g.artifacts input o = .ok (g.files input o)
  result : outcome.result = .ok ⟨(Generator.requestedDestinations o).map Destination.path, []⟩
  held : ∀ t ∈ Generator.requestedDestinations o, Held outcome.disk t.path
  stands : ∀ g ∈ Generator.requested o, ∀ x ∈ g.files input o, ¬SavesAt o w (placeOf x.path) →
    Stands outcome.disk x.path x.content
  /-- The file of the schema is there as it was read, if nothing else was written to it. -/
  source : ∀ path, input.source = .path path → ¬SavesAt o w (placeOf path) →
    (∀ t ∈ Generator.requestedDestinations o, placeOf t.path ≠ placeOf path) → Stands outcome.disk path input.text

/-! ## The steps of a run -/

theorem Resolved.savesAt (hr : resolve o.source w.settings = .ok r) {s : Step} {place : Disk.Place}
    (hs : s ∈ (r.saving w.settings o.saveOnInput).pending) (ht : s.target = some place) : SavesAt o w place := by
  refine ⟨r, hr, ?_, Resolved.saving_place hs ht⟩
  unfold Resolved.saving at hs
  split at hs
  · assumption
  · cases hs

theorem mem_requested_of_writersOf {g : Generator} (h : some g ∈ writersOf o) : g ∈ Generator.requested o := by
  simpa [writersOf] using h

/-- Each step of a run belongs to the saving or to a file that is made. -/
theorem mem_writers {n : Nat} {i : Option Generator} (hi : i ∈ writersOf o) {s : Step}
    (hs : s ∈ (writers (r.saved w o n).2 input o i).pending) :
    s ∈ (r.saving w.settings o.saveOnInput).pending ∨
      ∃ g ∈ Generator.requested o, i = some g ∧ ∃ x ∈ g.files input o, s ∈ x.steps := by
  cases i with
  | none => exact .inl (Progress.mem_finishWithin n hs)
  | some g =>
    rw [writers, Generator.begin_pending] at hs
    obtain ⟨x, hx, hs⟩ := List.mem_flatMap.1 hs
    exact .inr ⟨g, mem_requested_of_writersOf hi, rfl, x, hx, hs⟩

theorem Artifact.target_of_mem_steps {x : Artifact} {s : Step} (hs : s ∈ x.steps) {place : Disk.Place}
    (ht : s.target = some place) : placeOf x.path = place := by
  rcases Artifact.mem_steps_iff.1 hs with rfl | rfl
  · cases ht
  · exact Option.some.inj ht

/-- No two files of a run have one place. -/
theorem Generator.file_eq {g h : Generator} {x y : Artifact} (hx : x ∈ g.files input o) (hy : y ∈ h.files input o)
    (hp : placeOf x.path = placeOf y.path) : x = y := by
  by_cases hgh : g = h
  · subst hgh
    have hnd : ((g.files input o).map fun x => placeOf x.path).Nodup := by
      rw [← Artifact.target_steps, ← Generator.begin_pending]
      exact begin_targets_nodup input o g
    exact List.inj_on_of_nodup_map hnd hx hy hp
  · exact absurd hp (place_ne hgh (mem_files hx).1 (mem_files hy).1)

/-- What stands on the disk and is not written to by a run stands there during the run. -/
theorem mem_writers_stands {path text : String} (hr : resolve o.source w.settings = .ok r)
    (hsaves : ¬SavesAt o w (placeOf path)) (hfiles : ∀ g ∈ Generator.requested o, ∀ x ∈ g.files input o,
      placeOf x.path = placeOf path → x.path = path ∧ x.content = text) {n : Nat} :
    ∀ i ∈ writersOf o, ∀ s ∈ (writers (r.saved w o n).2 input o i).pending, ∀ d, Stands d path text →
      Stands (s.take d).1 path text := by
  intro i hi s hs d hd
  by_cases ht : s.target = some (placeOf path)
  · rcases mem_writers hi hs with hs | ⟨g, hg, -, x, hx, hs⟩
    · exact absurd (Resolved.savesAt hr hs ht) hsaves
    · obtain ⟨rfl, rfl⟩ := hfiles g hg x hx (Artifact.target_of_mem_steps hs ht)
      rcases Artifact.mem_steps_iff.1 hs with rfl | rfl
      · cases ht
      · exact Step.take_write_stands hd
  · exact Step.take_other_stands ht hd

/-! ## Reading from a file -/

theorem schemaInput_ok_iff {e : Http.Endpoint} {d : Disk} {source : Source} : schemaInput e d source o = .ok input ↔
    acquire e d source o = .ok input.text ∧ readSchema input.text = .ok input.tree ∧ input.source = source := by
  rcases schemaInput_cases e d source o with ⟨text, tree, ha, ht, h⟩ | ⟨f, -, h⟩
  · rw [h, ha]
    refine ⟨fun he => ?_, fun ⟨he, htree, hsource⟩ => ?_⟩
    · cases he
      exact ⟨rfl, ht, rfl⟩
    · cases he
      cases ht.symm.trans htree
      cases hsource
      rfl
  · refine ⟨fun he => absurd (h.symm.trans he) nofun, fun ⟨ha, ht, hsource⟩ => ?_⟩
    subst hsource
    rw [schemaInput, ha]
    simp only [bind, Except.bind, ht]
    rfl

theorem acquire_path_iff {e : Http.Endpoint} {d : Disk} {path text : String} :
    acquire e d (.path path) o = .ok text ↔ d.readText path = .ok text := by
  rw [acquire]
  cases d.readText path <;> simp [Except.mapError]

/-- However much of the source has been saved, a schema is read from its file as it stands. -/
theorem schemaInput_saved {path : String} (hr : resolve o.source w.settings = .ok r) (hpath : r.source = .path path)
    (hsaves : ¬SavesAt o w (placeOf path)) (hstands : Stands w.disk path input.text)
    (htree : readSchema input.text = .ok input.tree) (hsource : input.source = .path path) (n : Nat) :
    schemaInput w.endpoint (r.saved w o n).1 r.source o = .ok input := by
  rw [hpath, schemaInput_ok_iff, acquire_path_iff, Disk.readText_ok_iff]
  refine ⟨Progress.finishWithin_kept (P := fun d => Stands d path input.text) n (fun s hs d hd => ?_) hstands, htree, hsource⟩
  exact Step.take_other_stands (fun ht => hsaves (Resolved.savesAt hr hs ht)) hd

/-! ## Runs that succeed -/

theorem Report.failures_eq_nil_iff {gs : List Generator} {st : Option Generator → Progress} :
    (Report.ofResults (gs.map fun g => (st (some g)).result)).failures = [] ↔ ∀ g ∈ gs, (st (some g)).failure = none := by
  rw [Report.failures_ofResults, List.filterMap_map, List.filterMap_eq_nil_iff]
  exact forall₂_congr fun g _ => by rw [Function.comp_apply, Progress.failure?_result]

/-- Generators that have not failed have made their files and reported them. -/
theorem Interleaves.finished {d d' : Disk} {saving : Progress} {st : Option Generator → Progress}
    (h : Interleaves (writersOf o) d (writers saving input o) d' st)
    (hst : ∀ g ∈ Generator.requested o, (st (some g)).failure = none) :
    (∀ g ∈ Generator.requested o, g.artifacts input o = .ok (g.files input o)) ∧
      Report.ofResults ((Generator.requested o).map fun g => (st (some g)).result) =
        ⟨(Generator.requestedDestinations o).map Destination.path, []⟩ := by
  have hone : ∀ g ∈ Generator.requested o, g.artifacts input o = .ok (g.files input o) ∧
      (st (some g)).written = (g.destinations o).map Destination.path := by
    intro g hg
    obtain ⟨hreached, hpending⟩ := h.reached (some g) (List.mem_cons_of_mem _ (List.mem_map_of_mem hg))
    have hwritten := (Generator.written_cases hreached hpending).resolve_right fun hf => hf.1 (hst g hg)
    have hbegin : (g.begin input o).failure = none := by
      by_cases hf : (g.begin input o).failure = none
      · exact hf
      · have hsame : st (some g) = g.begin input o := h.same (Generator.begin_stopped hf)
        rw [← hsame, hst g hg]
    obtain ⟨as, ha, -⟩ := Generator.begin_ok hbegin
    exact ⟨by rw [Generator.files, ha]; rfl, hwritten.2⟩
  refine ⟨fun g hg => (hone g hg).1, ?_⟩
  have hwritten : (Report.ofResults ((Generator.requested o).map fun g => (st (some g)).result)).written =
      (Generator.requestedDestinations o).map Destination.path := by
    rw [Report.written_ofResults, List.flatMap_map, Generator.requestedDestinations, List.map_flatMap]
    refine List.flatMap_congr fun g hg => ?_
    rw [Progress.result_ok (hst g hg)]
    exact (hone g hg).2
  rw [← hwritten, ← Report.failures_eq_nil_iff.2 hst]

/-- A run whose report has no failure has written all its files. -/
theorem Runs.succeeded (h : Runs o w outcome) (hr : outcome.result = .ok report) (hf : report.failures = []) :
    ∃ input, Succeeded o w input outcome := by
  cases h with
  | unresolved _ => cases hr
  | failed _ _ _ => cases hr
  | @finished r input d st n hres hi hrun =>
    cases hr
    have hst := Report.failures_eq_nil_iff.1 hf
    obtain ⟨hartifacts, hreport⟩ := hrun.finished hst
    -- what the writing of one file brings about and all steps keep
    have hestablished : ∀ {P : Disk → Prop} {g x}, g ∈ Generator.requested o → x ∈ g.files input o →
        (∀ d, Stands d x.path x.content → P d) →
        (∀ i ∈ writersOf o, ∀ s ∈ (writers (r.saved w o n).2 input o i).pending, ∀ d, P d → P (s.take d).1) → P d := by
      intro P g x hg hx hP hkept
      refine hrun.established (s := .writeFile x.path x.content) (fun d hs => hP _ (Step.take_stands hs)) hkept ?_
        (List.mem_cons_of_mem _ (List.mem_map_of_mem hg)) (hst g hg)
      rw [writers, Generator.begin_pending]
      exact Artifact.mem_steps hx
    refine ⟨input, ⟨r, n, hres, hi⟩, hartifacts, by rw [hreport], fun t ht => ?_, fun g hg x hx hsaves => ?_,
      fun path hpath hsaves hfiles => ?_⟩
    · obtain ⟨g, hg, ht⟩ := List.mem_flatMap.1 ht
      rw [← Generator.artifacts_ok (hartifacts g hg)] at ht
      obtain ⟨x, hx, rfl⟩ := List.mem_map.1 ht
      exact hestablished hg hx (fun d hs => hs.held) fun _ _ s _ d hd => Step.take_held hd s
    · refine hestablished hg hx (fun d hs => hs) (mem_writers_stands hres hsaves fun g' hg' y hy hp => ?_)
      rw [Generator.file_eq hy hx hp]
      exact ⟨rfl, rfl⟩
    · obtain ⟨hread, -, hsource⟩ := schemaInput_ok_iff.1 hi
      rw [← hsource, hpath, acquire_path_iff, Disk.readText_ok_iff] at hread
      refine hrun.kept (mem_writers_stands hres hsaves fun g hg x hx hp => ?_) hread
      exact absurd hp (hfiles _ (List.mem_flatMap.2 ⟨g, hg, (Generator.mem_files hx).1⟩))

/-- A run cannot fail where all its files are there already and the generators can make them. -/
theorem Runs.succeeded_of_held (h : Runs o w outcome) (hres : resolve o.source w.settings = .ok r)
    (hi : ∀ n, schemaInput w.endpoint (r.saved w o n).1 r.source o = .ok input)
    (hartifacts : ∀ g ∈ Generator.requested o, g.artifacts input o = .ok (g.files input o))
    (hheld : ∀ t ∈ Generator.requestedDestinations o, Held w.disk t.path) : Succeeded o w input outcome := by
  have hsame : ∀ {input'}, Succeeded o w input' outcome → input' = input := by
    rintro input' ⟨⟨r', n, hres', hi'⟩, -⟩
    cases hres.symm.trans hres'
    exact Except.ok.inj ((hi' ▸ hi n :))
  suffices hok : ∃ report, outcome.result = .ok report ∧ report.failures = [] by
    obtain ⟨report, hr, hf⟩ := hok
    obtain ⟨input', hsucceeded⟩ := h.succeeded hr hf
    rwa [← hsame hsucceeded]
  cases h with
  | unresolved hres' => rw [hres] at hres'; cases hres'
  | failed n hres' hi' =>
    cases hres.symm.trans hres'
    rw [hi n] at hi'
    cases hi'
  | @finished r' input' d st n hres' hi' hrun =>
    cases hres.symm.trans hres'
    cases (hi n).symm.trans hi'
    refine ⟨_, rfl, Report.failures_eq_nil_iff.2 fun g hg => ?_⟩
    let P : Disk → Prop := fun d => ∀ t ∈ Generator.requestedDestinations o, Held d t.path
    have hkept : ∀ s : Step, ∀ d, P d → P (s.take d).1 := fun s d hd t ht => Step.take_held (hd t ht) s
    have hstart : P (r.saved w o n).1 := Progress.finishWithin_kept n (fun s _ => hkept s) hheld
    refine hrun.succeeds (P := P) (fun _ _ s _ => hkept s) (fun s hs d hd => ?_) hstart ?_
    · rw [writers, Generator.begin_pending] at hs
      obtain ⟨x, hx, hs⟩ := List.mem_flatMap.1 hs
      have hdest := (Generator.mem_files hx).1
      exact Artifact.take_held (hd _ (List.mem_flatMap.2 ⟨g, hg, hdest⟩)) (Generator.filename_spec o g _ hdest).1 hs
    · rw [writers, Generator.begin, hartifacts g hg]
      rfl

/-- So it is if the schema is in a file to which the source is not saved. -/
theorem Runs.succeeded_of_stands (h : Runs o w outcome) {path : String} (hres : resolve o.source w.settings = .ok r)
    (hpath : r.source = .path path) (hsaves : ¬SavesAt o w (placeOf path)) (hstands : Stands w.disk path input.text)
    (htree : readSchema input.text = .ok input.tree) (hsource : input.source = .path path)
    (hartifacts : ∀ g ∈ Generator.requested o, g.artifacts input o = .ok (g.files input o))
    (hheld : ∀ t ∈ Generator.requestedDestinations o, Held w.disk t.path) : Succeeded o w input outcome :=
  h.succeeded_of_held hres (schemaInput_saved hres hpath hsaves hstands htree hsource) hartifacts hheld

theorem Succeeded.readSchema (h : Succeeded o w input outcome) : readSchema input.text = .ok input.tree := by
  obtain ⟨_, _, -, hi⟩ := h.read
  exact (schemaInput_ok_iff.1 hi).2.1

end GraphqlCodegen
