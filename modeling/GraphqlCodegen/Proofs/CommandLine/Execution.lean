import Mathlib.Data.List.Basic
import GraphqlCodegen.CommandLine.Command
import GraphqlCodegen.Proofs.Generator.Steps

/-!
# What a command may leave behind

While a command is carried out, the source is saved beside everything else: some of the steps of saving
come before the schema is read, and the others come in between the steps of the generators, which
write side by side as well (`Executes`). Carrying the command out step after step is one way to do so
(`executes_execute`).

Whatever the order, a command that ends with the code for success has left every file of every
generator that was asked for (`execute_artifacts`).
-/

namespace GraphqlCodegen

open Disk (Stands placeOf)

/-! ## Saving -/

/-- The steps before a file of settings is written. -/
def Settings.prepareSteps (path : String) : List Step :=
  match Disk.Path.parent path with
  | none | some "" => []
  | some directory => [.makeDirectories directory]

theorem Settings.prepare_cases (path : String) :
    (∀ d, prepare d path = (d, none)) ∧ prepareSteps path = [] ∨
      ∃ directory, (∀ d, prepare d path = ((d.makeDirectories directory).1,
        (d.makeDirectories directory).2.map (.directory directory))) ∧ prepareSteps path = [.makeDirectories directory] := by
  unfold prepare prepareSteps
  cases hp : Disk.Path.parent path with
  | none => exact .inl ⟨fun _ => rfl, rfl⟩
  | some directory =>
    by_cases hd : directory = ""
    · subst hd; exact .inl ⟨fun _ => rfl, rfl⟩
    · refine .inr ⟨directory, fun d => ?_, ?_⟩
      · split <;> simp_all
      · split <;> simp_all

theorem write_finish (d : Disk) (path text : String) (written : List String) :
    ((⟨[.writeFile path text], written, none⟩ : Progress).finish d).1 =
      match d.write path text with
      | .ok d' => d'
      | .error _ => d := by
  cases hs : ((Step.writeFile path text).take d).2 with
  | none => rw [Progress.finish_ok rfl hs, Progress.finish_done rfl, Step.take]; cases d.write path text <;> rfl
  | some f => rw [Progress.finish_failed rfl hs, Step.take]; cases d.write path text <;> rfl

theorem Settings.save_finish (d : Disk) (path : String) (document : Toml.Document) :
    ((⟨prepareSteps path ++ [.writeFile path document.text], [], none⟩ : Progress).finish d).1 = (save d path document).1 := by
  rcases prepare_cases path with ⟨hp, hs⟩ | ⟨directory, hp, hs⟩
  · rw [hs, List.nil_append, write_finish, save, hp]
    simp only
    cases d.write path document.text <;> rfl
  · rw [hs, List.singleton_append, save, hp]
    cases hm : d.makeDirectories directory with
    | mk d' failure =>
      cases failure with
      | some e =>
        have ht : ((Step.makeDirectories directory).take d).2 = some (.unwritable directory e) := by
          rw [Step.take, hm]; rfl
        rw [Progress.finish_failed rfl ht, Step.take, hm]
        rfl
      | none =>
        have ht : ((Step.makeDirectories directory).take d).2 = none := by rw [Step.take, hm]; rfl
        rw [Progress.finish_ok rfl ht, Step.take, hm, write_finish]
        simp only [Option.map_none]
        cases d'.write path document.text <;> rfl

/-- The steps by which a source is remembered. Nobody looks at how they end. -/
def Resolved.saving (r : Resolved) (s : Settings) (saveOnInput : Bool) : Progress :=
  if r.needsSaving s saveOnInput then
    match s with
    | .memory _ => ⟨[], [], none⟩
    | .file path document =>
      ⟨Settings.prepareSteps path ++ [.writeFile path (document.set sourceKey r.source.text).text], [], none⟩
  else ⟨[], [], none⟩

/-- Saving comes to what its steps do. -/
theorem Resolved.saving_finish (r : Resolved) (s : Settings) (saveOnInput : Bool) (d : Disk) :
    ((r.saving s saveOnInput).finish d).1 = (r.remember s d saveOnInput).2 := by
  unfold saving remember
  split
  · cases s with
    | memory values => rfl
    | file path document => exact Settings.save_finish d path _
  · rfl

/-! ## Runs -/

/-- What writes during a run: the source is saved, and each generator writes its files. -/
def writers (saving : Progress) (input : SchemaInput) (o : Options) : Option Generator → Progress
  | none => saving
  | some g => g.begin input o

/-- The writers of a run: nothing or a generator that is asked for. -/
def writersOf (o : Options) : List (Option Generator) := none :: (Generator.requested o).map some

/-- The disk after some steps of saving. -/
def Resolved.saved (r : Resolved) (w : Surroundings) (o : Options) (n : Nat) : Disk × Progress :=
  Progress.finishWithin n w.disk (r.saving w.settings o.saveOnInput)

/-- What a run may come to. The source may be saved at any time. -/
inductive Runs (o : Options) (w : Surroundings) : Outcome → Prop
  | unresolved {f : Failure} : resolve o.source w.settings = .error f → Runs o w ⟨.error f, w.settings, w.disk, []⟩
  | failed {r : Resolved} {f : Failure} (n : Nat) : resolve o.source w.settings = .ok r →
    schemaInput w.endpoint (r.saved w o n).1 r.source o = .error f →
      Runs o w ⟨.error f, (r.remember w.settings w.disk o.saveOnInput).1,
        ((r.saved w o n).2.finish (r.saved w o n).1).1, requestFor r.source o⟩
  | finished {r : Resolved} {input : SchemaInput} {d : Disk} {st : Option Generator → Progress} (n : Nat) :
    resolve o.source w.settings = .ok r → schemaInput w.endpoint (r.saved w o n).1 r.source o = .ok input →
      Interleaves (writersOf o) (r.saved w o n).1 (writers (r.saved w o n).2 input o) d st →
        Runs o w ⟨.ok (.ofResults ((Generator.requested o).map fun g => (st (some g)).result)),
          (r.remember w.settings w.disk o.saveOnInput).1, d, requestFor r.source o⟩

theorem writersOf_nodup (o : Options) : (writersOf o).Nodup := by
  refine List.nodup_cons.2 ⟨by simp, ?_⟩
  exact List.pairwise_map.2 ((Generator.requested_nodup o).imp fun hne he => hne (Option.some.inj he))

/-- One thing after the other is one way to run. -/
theorem runs_run (o : Options) (w : Surroundings) : Runs o w (run o w) := by
  unfold run runWith
  cases hr : resolve o.source w.settings with
  | error f => exact .unresolved hr
  | ok r =>
    -- all steps of saving come first
    let n := (r.saving w.settings o.saveOnInput).pending.length
    have hd : (r.saved w o n).1 = (r.remember w.settings w.disk o.saveOnInput).2 := r.saving_finish _ _ _
    have hp : (r.saved w o n).2.pending = [] := Progress.finish_pending _ _
    simp only
    cases hi : schemaInput w.endpoint (r.remember w.settings w.disk o.saveOnInput).2 r.source o with
    | error f =>
      have h := Runs.failed n hr (by rw [hd]; exact hi)
      rwa [Progress.finish_done hp, hd] at h
    | ok input =>
      have hsub : ∀ x ∈ (Generator.requested o).map some, x ∈ writersOf o := fun x hx => List.mem_cons_of_mem _ hx
      have hrest : ∀ x ∈ writersOf o, x ∉ (Generator.requested o).map some →
          (writers (r.saved w o n).2 input o x).pending = [] := by
        intro x hx hn
        rcases List.mem_cons.1 hx with rfl | hx
        · exact hp
        · exact absurd hx hn
      obtain ⟨st, hrun, hres, -⟩ := Interleaves.of_finishAll (d := (r.saved w o n).1) hsub
        (List.nodup_cons.1 (writersOf_nodup o)).2 hrest
      have h := Runs.finished n hr (by rw [hd]; exact hi) hrun
      rw [List.map_map, List.map_map] at hres
      have hresults : ((Generator.requested o).map fun g => (st (some g)).result) =
          (finishAll (r.saved w o n).1 ((Generator.requested o).map (·.begin input o))).2.map Progress.result := by
        rw [← show _ = (finishAll (r.saved w o n).1 ((Generator.requested o).map (·.begin input o))).2 from hres, List.map_map]
        rfl
      rw [hresults, List.map_map, hd] at h
      exact h

/-! ## Files of a run -/

/-- Saving writes to the place of the settings, if it writes at all. -/
theorem Settings.saving_targets (path : String) (document : Toml.Document) (r : Resolved) (saveOnInput : Bool) :
    (r.saving (.file path document) saveOnInput).pending.filterMap Step.target = [] ∨
      (r.saving (.file path document) saveOnInput).pending.filterMap Step.target = [placeOf path] := by
  unfold Resolved.saving
  split
  · right
    simp only
    rcases prepare_cases path with ⟨-, hp⟩ | ⟨directory, -, hp⟩ <;> rw [hp] <;> rfl
  · exact .inl rfl

theorem Settings.saving_target {path : String} {document : Toml.Document} {r : Resolved} {saveOnInput : Bool} {s : Step}
    (hs : s ∈ (r.saving (.file path document) saveOnInput).pending) {place : Disk.Place} (ht : s.target = some place) :
    place = placeOf path := by
  have hm := List.mem_filterMap.2 ⟨s, hs, ht⟩
  rcases saving_targets path document r saveOnInput with h | h <;> rw [h] at hm
  · cases hm
  · exact List.mem_singleton.1 hm

theorem Settings.saving_targets_nodup (path : String) (document : Toml.Document) (r : Resolved) (saveOnInput : Bool) :
    ((r.saving (.file path document) saveOnInput).pending.filterMap Step.target).Nodup := by
  rcases saving_targets path document r saveOnInput with h | h <;> rw [h]
  · exact List.nodup_nil
  · exact List.pairwise_singleton _ _

/-- The writers of a run keep apart if the settings are none of the files. -/
theorem writers_apart {path : String} {document : Toml.Document} {r : Resolved} {input : SchemaInput} {o : Options} {d : Disk}
    {saving : Progress} (hsound : Sound d (r.saving (.file path document) o.saveOnInput) saving)
    (hpath : ∀ t ∈ Generator.requestedDestinations o, placeOf t.path ≠ placeOf path) :
    Apart (writersOf o) (writers saving input o) := by
  have hmem : ∀ {g : Generator}, some g ∈ writersOf o → g ∈ Generator.requested o := by
    intro g hg
    rcases List.mem_cons.1 hg with hg | hg
    · cases hg
    · obtain ⟨g', hg', he⟩ := List.mem_map.1 hg
      rwa [← Option.some.inj he]
  have hdest : ∀ {g : Generator} {t : Destination}, some g ∈ writersOf o → t ∈ g.destinations o →
      t ∈ Generator.requestedDestinations o := fun hg ht => List.mem_flatMap.2 ⟨_, hmem hg, ht⟩
  refine ⟨fun i hi => ?_, fun i hi j hj hij s hs t ht place hsp htp => ?_⟩
  · cases i with
    | none => exact hsound.targets_nodup (Settings.saving_targets_nodup path document r o.saveOnInput)
    | some g => exact Generator.begin_targets_nodup input o g
  · cases i with
    | none =>
      cases j with
      | none => exact hij rfl
      | some h =>
        obtain ⟨x, hx, he⟩ := Generator.begin_target ht htp
        have hp := Settings.saving_target (hsound.mem_pending hs) hsp
        exact hpath x (hdest hj hx) (he.symm.trans hp)
    | some g =>
      obtain ⟨x, hx, he⟩ := Generator.begin_target hs hsp
      cases j with
      | none => exact hpath x (hdest hi hx) (he.symm.trans (Settings.saving_target (hsound.mem_pending ht) htp))
      | some h =>
        obtain ⟨y, hy, he'⟩ := Generator.begin_target ht htp
        exact Generator.place_ne (fun hgh => hij (by rw [hgh])) hx hy (he.symm.trans he')

/-- The settings of a run that started from a file are sound however many steps of saving were taken. -/
theorem saved_sound (path : String) (document : Toml.Document) (d : Disk) (e : Http.Endpoint) (r : Resolved) (o : Options)
    (n : Nat) : Sound (r.saved ⟨.file path document, d, e⟩ o n).1 (r.saving (.file path document) o.saveOnInput)
      (r.saved ⟨.file path document, d, e⟩ o n).2 := by
  refine Sound.finishWithin (Settings.saving_targets_nodup path document r o.saveOnInput) n (Sound.start fun hf => ?_)
  unfold Resolved.saving at hf ⊢
  split at hf <;> exact absurd rfl hf

/-- All writers have finished and no generator has failed: every file is there, and all are reported. -/
theorem writers_stand {saving : Progress} {input : SchemaInput} {o : Options} {d d' : Disk} {st : Option Generator → Progress}
    (hrun : Interleaves (writersOf o) d (writers saving input o) d' st) (hap : Apart (writersOf o) (writers saving input o))
    (hsaving : saving.failure ≠ none → saving.pending = [])
    (hok : (Report.ofResults ((Generator.requested o).map fun g => (st (some g)).result)).isSuccess = true) :
    ∃ artifacts : Generator → List Artifact, (∀ g ∈ Generator.requested o, g.artifacts input o = .ok (artifacts g) ∧
      ∀ x ∈ artifacts g, Stands d' x.path x.content) ∧
        (Report.ofResults ((Generator.requested o).map fun g => (st (some g)).result)).written =
          (Generator.requested o).flatMap fun g => (artifacts g).map Artifact.path := by
  have hfail : ∀ g ∈ Generator.requested o, (st (some g)).failure = none := by
    intro g hg
    rw [Report.isSuccess, List.isEmpty_iff, Report.failures_ofResults, List.filterMap_eq_nil_iff] at hok
    rw [← Progress.failure?_result]
    exact hok _ (List.mem_map_of_mem hg)
  have hstopped : ∀ i ∈ writersOf o, (writers saving input o i).failure ≠ none → (writers saving input o i).pending = [] := by
    intro i _ hf
    cases i with
    | none => exact hsaving hf
    | some g => exact Generator.begin_stopped hf
  have hstands := hrun.stands hstopped hap
  have hone : ∀ g ∈ Generator.requested o, g.artifacts input o = .ok (g.files input o) ∧
      (∀ x ∈ g.files input o, Stands d' x.path x.content) ∧ (st (some g)).written = (g.files input o).map Artifact.path := by
    intro g hg
    obtain ⟨h0, hw, hs⟩ := hstands (some g) (List.mem_cons_of_mem _ (List.mem_map_of_mem hg)) (hfail g hg)
    obtain ⟨as, ha, hb⟩ := Generator.begin_ok h0
    rw [writers, hb] at hw hs
    rw [Generator.files, ha]
    refine ⟨rfl, fun x hx => hs x.path x.content (Artifact.mem_steps hx), ?_⟩
    rw [hw]
    exact Artifact.completed_steps as
  refine ⟨fun g => g.files input o, fun g hg => ⟨(hone g hg).1, (hone g hg).2.1⟩, ?_⟩
  rw [Report.written_ofResults, List.flatMap_map]
  refine List.flatMap_congr fun g hg => ?_
  rw [Progress.result_ok (hfail g hg)]
  exact (hone g hg).2.2

namespace CommandLine

/-- What a command leaves behind after a run. -/
def Exit.ofOutcome (outcome : Outcome) : Exit :=
  match outcome.result with
  | .error failure => ⟨1, "", linesText [fatalLine failure], outcome.disk, outcome.requests⟩
  | .ok report => ⟨if report.isSuccess then 0 else 1, linesText (report.written.map writtenLine),
      linesText (report.failures.map Failure.message), outcome.disk, outcome.requests⟩

theorem execute_eq (a : Arguments) (d : Disk) (e : Http.Endpoint) :
    execute a d e = .ofOutcome (run a.options ⟨Settings.load d a.settingsPath, d, e⟩) := rfl

/-- What carrying out arguments may come to. -/
def Executes (a : Arguments) (d : Disk) (e : Http.Endpoint) (exit : Exit) : Prop :=
  ∃ outcome, Runs a.options ⟨Settings.load d a.settingsPath, d, e⟩ outcome ∧ exit = .ofOutcome outcome

theorem executes_execute (a : Arguments) (d : Disk) (e : Http.Endpoint) : Executes a d e (execute a d e) :=
  ⟨_, runs_run _ _, execute_eq a d e⟩

/-- No two files of the generators that are asked for have one place, and in whatever order the steps of
a command are taken: if it ends with the code for success, a schema was read, every file that these generators
make of it is there with its content, and the output names these files one by one in the order of the
generators. -/
theorem execute_artifacts (a : Arguments) (d : Disk) (e : Http.Endpoint) : Executes a d e (execute a d e) ∧
    ((Generator.requestedDestinations a.options).map fun t => placeOf t.path).Nodup ∧
    ∀ exit, Executes a d e exit → exit.exitCode = 0 →
      (∀ t ∈ Generator.requestedDestinations a.options, placeOf t.path ≠ placeOf a.settingsPath) →
        ∃ r n input, ∃ artifacts : Generator → List Artifact,
          resolve a.options.source (Settings.load d a.settingsPath) = .ok r ∧
          schemaInput e (r.saved ⟨Settings.load d a.settingsPath, d, e⟩ a.options n).1 r.source a.options = .ok input ∧
          (∀ g ∈ Generator.requested a.options, g.artifacts input a.options = .ok (artifacts g) ∧
            ∀ x ∈ artifacts g, exit.disk.readText x.path = .ok x.content) ∧
          ((Generator.requested a.options).flatMap artifacts).map Artifact.destination =
            Generator.requestedDestinations a.options ∧
          exit.stdout = linesText (((Generator.requested a.options).flatMap artifacts).map fun x => writtenLine x.path) := by
  refine ⟨executes_execute a d e, Generator.places_nodup a.options, ?_⟩
  rintro exit ⟨outcome, hrun, rfl⟩ hcode hpath
  cases hrun with
  | unresolved _ => cases hcode
  | failed n _ _ => cases hcode
  | @finished r input d' st n hr hi hwrite =>
    obtain ⟨document, hload⟩ : ∃ document, Settings.load d a.settingsPath = .file a.settingsPath document := ⟨_, rfl⟩
    have hsound := saved_sound a.settingsPath document d e r a.options n
    rw [← hload] at hsound
    have hok : (Report.ofResults ((Generator.requested a.options).map fun g => (st (some g)).result)).isSuccess = true := by
      simp only [Exit.ofOutcome] at hcode
      split at hcode
      · assumption
      · cases hcode
    obtain ⟨artifacts, hart, hwritten⟩ := writers_stand hwrite (writers_apart hsound hpath) hsound.stopped hok
    refine ⟨r, n, input, artifacts, hr, hi, fun g hg => ⟨(hart g hg).1, fun x hx => ((hart g hg).2 x hx).readText⟩, ?_, ?_⟩
    · rw [List.map_flatMap]
      exact List.flatMap_congr fun g hg => Generator.artifacts_ok (hart g hg).1
    · simp only [Exit.ofOutcome]
      rw [hwritten, List.map_flatMap, List.map_flatMap]
      congr 1
      exact List.flatMap_congr fun g _ => by rw [List.map_map]; rfl

/-- The copy of the schema goes beside the client. -/
def petArguments : Arguments := ⟨[.noSave], [(.source, "pets"), (.outputDir, "out"), (.graphql, "out/zeus")]⟩

def petDisk : Disk := ⟨[(["pets"], .file "type Query { pet: ID }".toUTF8)]⟩

theorem execute_artifacts_pets : (execute petArguments petDisk fun _ => none).exitCode = 0 ∧
    (Generator.requestedDestinations petArguments.options).map Destination.path =
      ["out/zeus/schema.graphql", "out/zeus/const.ts", "out/zeus/index.ts"] ∧
    ∀ t ∈ Generator.requestedDestinations petArguments.options,
      ∃ text, (execute petArguments petDisk fun _ => none).disk.readText t.path = .ok text := by
  have hcode : (execute petArguments petDisk fun _ => none).exitCode = 0 := by decide +kernel
  obtain ⟨-, -, h⟩ := execute_artifacts petArguments petDisk fun _ => none
  obtain ⟨_, _, _, artifacts, _, _, hart, hdest, -⟩ := h _ (executes_execute _ _ _) hcode (by decide +kernel)
  refine ⟨hcode, by decide +kernel, fun t ht => ?_⟩
  rw [← hdest] at ht
  obtain ⟨x, hx, rfl⟩ := List.mem_map.1 ht
  obtain ⟨g, hg, hx⟩ := List.mem_flatMap.1 hx
  exact ⟨x.content, (hart g hg).2 x hx⟩

end CommandLine
end GraphqlCodegen
