import GraphqlCodegen.Proofs.CommandLine.Execution
import GraphqlCodegen.Proofs.Writing.Logs

/-!
# What a run reports and what it has written

A run that has read its schema leaves a log of the files that its generators created or overwrote, whatever the
order of their steps (`Writes`). All files that changed on the disk are in the log, the file of the
settings apart, and all files in the log are on the disk.

The report names those files unless the client's second module could not be written after its first one was: a
generator that fails is reported with its failure and without the files that it wrote before
(`report_complete_iff`). No other generator can fail with a part of its files written
(`Generator.written_cases`).
-/

namespace GraphqlCodegen

open Disk (placeOf)

/-! ## One generator -/

namespace Generator

/-- The two modules of the client. -/
def constantsFile (o : Options) : Destination := ⟨bindingsDirectory o, "const.ts"⟩

def indexFile (o : Options) : Destination := ⟨bindingsDirectory o, "index.ts"⟩

theorem destinations_bindings (o : Options) : Generator.bindings.destinations o = [constantsFile o, indexFile o] := rfl

theorem constantsFile_mem (o : Options) : constantsFile o ∈ Generator.bindings.destinations o := by
  simp [destinations_bindings]

theorem indexFile_mem (o : Options) : indexFile o ∈ Generator.bindings.destinations o := by
  simp [destinations_bindings]

theorem constantsFile_ne (o : Options) : placeOf (constantsFile o).path ≠ placeOf (indexFile o).path := by
  have hnd := own_places_nodup o .bindings
  rw [destinations_bindings] at hnd
  simpa using hnd

theorem length_destinations {o : Options} {g : Generator} (h : 1 < (g.destinations o).length) : g = .bindings := by
  cases g with
  | schemaCopy => cases hg : o.graphql <;> simp [destinations, hg] at h
  | jsonSchema => cases hg : o.jsonSchema <;> simp [destinations, hg] at h
  | typedDocument => simp [destinations] at h
  | bindings => rfl

/-- Only the client has a file in front of another one. -/
theorem eq_bindings_of_front {o : Options} {g : Generator} {front back : List Artifact} {a b : Artifact}
    (h : (a :: front ++ b :: back).map Artifact.destination = g.destinations o) :
    g = .bindings ∧ front = [] ∧ a.destination = constantsFile o := by
  have hlen := congrArg List.length h
  simp only [List.length_map, List.length_append, List.length_cons] at hlen
  obtain rfl := @length_destinations o g (by omega)
  rw [destinations_bindings] at h hlen
  simp only [List.length_cons, List.length_nil] at hlen
  obtain rfl : front = [] := List.eq_nil_of_length_eq_zero (by omega)
  exact ⟨rfl, rfl, (List.cons.inj h).1⟩

/-- A generator that has finished has written all its files; one that has failed has written none, or it is
the client and has written its constants. -/
theorem written_cases {input : SchemaInput} {o : Options} {g : Generator} {p : Progress} (h : Reached (g.begin input o) p)
    (hp : p.pending = []) :
    p.failure = none ∧ p.written = (g.destinations o).map Destination.path ∨
      p.failure ≠ none ∧ (p.written = [] ∨ g = .bindings ∧ p.written = [(constantsFile o).path]) := by
  rw [Generator.begin] at h
  cases ha : g.artifacts input o with
  | error e =>
    rw [ha] at h
    cases h with
    | behind steps hf h0 hw =>
      obtain ⟨rfl, -⟩ := List.append_eq_nil_iff.1 h0.symm
      exact .inr ⟨by rw [hf]; simp [Progress.stopped], .inl hw⟩
    | failedAt steps s rest _ _ h0 _ => simp [Progress.stopped] at h0
  | ok as =>
    rw [ha] at h
    have hd := artifacts_ok ha
    rcases h.files hp with ⟨hf, hw⟩ | ⟨hf, front, b, back, rfl, hw⟩
    · refine .inl ⟨hf, ?_⟩
      rw [hw, ← hd, List.map_map]
      rfl
    · refine .inr ⟨hf, ?_⟩
      cases front with
      | nil => exact .inl hw
      | cons a front =>
        obtain ⟨hg, rfl, hpath⟩ := eq_bindings_of_front hd
        exact .inr ⟨hg, by rw [hw, List.map_cons, Artifact.path, hpath]; rfl⟩

end Generator

/-! ## Runs and their logs -/

/-- A run that has read its schema, in whatever order its steps were taken: its report, the files that were
created or overwritten from then on, each with who did it, and the disk in the end. -/
def Writes (o : Options) (w : Surroundings) (report : Report) (log : List (Option Generator × Disk.Place)) (d' : Disk) : Prop :=
  ∃ r input n st, resolve o.source w.settings = .ok r ∧ schemaInput w.endpoint (r.saved w o n).1 r.source o = .ok input ∧
    Logs (writersOf o) (r.saved w o n).1 (writers (r.saved w o n).2 input o) log d' st ∧
      report = .ofResults ((Generator.requested o).map fun g => (st (some g)).result)

/-- The artifact files in a log. -/
def artifactsOf (log : List (Option Generator × Disk.Place)) : List Disk.Place :=
  log.filterMap fun e => e.1.map fun _ => e.2

/-- The place of the file that settings are kept in. -/
def Settings.place? : Settings → Option Disk.Place
  | .memory _ => none
  | .file path _ => some (placeOf path)

variable {o : Options} {w : Surroundings} {report : Report} {log : List (Option Generator × Disk.Place)} {d' : Disk}
  {place : Disk.Place}

theorem mem_artifactsOf : place ∈ artifactsOf log ↔ ∃ g, (some g, place) ∈ log := by
  simp only [artifactsOf, List.mem_filterMap, Option.map_eq_some_iff]
  constructor
  · rintro ⟨⟨_, _⟩, he, g, rfl, rfl⟩
    exact ⟨g, he⟩
  · rintro ⟨g, hg⟩
    exact ⟨_, hg, g, rfl, rfl⟩

/-- Every run that ends with a report leaves a log. -/
theorem Runs.writes {outcome : Outcome} (h : Runs o w outcome) (hr : outcome.result = .ok report) :
    ∃ log, Writes o w report log outcome.disk := by
  cases h with
  | unresolved _ => cases hr
  | failed _ _ _ => cases hr
  | finished n hres hi hrun =>
    obtain ⟨log, hlog⟩ := hrun.logs
    cases hr
    exact ⟨log, _, _, n, _, hres, hi, hlog, rfl⟩

theorem Resolved.saving_place {r : Resolved} {s : Step} (hs : s ∈ (r.saving w.settings o.saveOnInput).pending)
    (ht : s.target = some place) : w.settings.place? = some place := by
  cases hw : w.settings with
  | memory values => rw [hw] at hs; unfold saving at hs; split at hs <;> cases hs
  | file path document => rw [hw] at hs; rw [Settings.saving_target hs ht]; rfl

namespace Writes

theorem requested {g : Generator} (h : Writes o w report log d') (hg : (some g, place) ∈ log) : g ∈ Generator.requested o := by
  obtain ⟨r, input, n, st, -, -, hlog, -⟩ := h
  obtain ⟨hm, -⟩ := hlog.target hg
  rcases List.mem_cons.1 hm with hm | hm
  · cases hm
  · obtain ⟨g', hg', he⟩ := List.mem_map.1 hm
    rwa [← Option.some.inj he]

/-- All artifact files in the log are on the disk. -/
theorem stands (h : Writes o w report log d') (hm : place ∈ artifactsOf log) : ∃ c, d'.get? place = some (.file c) := by
  obtain ⟨r, input, n, st, -, -, hlog, -⟩ := h
  obtain ⟨g, hg⟩ := mem_artifactsOf.1 hm
  exact hlog.stands (.inl ⟨_, hg⟩)

/-- A file that a run has changed is an artifact in the log or that of the settings. -/
theorem changed {c : ByteArray} (h : Writes o w report log d') (hc : d'.get? place = some (.file c)) :
    w.disk.get? place = some (.file c) ∨ place ∈ artifactsOf log ∨ w.settings.place? = some place := by
  obtain ⟨r, input, n, st, -, -, hlog, -⟩ := h
  rcases hlog.changed hc with hd | ⟨i, hi⟩
  · -- the steps of saving that came before the schema was read
    by_cases hp : w.settings.place? = some place
    · exact .inr (.inr hp)
    · exact .inl (Progress.finishWithin_changed n (fun s hs ht => hp (Resolved.saving_place hs ht)) hd)
  · cases i with
    | some g => exact .inr (.inl (mem_artifactsOf.2 ⟨g, hi⟩))
    | none =>
      obtain ⟨-, s, hs, ht⟩ := hlog.target hi
      exact .inr (.inr (Resolved.saving_place (Progress.mem_finishWithin n hs) ht))

/-- What the log has of each generator, and that the report names it just if the generator has not failed. -/
theorem results (h : Writes o w report log d') : ∃ result : Generator → Except Failure (List String),
    report = .ofResults ((Generator.requested o).map result) ∧ ∀ g ∈ Generator.requested o,
      result g = .ok ((g.destinations o).map Destination.path) ∧
          placesOf (some g) log = (g.destinations o).map (fun t => placeOf t.path) ∨
        (∃ f, result g = .error f) ∧ (placesOf (some g) log = [] ∨
          g = .bindings ∧ placesOf (some g) log = [placeOf (Generator.constantsFile o).path]) := by
  obtain ⟨r, input, n, st, -, -, hlog, rfl⟩ := h
  refine ⟨fun g => (st (some g)).result, rfl, fun g hg => ?_⟩
  obtain ⟨hreached, hdone⟩ := hlog.interleaves.reached (some g) (List.mem_cons_of_mem _ (List.mem_map_of_mem hg))
  have hwritten : (st (some g)).written.map placeOf = placesOf (some g) log := by
    rw [hlog.written (some g)]
    rw [writers, Generator.begin]
    cases g.artifacts input o <;> rfl
  rw [← hwritten]
  rcases Generator.written_cases hreached hdone with ⟨hf, hw⟩ | ⟨hf, hw⟩
  · refine .inl ⟨(Progress.result_ok hf).trans (by rw [hw]), ?_⟩
    rw [hw, List.map_map]
    rfl
  · obtain ⟨f, hf⟩ := Option.ne_none_iff_exists'.1 hf
    refine .inr ⟨⟨f, by simp only [Progress.result, hf]⟩, ?_⟩
    rcases hw with hw | ⟨rfl, hw⟩
    · exact .inl (by rw [hw]; rfl)
    · exact .inr ⟨rfl, by rw [hw]; rfl⟩

/-- The log has of a generator what goes to its own destinations. -/
theorem owner {g g' : Generator} {t : Destination} (h : Writes o w report log d') (hg : (some g, placeOf t.path) ∈ log)
    (ht : t ∈ g'.destinations o) : g = g' := by
  obtain ⟨_, -, hres⟩ := h.results
  have hm : placeOf t.path ∈ (g.destinations o).map fun t => placeOf t.path := by
    rcases hres g (h.requested hg) with ⟨-, hl⟩ | ⟨-, hl | ⟨rfl, hl⟩⟩
    · rw [← hl]; simpa using hg
    · rw [← mem_placesOf, hl] at hg; cases hg
    · rw [← mem_placesOf, hl, List.mem_singleton] at hg
      exact List.mem_map.2 ⟨_, Generator.constantsFile_mem o, hg.symm⟩
  obtain ⟨t', ht', he⟩ := List.mem_map.1 hm
  exact Classical.byContradiction fun hne => Generator.place_ne hne ht' ht he

/-- The report names the files in the log, but not those of a client of which only the constants were written. -/
theorem mem_written (h : Writes o w report log d') : place ∈ report.written.map placeOf ↔
    ∃ g, (some g, place) ∈ log ∧
      ¬(g = .bindings ∧ placesOf (some g) log = [placeOf (Generator.constantsFile o).path]) := by
  obtain ⟨result, rfl, hres⟩ := h.results
  rw [Report.written_ofResults, List.flatMap_map, List.map_flatMap, List.mem_flatMap]
  constructor
  · rintro ⟨g, hg, hp⟩
    rcases hres g hg with ⟨hr, hl⟩ | ⟨⟨f, hr⟩, -⟩
    · refine ⟨g, ?_, ?_⟩
      · rw [← mem_placesOf, hl]
        simpa [hr, Except.toOption] using hp
      · rintro ⟨rfl, hc⟩
        rw [hc, Generator.destinations_bindings] at hl
        simp at hl
    · simp [hr, Except.toOption] at hp
  · rintro ⟨g, hg, hn⟩
    refine ⟨g, h.requested hg, ?_⟩
    rw [← mem_placesOf] at hg
    rcases hres g (h.requested (mem_placesOf.1 hg)) with ⟨hr, hl⟩ | ⟨-, hl | hl⟩
    · rw [hl] at hg
      simpa [hr, Except.toOption] using hg
    · rw [hl] at hg; cases hg
    · exact absurd ⟨hl.1, hl.2⟩ hn

end Writes

/-- In whatever order the steps of a run are taken: if it ends with a report, the files that it created or overwrote
are on the disk, and no other file has changed, that of the settings apart. The report names exactly these
files just if the client's second module was written whenever its first one was. -/
theorem report_complete_iff (o : Options) (w : Surroundings) : Runs o w (run o w) ∧
    (∀ outcome report, Runs o w outcome → outcome.result = .ok report → ∃ log, Writes o w report log outcome.disk) ∧
    ∀ report log d', Writes o w report log d' →
      (∀ place ∈ artifactsOf log, ∃ c, d'.get? place = some (.file c)) ∧
      (∀ place c, d'.get? place = some (.file c) →
        w.disk.get? place = some (.file c) ∨ place ∈ artifactsOf log ∨ w.settings.place? = some place) ∧
      ((∀ place, place ∈ artifactsOf log ↔ place ∈ report.written.map placeOf) ↔
        (placeOf (Generator.constantsFile o).path ∈ artifactsOf log → placeOf (Generator.indexFile o).path ∈ artifactsOf log)) := by
  refine ⟨runs_run o w, fun _ _ h hr => h.writes hr, fun report log d' h =>
    ⟨fun _ hm => h.stands hm, fun _ _ hc => h.changed hc, ?_⟩⟩
  have hconstants : ∀ {g}, (some g, placeOf (Generator.constantsFile o).path) ∈ log → g = .bindings :=
    fun hg => h.owner hg (Generator.constantsFile_mem o)
  have hindex : ∀ {g}, (some g, placeOf (Generator.indexFile o).path) ∈ log → g = .bindings :=
    fun hg => h.owner hg (Generator.indexFile_mem o)
  constructor
  · intro hall hm
    obtain ⟨g, hg, hn⟩ := h.mem_written.1 ((hall _).1 hm)
    obtain rfl := hconstants hg
    obtain ⟨_, -, hres⟩ := h.results
    refine mem_artifactsOf.2 ⟨.bindings, ?_⟩
    rw [← mem_placesOf] at hg ⊢
    rcases hres .bindings (h.requested (mem_placesOf.1 hg)) with ⟨-, hl⟩ | ⟨-, hl | hl⟩
    · rw [hl]
      exact List.mem_map.2 ⟨_, Generator.indexFile_mem o, rfl⟩
    · rw [hl] at hg; cases hg
    · exact absurd hl hn
  · intro himp place
    rw [h.mem_written, mem_artifactsOf]
    refine ⟨fun ⟨g, hg⟩ => ⟨g, hg, ?_⟩, fun ⟨g, hg, _⟩ => ⟨g, hg⟩⟩
    rintro ⟨rfl, hl⟩
    -- the second module would be the first one
    have hfirst : (some .bindings, placeOf (Generator.constantsFile o).path) ∈ log := mem_placesOf.1 (by rw [hl]; simp)
    obtain ⟨g', hg'⟩ := mem_artifactsOf.1 (himp (mem_artifactsOf.2 ⟨_, hfirst⟩))
    obtain rfl := hindex hg'
    rw [← mem_placesOf, hl, List.mem_singleton] at hg'
    exact Generator.constantsFile_ne o hg'.symm

/-- The entry is a file. -/
def Disk.Entry.isFile : Disk.Entry → Bool
  | .file _ => true
  | .directory => false

/-- A directory stands where the second module goes. -/
def geneOptions : Options :=
  ⟨some "genes", "out", [], .post, .browser, .commonJs, false, .legacy, none, none, false, false⟩

def geneSurroundings : Surroundings where
  settings := .memory []
  disk := ⟨[(["genes"], .file "type Query { gene: ID }".toUTF8), (["out"], .directory), (["out", "zeus"], .directory),
    (["out", "zeus", "index.ts"], .directory)]⟩
  endpoint _ := none

theorem report_complete_iff_genes : ∃ report log, (run geneOptions geneSurroundings).result = .ok report ∧
    Writes geneOptions geneSurroundings report log (run geneOptions geneSurroundings).disk ∧ report.written = [] ∧
      ["out", "zeus", "const.ts"] ∈ artifactsOf log ∧ ["out", "zeus", "index.ts"] ∉ artifactsOf log ∧
        ¬∀ place, place ∈ artifactsOf log ↔ place ∈ report.written.map placeOf := by
  obtain ⟨hrun, hwrites, hspec⟩ := report_complete_iff geneOptions geneSurroundings
  have hresult : (run geneOptions geneSurroundings).result.toOption =
      some ⟨[], [.unwritable "out/zeus/index.ts" .isDirectory]⟩ := by decide +kernel
  cases hr : (run geneOptions geneSurroundings).result with
  | error f => rw [hr] at hresult; cases hresult
  | ok report =>
    rw [hr] at hresult
    obtain rfl := Option.some.inj hresult
    obtain ⟨log, hw⟩ := hwrites _ _ hrun hr
    obtain ⟨hstands, hchanged, hiff⟩ := hspec _ _ _ hw
    have hconstants : ["out", "zeus", "const.ts"] ∈ artifactsOf log := by
      have hbefore : (geneSurroundings.disk.get? ["out", "zeus", "const.ts"]).isNone = true := by decide
      have hafter : ((run geneOptions geneSurroundings).disk.get? ["out", "zeus", "const.ts"]).map Disk.Entry.isFile =
          some true := by decide +kernel
      obtain ⟨entry, he, hfile⟩ := Option.map_eq_some_iff.1 hafter
      cases entry with
      | directory => cases hfile
      | file c =>
        rcases hchanged _ _ he with hb | hm | hs
        · rw [hb] at hbefore; cases hbefore
        · exact hm
        · cases hs
    have hindex : ["out", "zeus", "index.ts"] ∉ artifactsOf log := by
      have hafter : ((run geneOptions geneSurroundings).disk.get? ["out", "zeus", "index.ts"]).map Disk.Entry.isFile =
          some false := by decide +kernel
      intro hm
      obtain ⟨c, hc⟩ := hstands _ hm
      rw [hc] at hafter
      cases hafter
    refine ⟨_, log, rfl, hw, rfl, hconstants, hindex, fun hall => ?_⟩
    exact hindex (hiff.1 hall hconstants)

end GraphqlCodegen
