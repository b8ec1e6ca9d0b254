import GraphqlCodegen.Proofs.Run.Reporting

/-!
# Failures that end a run

A run ends with a failure only while it finds its source, gets the schema text or reads it, and up to then nothing is
written but the settings. What comes later is reported. So a failure that ends a run is fatal, all that may have changed
on the disk is the file of the settings and directories on the way to it (`SavesOnly`), and no failure in a report is
fatal (`fatal_or_reported`).
-/

namespace GraphqlCodegen

open Disk (placeOf)

/-! ## What steps may put on the disk -/

namespace Step

/-- What a step may put at a place: a directory on the way of a path, or a file where it leads. -/
def Puts (place : Disk.Place) : Step → Disk.Entry → Prop
  | .makeDirectories path, e => e = .directory ∧ ∃ a ∈ Disk.Path.ancestors path, placeOf a = place
  | .writeFile path content, e => e = .file content.toUTF8 ∧ placeOf path = place

/-- Where something has changed, the step has put it; a directory is only put where nothing was. -/
theorem take_puts (d : Disk) (s : Step) (place : Disk.Place) : (s.take d).1.get? place = d.get? place ∨
    ∃ e, s.Puts place e ∧ (s.take d).1.get? place = some e ∧ (e = .directory → d.get? place = none) := by
  cases s with
  | makeDirectories path =>
    by_cases hp : ∃ a ∈ Disk.Path.ancestors path, placeOf a = place
    · rcases Disk.makeDirectories_opens d path place with h | ⟨hn, h⟩
      · exact .inl h
      · exact .inr ⟨.directory, ⟨rfl, hp⟩, h, fun _ => hn⟩
    · exact .inl (Disk.makeAll_other _ d fun a ha he => hp ⟨a, ha, he⟩)
  | writeFile path content =>
    rw [take]
    cases h : d.write path content with
    | error e => exact .inl rfl
    | ok d' =>
      obtain ⟨-, -, hg⟩ := Disk.write_ok h
      by_cases hp : placeOf path = place
      · exact .inr ⟨.file content.toUTF8, ⟨rfl, hp⟩, by simp [hg, hp], fun he => by cases he⟩
      · exact .inl (by simp [hg, Ne.symm hp])

theorem take_notFatal {d : Disk} {s : Step} {f : Failure} (h : (s.take d).2 = some f) : f.isFatal = false := by
  cases s with
  | makeDirectories path =>
    obtain ⟨e, -, rfl⟩ := Option.map_eq_some_iff.1 h
    rfl
  | writeFile path content =>
    rw [take] at h
    cases hw : d.write path content with
    | error e => rw [hw] at h; cases h; rfl
    | ok d' => rw [hw] at h; cases h

end Step

namespace Progress

theorem finishWithin_puts (place : Disk.Place) : ∀ (n : Nat) (d : Disk) (p : Progress),
    (finishWithin n d p).1.get? place = d.get? place ∨ ∃ s ∈ p.pending, ∃ e, s.Puts place e ∧
      (finishWithin n d p).1.get? place = some e ∧ (e = .directory → d.get? place = none)
  | 0, d, p => .inl rfl
  | n + 1, d, p => by
    cases hp : p.pending with
    | nil => exact .inl (by rw [finishWithin_done hp])
    | cons s rest =>
      have hstep := s.take_puts d place
      rw [← advance_disk hp] at hstep
      rw [finishWithin]
      rcases finishWithin_puts place n (p.advance d).1 (p.advance d).2 with hrest | ⟨t, ht, e, hput, he, hdir⟩
      · rw [hrest]
        exact hstep.imp_right fun h => ⟨s, List.mem_cons_self, h⟩
      · refine .inr ⟨t, List.mem_cons_of_mem _ (mem_advance hp ht), e, hput, he, fun hd => ?_⟩
        rcases hstep with hsame | ⟨e', -, hs, -⟩
        · rw [← hsame, hdir hd]
        · rw [hdir hd] at hs; cases hs

/-- The party has not failed, or with a failure that does not end the run. -/
def IsHarmless (p : Progress) : Prop := ∀ f, p.failure = some f → f.isFatal = false

theorem IsHarmless.advance {d : Disk} {p : Progress} (h : p.IsHarmless) (hne : p.pending ≠ []) : (p.advance d).2.IsHarmless := by
  cases hp : p.pending with
  | nil => exact absurd hp hne
  | cons s rest =>
    intro f hf
    cases hs : (s.take d).2 with
    | none => rw [advance_ok hp hs] at hf; exact h f hf
    | some f' =>
      rw [advance_failed hp hs] at hf
      cases hf
      exact Step.take_notFatal hs

end Progress

theorem Generator.begin_isHarmless (input : SchemaInput) (o : Options) (g : Generator) : (g.begin input o).IsHarmless := by
  intro f hf
  unfold Generator.begin at hf
  cases ha : g.artifacts input o with
  | ok as => rw [ha] at hf; cases hf
  | error e => rw [ha] at hf; cases hf; rfl

/-! ## Runs -/

/-- The places of the directories on the way to the file that settings are kept in. -/
def Settings.parents : Settings → List Disk.Place
  | .memory _ => []
  | .file path _ => ((Disk.Path.parent path).toList.flatMap Disk.Path.ancestors).map placeOf

/-- Nothing but the saving of the source has changed the disk: what is different is the file of the settings, or a directory
on the way to it that was not there, and only if the source was to be saved. -/
def SavesOnly (o : Options) (w : Surroundings) (d' : Disk) : Prop := ∀ place, d'.get? place = w.disk.get? place ∨
  (∃ r, resolve o.source w.settings = .ok r ∧ r.needsSaving w.settings o.saveOnInput = true) ∧
    ((w.settings.place? = some place ∧ ∃ c, d'.get? place = some (.file c)) ∨
      (place ∈ w.settings.parents ∧ w.disk.get? place = none ∧ d'.get? place = some .directory))

variable {o : Options} {w : Surroundings} {outcome : Outcome}

theorem Resolved.saving_puts {r : Resolved} {s : Step} (hs : s ∈ (r.saving w.settings o.saveOnInput).pending)
    {place : Disk.Place} {e : Disk.Entry} (he : s.Puts place e) : r.needsSaving w.settings o.saveOnInput = true ∧
      ((w.settings.place? = some place ∧ ∃ c, e = .file c) ∨ (place ∈ w.settings.parents ∧ e = .directory)) := by
  unfold saving at hs
  split at hs
  · rename_i hneeds
    refine ⟨hneeds, ?_⟩
    cases hw : w.settings with
    | memory values => rw [hw] at hs; cases hs
    | file path document =>
      rw [hw] at hs
      rcases List.mem_append.1 hs with hs | hs
      · unfold Settings.prepareSteps at hs
        split at hs
        · cases hs
        · cases hs
        · rename_i directory _ hp
          obtain rfl := List.mem_singleton.1 hs
          obtain ⟨rfl, a, ha, rfl⟩ := he
          refine .inr ⟨List.mem_map_of_mem ?_, rfl⟩
          rw [hp]
          simpa using ha
      · obtain rfl := List.mem_singleton.1 hs
        obtain ⟨rfl, rfl⟩ := he
        exact .inl ⟨rfl, _, rfl⟩
  · cases hs

/-- In two goes, steps put nothing else than they do in one. -/
theorem Progress.finish_puts (place : Disk.Place) (n : Nat) (d : Disk) (p : Progress) :
    let q := finishWithin n d p
    (q.2.finish q.1).1.get? place = d.get? place ∨ ∃ s ∈ p.pending, ∃ e, s.Puts place e ∧
      (q.2.finish q.1).1.get? place = some e ∧ (e = .directory → d.get? place = none) := by
  intro q
  have hfirst := finishWithin_puts place n d p
  rcases finishWithin_puts place q.2.pending.length q.1 q.2 with hsame | ⟨s, hs, e, hput, he, hdir⟩
  · rw [finish, hsame]
    exact hfirst
  · refine .inr ⟨s, mem_finishWithin n hs, e, hput, he, fun hd => ?_⟩
    rcases hfirst with hsame | ⟨s', -, e', -, he', -⟩
    · rw [← hsame, hdir hd]
    · rw [hdir hd] at he'; cases he'

theorem Resolved.savesOnly_saved {r : Resolved} (hr : resolve o.source w.settings = .ok r) (n : Nat) :
    SavesOnly o w ((r.saved w o n).2.finish (r.saved w o n).1).1 := by
  intro place
  rcases Progress.finish_puts place n w.disk (r.saving w.settings o.saveOnInput) with hsame | ⟨s, hs, e, hput, he, hdir⟩
  · exact .inl hsame
  · obtain ⟨hneeds, hplace⟩ := Resolved.saving_puts hs hput
    refine .inr ⟨⟨r, hr, hneeds⟩, ?_⟩
    rcases hplace with ⟨hp, c, rfl⟩ | ⟨hp, rfl⟩
    · exact .inl ⟨hp, c, he⟩
    · exact .inr ⟨hp, hdir rfl, he⟩

theorem resolve_isFatal {source : Option String} {s : Settings} {f : Failure} (h : resolve source s = .error f) :
    f.isFatal = true := by
  unfold resolve at h
  split at h <;> cases h
  rfl

theorem acquire_isFatal {e : Http.Endpoint} {d : Disk} {source : Source} {f : Failure} (h : acquire e d source o = .error f) :
    f.isFatal = true := by
  cases source with
  | url url =>
    rw [acquire] at h
    cases hf : fetchSchema e url o.method o.headers <;> rw [hf] at h <;> cases h
    rfl
  | path path =>
    rw [acquire] at h
    cases hf : d.readText path <;> rw [hf] at h <;> cases h
    rfl

theorem readSchema_isFatal {text : String} {f : Failure} (h : readSchema text = .error f) : f.isFatal = true := by
  unfold readSchema at h
  split at h <;> cases h
  rfl

/-- The schema is got and read, or one of both fails. -/
theorem schemaInput_cases (e : Http.Endpoint) (d : Disk) (source : Source) (o : Options) :
    (∃ text tree, acquire e d source o = .ok text ∧ readSchema text = .ok tree ∧
      schemaInput e d source o = .ok ⟨text, tree, source⟩) ∨
    ∃ f, f.isFatal = true ∧ schemaInput e d source o = .error f := by
  cases ha : acquire e d source o with
  | error f => exact .inr ⟨f, acquire_isFatal ha, by rw [schemaInput, ha]; rfl⟩
  | ok text =>
    cases hs : readSchema text with
    | error f => exact .inr ⟨f, readSchema_isFatal hs, by rw [schemaInput, ha]; simp only [bind, Except.bind, hs]⟩
    | ok tree => exact .inl ⟨text, tree, rfl, hs, by rw [schemaInput, ha]; simp only [bind, Except.bind, hs, pure, Except.pure]⟩

/-- The generators of a run are harmless whatever their order. -/
theorem Interleaves.isHarmless {saving : Progress} {input : SchemaInput} {d d' : Disk} {st : Option Generator → Progress}
    (h : Interleaves (writersOf o) d (writers saving input o) d' st) (g : Generator) : (st (some g)).IsHarmless := by
  refine (h.invariant (motive := fun _ st => (st (some g)).IsHarmless) (fun d st i _ hne hst => ?_)
    (Generator.begin_isHarmless input o g)).1
  by_cases hi : some g = i
  · subst hi
    rw [replace_self]
    exact hst.advance hne
  · rwa [replace_ne hi]

/-- In whatever order the steps of a run are taken: a failure that the run ends with is fatal and nothing is written but
the settings; a report has no fatal failure, and the schema was found, got and read. -/
theorem fatal_or_reported (o : Options) (w : Surroundings) : Runs o w (run o w) ∧ ∀ outcome, Runs o w outcome →
    (∀ f, outcome.result = .error f → f.isFatal = true ∧ SavesOnly o w outcome.disk) ∧
    ∀ report, outcome.result = .ok report → (∀ f ∈ report.failures, f.isFatal = false) ∧
      ∃ r n text tree, resolve o.source w.settings = .ok r ∧ acquire w.endpoint (r.saved w o n).1 r.source o = .ok text ∧
        readSchema text = .ok tree := by
  refine ⟨runs_run o w, fun outcome h => ?_⟩
  cases h with
  | unresolved hr =>
    refine ⟨fun f hf => ?_, nofun⟩
    cases hf
    exact ⟨resolve_isFatal hr, fun place => .inl rfl⟩
  | failed n hr hi =>
    refine ⟨fun f hf => ?_, nofun⟩
    cases hf
    rcases schemaInput_cases w.endpoint (Resolved.saved _ w o n).1 _ o with ⟨_, _, -, -, hok⟩ | ⟨f', hfatal, herror⟩
    · rw [hok] at hi; cases hi
    · rw [herror] at hi
      cases hi
      exact ⟨hfatal, Resolved.savesOnly_saved hr n⟩
  | finished n hr hi hrun =>
    refine ⟨nofun, fun report hreport => ?_⟩
    cases hreport
    rcases schemaInput_cases w.endpoint (Resolved.saved _ w o n).1 _ o with ⟨text, tree, ha, hs, -⟩ | ⟨_, -, herror⟩
    · refine ⟨fun f hf => ?_, _, n, text, tree, hr, ha, hs⟩
      rw [Report.failures_ofResults, List.mem_filterMap] at hf
      obtain ⟨result, hm, hf⟩ := hf
      obtain ⟨g, -, rfl⟩ := List.mem_map.1 hm
      rw [Progress.failure?_result] at hf
      exact hrun.isHarmless g f hf
    · rw [herror] at hi; cases hi

/-- The schema is missing, and the settings are in a directory that is missing as well. -/
def strayOptions : Options :=
  ⟨some " strays ", "out", [], .post, .browser, .commonJs, false, .legacy, none, none, false, true⟩

def straySurroundings : Surroundings where
  settings := .file "kept/settings" .empty
  disk := ⟨[(["notes"], .directory)]⟩
  endpoint _ := none

theorem fatal_or_reported_strays :
    ((run strayOptions straySurroundings).disk.get? ["kept", "settings"]).map Disk.Entry.isFile = some true ∧
    ((run strayOptions straySurroundings).disk.get? ["out"]).isNone = true ∧
    ((run geneOptions geneSurroundings).disk.get? ["out", "zeus", "const.ts"]).isSome = true ∧
    (∃ f, (run strayOptions straySurroundings).result = .error f ∧ f.isFatal = true ∧
      SavesOnly strayOptions straySurroundings (run strayOptions straySurroundings).disk) ∧
    ∃ report, (run geneOptions geneSurroundings).result = .ok report ∧ report.failures ≠ [] ∧
      ∀ f ∈ report.failures, f.isFatal = false := by
  refine ⟨by decide +kernel, by decide +kernel, by decide +kernel, ?_, ?_⟩
  · obtain ⟨hrun, h⟩ := fatal_or_reported strayOptions straySurroundings
    have hresult : (run strayOptions straySurroundings).result.toOption = none := by decide +kernel
    cases hr : (run strayOptions straySurroundings).result with
    | ok report => rw [hr] at hresult; cases hresult
    | error f => exact ⟨f, rfl, (h _ hrun).1 f hr⟩
  · obtain ⟨hrun, h⟩ := fatal_or_reported geneOptions geneSurroundings
    have hresult : (run geneOptions geneSurroundings).result.toOption =
        some ⟨[], [.unwritable "out/zeus/index.ts" .isDirectory]⟩ := by decide +kernel
    cases hr : (run geneOptions geneSurroundings).result with
    | error f => rw [hr] at hresult; cases hresult
    | ok report =>
      rw [hr] at hresult
      obtain rfl := Option.some.inj hresult
      exact ⟨_, rfl, List.cons_ne_nil _ _, ((h _ hrun).2 _ hr).1⟩

end GraphqlCodegen
