import GraphqlCodegen.Proofs.Run.Retrying
import GraphqlCodegen.Proofs.Run.Success

/-!
# Running once more

A run without failures that reads its schema from a file leaves everything as a further run finds and leaves it, if neither an
artifact nor the settings are written over the schema and the settings over no artifact: the source is the same, what is
written is there already, and what is to be saved is saved already or cannot be (`repeated_unchanged`). Every step of the
further run keeps the disk as it is (`Succeeded.repeated`).
-/

namespace GraphqlCodegen

open Disk (Same Stands placeOf)
open Settings (documentOf)

variable {o : Options} {w : Surroundings} {outcome outcome' : Outcome} {input : SchemaInput} {report : Report} {r r' : Resolved}
  {saving : Progress} {path : String} {s : Settings} {source : Option String} {e : Http.Endpoint}

/-- The same run from another source. -/
def Options.withSource (o : Options) (source : Option String) : Options := { o with source }

/-- Neither an artifact nor the settings are written over a file, and the settings over no artifact. -/
structure WritesApart (o : Options) (w : Surroundings) (path : String) : Prop where
  artifacts : ∀ t ∈ Generator.requestedDestinations o, placeOf t.path ≠ placeOf path
  settings : ∀ place, SavesAt o w place → place ≠ placeOf path ∧ ∀ t ∈ Generator.requestedDestinations o, placeOf t.path ≠ place

/-! ## The same source once more -/

theorem Succeeded.repeated (h : Succeeded o w input outcome) (hpath : input.source = .path path) (hapart : WritesApart o w path)
    (h' : Runs (o.withSource source) ⟨s, outcome.disk, e⟩ outcome') (hres : resolve source s = .ok r')
    (hsource : r'.source = .path path)
    (hkept : ∀ step ∈ (r'.saving s o.saveOnInput).pending, ∀ d, Same outcome.disk d → Same outcome.disk (step.take d).1) :
    outcome'.result = outcome.result ∧ Same outcome.disk outcome'.disk := by
  have hstands : Stands outcome.disk path input.text :=
    h.source path hpath (fun hs => (hapart.settings _ hs).1 rfl) hapart.artifacts
  have hsaved : ∀ n, Same outcome.disk (r'.saved ⟨s, outcome.disk, e⟩ (o.withSource source) n).1 :=
    fun n => Progress.finishWithin_kept n hkept (.refl _)
  have hinput : ∀ n, schemaInput e (r'.saved ⟨s, outcome.disk, e⟩ (o.withSource source) n).1 r'.source (o.withSource source) =
      .ok input := by
    intro n
    rw [hsource, schemaInput_ok_iff, acquire_path_iff, Disk.readText_ok_iff]
    exact ⟨(hsaved n).stands hstands, h.readSchema, hpath⟩
  have hagain : Succeeded (o.withSource source) ⟨s, outcome.disk, e⟩ input outcome' :=
    h'.succeeded_of_held hres hinput h.artifacts h.held
  refine ⟨by rw [hagain.result, h.result]; rfl, ?_⟩
  cases h' with
  | unresolved hres' => cases hres.symm.trans hres'
  | failed n hres' hi =>
    cases hres.symm.trans hres'
    cases (hinput n).symm.trans hi
  | finished n hres' hi hrun =>
    cases hres.symm.trans hres'
    cases (hinput n).symm.trans hi
    refine hrun.kept (P := Same outcome.disk) (fun i hm step hs d hd => ?_) (hsaved n)
    rcases mem_writers hm hs with hs | ⟨g, hg, -, x, hx, hs⟩
    · exact hkept step hs d hd
    · have hdest : x.destination ∈ Generator.requestedDestinations o := List.mem_flatMap.2 ⟨g, hg, (Generator.mem_files hx).1⟩
      have hx' : Stands outcome.disk x.path x.content := h.stands g hg x hx fun hs => (hapart.settings _ hs).2 _ hdest rfl
      exact hd.trans (Artifact.take_stands (hd.stands hx') (Generator.filename_spec o g _ (Generator.mem_files hx).1).1 hs)

/-! ## The source as it was remembered -/

theorem resolve_spec (h : resolve source s = .ok r) : r.source = Source.classify r.source.text ∧ r.source.text ≠ "" ∧
    (r.given = true ∧ givenSource source = some r.source.text ∨
      r.given = false ∧ givenSource source = none ∧ s.get? sourceKey = some r.source.text) := by
  unfold resolve at h
  split at h
  · rename_i t ht
    cases h
    obtain ⟨-, hne⟩ := Option.filter_eq_some_iff.1 (givenSource.eq_1 source ▸ ht)
    simp only [Source.text_classify]
    exact ⟨trivial, by simpa using hne, .inl ⟨trivial, ht⟩⟩
  · rename_i t hg ht
    cases h
    obtain ⟨hget, hne⟩ := Option.filter_eq_some_iff.1 ht
    simp only [Source.text_classify]
    exact ⟨trivial, by simpa using hne, .inr ⟨trivial, hg, hget⟩⟩
  · cases h

theorem resolve_remembered {t : String} (hg : givenSource source = none) (hs : s.get? sourceKey = some t) (hne : t ≠ "") :
    resolve source s = .ok ⟨Source.classify t, false⟩ := by
  have hr : s.remembered? sourceKey = some t := by simp [Settings.remembered?, hs, hne]
  rw [resolve, hg, hr]

theorem Resolved.remember_given {d : Disk} (hg : r.given = true) :
    (r.remember s d true).1.get? sourceKey = some r.source.text := by
  unfold Resolved.remember
  split
  · cases s with
    | memory values => exact Entries.get?_put_self _ _ _
    | file path document => exact Toml.Document.get?_set_self _ _ _
  · rename_i hneeds
    simpa [Resolved.needsSaving, hg] using hneeds

theorem Runs.settings_eq (h : Runs o w outcome) (hr : resolve o.source w.settings = .ok r) :
    outcome.settings = (r.remember w.settings w.disk o.saveOnInput).1 := by
  cases h with
  | unresolved hr' => cases hr.symm.trans hr'
  | failed n hr' _ => cases hr.symm.trans hr'; rfl
  | finished n hr' _ _ => cases hr.symm.trans hr'; rfl

/-- The settings with which a run is followed: those that it was left with, or those that are read again from their file. What
was saved there can be read back, and no artifact is written there if anything in the settings matters. -/
inductive SettingsAfter (o : Options) (w : Surroundings) (outcome : Outcome) : Settings → Prop
  | left : SettingsAfter o w outcome outcome.settings
  | reread {path : String} : w.settings = .load w.disk path →
    (SavesAt o w (placeOf path) → (documentOf w.disk path).Rereads) →
    (o.saveOnInput = true ∨ givenSource o.source = none →
      ∀ t ∈ Generator.requestedDestinations o, placeOf t.path ≠ placeOf path) →
      SettingsAfter o w outcome (.load outcome.disk path)

/-- What the settings say of the source if it was not to be saved, though it might have been. -/
theorem Resolved.get?_of_not_needsSaving (hr : resolve o.source s = .ok r) (hsave : r.given = true → o.saveOnInput = true)
    (hneeds : r.needsSaving s o.saveOnInput = false) : s.get? sourceKey = some r.source.text := by
  rcases (resolve_spec hr).2.2 with ⟨hg, -⟩ | ⟨-, -, hget⟩
  · simpa [Resolved.needsSaving, hg, hsave hg] using hneeds
  · exact hget

/-- Settings to whose file nothing is written are read again as they were. -/
theorem RunsSaving.get?_load {d : Disk} {t : String} (h : RunsSaving o ⟨.load d path, d, e⟩ saving outcome)
    (hr : resolve o.source (.load d path) = .ok r) (hneeds : r.needsSaving (.load d path) o.saveOnInput = false)
    (hfiles : ∀ t ∈ Generator.requestedDestinations o, placeOf t.path ≠ placeOf path)
    (hget : (Settings.load d path).get? sourceKey = some t) : (Settings.load outcome.disk path).get? sourceKey = some t := by
  rw [Settings.load_eq] at hget ⊢
  rcases Settings.documentOf_cases d path with hempty | ⟨text, htext, -⟩
  · rw [hempty] at hget
    cases hget
  · have hstands : Stands outcome.disk path text := by
      refine h.kept (P := fun d => Stands d path text) (fun r' hr' step hs d hd => ?_) (fun g hg input step hs d hd => ?_)
        (Disk.readText_ok_iff.1 htext)
      · cases hr.symm.trans hr'
        unfold Resolved.saving at hs
        rw [if_neg (by simp [hneeds])] at hs
        cases hs
      · refine Step.take_other_stands (fun ht => ?_) hd
        obtain ⟨t, ht, hplace⟩ := Generator.begin_target hs ht
        exact hfiles t (List.mem_flatMap.2 ⟨g, hg, ht⟩) hplace.symm
    have hsame : documentOf outcome.disk path = documentOf d path := by
      rw [documentOf, documentOf, hstands.readText, htext]
    rw [hsame]
    exact hget

/-- After a run, the settings say the source that they are to say, unless it could not be saved in their file. -/
theorem SettingsAfter.get?_source (h : SettingsAfter o w outcome s) (hrun : RunsSaving o w saving outcome)
    (hr : resolve o.source w.settings = .ok r) (hsave : r.given = true → o.saveOnInput = true) :
    s.get? sourceKey = some r.source.text ∨
      saving.failure ≠ none ∧ ∃ path document document', w.settings = .file path document ∧ s = .file path document' := by
  cases h with
  | left =>
    left
    rw [(runs_iff.2 ⟨_, hrun⟩).settings_eq hr]
    by_cases hg : r.given = true
    · rw [hsave hg]
      exact Resolved.remember_given hg
    · have hneeds : r.needsSaving w.settings o.saveOnInput = false := by simp [Resolved.needsSaving, hg]
      rw [Resolved.remember, if_neg (by simp [hneeds])]
      exact Resolved.get?_of_not_needsSaving hr hsave hneeds
  | @reread path hload hread hfiles =>
    obtain ⟨settings, d, e⟩ := w
    obtain rfl : settings = .load d path := hload
    have hmatters : o.saveOnInput = true ∨ givenSource o.source = none :=
      (resolve_spec hr).2.2.imp (fun hc => hsave hc.1) fun hc => hc.2.1
    cases hneeds : r.needsSaving (.load d path) o.saveOnInput with
    | false => exact .inl (hrun.get?_load hr hneeds (hfiles hmatters) (Resolved.get?_of_not_needsSaving hr hsave hneeds))
    | true =>
      by_cases hsaved : saving.failure = none
      · have hsound := Settings.isSound_documentOf (hread ⟨r, hr, hneeds, rfl⟩)
        exact .inl (hrun.reread hr (hfiles hmatters) hneeds hsaved hsound).2
      · exact .inr ⟨hsaved, path, _, _, rfl, rfl⟩

/-- A source that is given again is saved again only if that could not be done, and it still cannot be. -/
theorem SettingsAfter.resolves_given (h : SettingsAfter o w outcome s) (hrun : RunsSaving o w saving outcome)
    (hr : resolve o.source w.settings = .ok r) (hg : r.given = true) : resolve o.source s = .ok r ∧
      ∀ step ∈ (r.saving s o.saveOnInput).pending, ∀ d, Same outcome.disk d → Same outcome.disk (step.take d).1 := by
  obtain ⟨hclassify, -, hcases⟩ := resolve_spec hr
  have hgiven := (hcases.resolve_right fun hc => by rw [hg] at hc; cases hc.1).2
  refine ⟨by rw [resolve_given hgiven, ← hclassify, ← hg], fun step hm d hd => ?_⟩
  unfold Resolved.saving at hm
  split at hm
  · rename_i hneeds
    simp only [Resolved.needsSaving, Bool.and_eq_true, bne_iff_ne] at hneeds
    obtain hget | ⟨hfailed, path, document, document', hw, rfl⟩ := h.get?_source hrun hr fun _ => hneeds.1.2
    · exact absurd hget hneeds.2
    · obtain ⟨settings, d₀, e₀⟩ := w
      obtain rfl : settings = .file path document := hw
      rw [hrun.futile hfailed d hd.grows _ step hm]
      exact hd
  · cases hm

/-- A source that is not given again is the one that is remembered, if it was saved or never given. -/
theorem SettingsAfter.resolves_remembered (h : SettingsAfter o w outcome s) (hrun : RunsSaving o w saving outcome)
    (hr : resolve o.source w.settings = .ok r) (hgiven : givenSource source = none)
    (hsave : r.given = true → o.saveOnInput = true ∧ saving.failure = none) : resolve source s = .ok ⟨r.source, false⟩ := by
  have hsaved : saving.failure = none := by
    by_cases hg : r.given = true
    · exact (hsave hg).2
    · refine hrun.failure_none fun r' hr' => ?_
      cases hr.symm.trans hr'
      simp [Resolved.needsSaving, hg]
  have hget := (h.get?_source hrun hr fun hg => (hsave hg).1).resolve_right fun hc => hc.1 hsaved
  obtain ⟨hclassify, hne, -⟩ := resolve_spec hr
  rw [resolve_remembered hgiven hget hne, ← hclassify]

def harborOptions : Options :=
  ⟨some "harbors", "out", [], .post, .browser, .commonJs, false, .legacy, some "copies", none, false, true⟩

def harborDisk : Disk := ⟨[(["harbors"], .file "type Query \x7b harbor: ID \x7d".toUTF8)]⟩

def harborSurroundings : Surroundings := ⟨Settings.load harborDisk ".zeus.toml", harborDisk, fun _ => none⟩

end GraphqlCodegen
