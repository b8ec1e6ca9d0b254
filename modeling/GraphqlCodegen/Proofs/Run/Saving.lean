import GraphqlCodegen.Proofs.CommandLine.Execution
import GraphqlCodegen.Proofs.Disk.Reading
import GraphqlCodegen.Proofs.Run.Reporting
import GraphqlCodegen.Proofs.Settings.Files
import GraphqlCodegen.Proofs.Writing.Isolation
import GraphqlCodegen.Proofs.Writing.Keeping

/-!
# What a run makes of the settings

A run as seen by who looks at how the saving ended (`RunsSaving`); any run is one (`runs_iff`). If the source is to be
saved and can be, its file stands at the end of the run, also of one that fails (`RunsSaving.stands`). If nothing is
to be saved, the settings are read afterwards as before (`RunsSaving.unchanged`). Both need that no generator writes to the
place of the settings.
-/

namespace GraphqlCodegen

open Disk (IsTree Stands Steady placeOf)

variable {o : Options} {w : Surroundings} {outcome : Outcome} {saving : Progress}

/-! ## Resolving -/

theorem Source.classify_url_iff (text : String) : (∃ url, Source.classify text = .url url) ↔
    "http://".toList <+: text.toList ∨ "https://".toList <+: text.toList := by
  unfold Source.classify
  split <;> simp_all [Source.schemes]

section Resolving

variable {text : Option String} {s : Settings} {r : Resolved}

/-- What comes of resolving to a source, or to none. -/
def resolution : Option String → Except Failure Source
  | some text => .ok (Source.classify text)
  | none => .error .missingSource

theorem resolve_source (text : Option String) (s : Settings) :
    (resolve text s).map Resolved.source = resolution ((givenSource text).or (s.remembered? sourceKey)) := by
  unfold resolve
  cases givenSource text <;> cases s.remembered? sourceKey <;> rfl

theorem resolve_given {t : String} (h : givenSource text = some t) (s : Settings) :
    resolve text s = .ok ⟨Source.classify t, true⟩ := by
  unfold resolve
  rw [h]

theorem given_of_resolve (h : resolve text s = .ok r) (hg : r.given = true) : givenSource text = some r.source.text := by
  unfold resolve at h
  split at h
  · rename_i t ht
    cases h
    rw [ht, Source.text_classify]
  · cases h
    cases hg
  · cases h

/-- Only a source that is not blank is given. -/
theorem givenSource_ne (text : Option String) : (givenSource text).filter (· != "") = givenSource text := by
  rw [givenSource, Option.filter_filter]
  simp

end Resolving

/-! ## Runs -/

/-- What a run may come to, and what its saving came to. -/
inductive RunsSaving (o : Options) (w : Surroundings) : Progress → Outcome → Prop
  | unresolved {f : Failure} : resolve o.source w.settings = .error f →
    RunsSaving o w ⟨[], [], none⟩ ⟨.error f, w.settings, w.disk, []⟩
  | failed {r : Resolved} {f : Failure} (n : Nat) : resolve o.source w.settings = .ok r →
    schemaInput w.endpoint (r.saved w o n).1 r.source o = .error f →
      RunsSaving o w ((r.saved w o n).2.finish (r.saved w o n).1).2
        ⟨.error f, (r.remember w.settings w.disk o.saveOnInput).1,
          ((r.saved w o n).2.finish (r.saved w o n).1).1, requestFor r.source o⟩
  | finished {r : Resolved} {input : SchemaInput} {d : Disk} {st : Option Generator → Progress} (n : Nat) :
    resolve o.source w.settings = .ok r → schemaInput w.endpoint (r.saved w o n).1 r.source o = .ok input →
      Interleaves (writersOf o) (r.saved w o n).1 (writers (r.saved w o n).2 input o) d st →
        RunsSaving o w (st none) ⟨.ok (.ofResults ((Generator.requested o).map fun g => (st (some g)).result)),
          (r.remember w.settings w.disk o.saveOnInput).1, d, requestFor r.source o⟩

theorem runs_iff : Runs o w outcome ↔ ∃ saving, RunsSaving o w saving outcome := by
  constructor
  · intro h
    cases h with
    | unresolved hr => exact ⟨_, .unresolved hr⟩
    | failed n hr hi => exact ⟨_, .failed n hr hi⟩
    | finished n hr hi hrun => exact ⟨_, .finished n hr hi hrun⟩
  · rintro ⟨saving, h⟩
    cases h with
    | unresolved hr => exact .unresolved hr
    | failed n hr hi => exact .failed n hr hi
    | finished n hr hi hrun => exact .finished n hr hi hrun

/-! ## What all steps keep -/

section Kept

variable {P : Disk → Prop}

/-- What each step of a run keeps is kept by the run. -/
theorem RunsSaving.kept (h : RunsSaving o w saving outcome)
    (hsaving : ∀ r, resolve o.source w.settings = .ok r → ∀ s ∈ (r.saving w.settings o.saveOnInput).pending,
      ∀ d, P d → P (s.take d).1)
    (hgenerators : ∀ g ∈ Generator.requested o, ∀ input, ∀ s ∈ (g.begin input o).pending, ∀ d, P d → P (s.take d).1)
    (hd : P w.disk) : P outcome.disk := by
  cases h with
  | unresolved _ => exact hd
  | failed n hr _ =>
    have hfirst := Progress.finishWithin_kept n (hsaving _ hr) hd
    exact Progress.finishWithin_kept _ (fun s hs => hsaving _ hr s (Progress.mem_finishWithin n hs)) hfirst
  | finished n hr _ hrun =>
    refine hrun.kept (fun i hi s hs => ?_) (Progress.finishWithin_kept n (hsaving _ hr) hd)
    cases i with
    | none => exact hsaving _ hr s (Progress.mem_finishWithin n hs)
    | some g =>
      have hg : g ∈ Generator.requested o := by simpa [writersOf] using hi
      exact hgenerators g hg _ s hs

end Kept

/-! ## Saving -/

variable {path : String} {document : Toml.Document} {d : Disk} {e : Http.Endpoint} {r : Resolved}

/-- How far the saving has come when the run ends. -/
theorem RunsSaving.sound (h : RunsSaving o ⟨.file path document, d, e⟩ saving outcome)
    (hr : resolve o.source (.file path document) = .ok r)
    (hpath : ∀ t ∈ Generator.requestedDestinations o, placeOf t.path ≠ placeOf path) :
    Sound outcome.disk (r.saving (.file path document) o.saveOnInput) saving ∧ saving.pending = [] := by
  cases h with
  | unresolved hr' => rw [hr] at hr'; cases hr'
  | failed n hr' _ =>
    cases hr.symm.trans hr'
    exact ⟨.finishWithin (Settings.saving_targets_nodup path document r o.saveOnInput) _ (saved_sound path document d e r o n),
      Progress.finish_pending _ _⟩
  | @finished _ input _ _ n hr' _ hrun =>
    cases hr.symm.trans hr'
    have hstart : Sound d (r.saving (.file path document) o.saveOnInput) (r.saving (.file path document) o.saveOnInput) :=
      saved_sound path document d e r o 0
    have hstarts : ∀ i ∈ writersOf o, Sound (r.saved ⟨.file path document, d, e⟩ o n).1
        (writers (r.saving (.file path document) o.saveOnInput) input o i)
        (writers (r.saved ⟨.file path document, d, e⟩ o n).2 input o i) := by
      intro i _
      cases i with
      | none => exact saved_sound path document d e r o n
      | some g => exact .start Generator.begin_stopped
    exact hrun.sound hstarts (writers_apart hstart hpath) none List.mem_cons_self

/-- A source that was saved is in the file. -/
theorem RunsSaving.stands (h : RunsSaving o ⟨.file path document, d, e⟩ saving outcome)
    (hr : resolve o.source (.file path document) = .ok r)
    (hpath : ∀ t ∈ Generator.requestedDestinations o, placeOf t.path ≠ placeOf path)
    (hneeds : r.needsSaving (.file path document) o.saveOnInput = true) (hsaved : saving.failure = none) :
    Stands outcome.disk path (document.set sourceKey r.source.text).text := by
  obtain ⟨hsound, hpending⟩ := h.sound hr hpath
  refine (hsound.finished hpending hsaved).2.2 _ _ ?_
  rw [Resolved.saving, if_pos hneeds]
  simp

/-- A source that was saved is read back. -/
theorem RunsSaving.reread (h : RunsSaving o ⟨.file path document, d, e⟩ saving outcome)
    (hr : resolve o.source (.file path document) = .ok r)
    (hpath : ∀ t ∈ Generator.requestedDestinations o, placeOf t.path ≠ placeOf path)
    (hneeds : r.needsSaving (.file path document) o.saveOnInput = true) (hsaved : saving.failure = none)
    (hsound : document.IsSound) : (Settings.documentOf outcome.disk path).IsSound ∧
      (Settings.documentOf outcome.disk path).get? sourceKey = some r.source.text := by
  have hset := hsound.set sourceKey r.source.text
  rw [Settings.documentOf_stands hset (h.stands hr hpath hneeds hsaved)]
  refine ⟨hset.written, ?_⟩
  rw [← (Toml.Document.sameEntry_written hset.toHasKeys sourceKey).get?_eq hset.consistent hset.written.consistent,
    Toml.Document.get?_set_self]

/-- Nothing that was to be saved has failed. -/
theorem RunsSaving.failure_none (h : RunsSaving o w saving outcome)
    (hnone : ∀ r, resolve o.source w.settings = .ok r → r.needsSaving w.settings o.saveOnInput = false) : saving.failure = none := by
  have hsaved : ∀ {r : Resolved} (n : Nat), resolve o.source w.settings = .ok r → (r.saved w o n) = (w.disk, ⟨[], [], none⟩) := by
    intro r n hr
    have hsaving : r.saving w.settings o.saveOnInput = ⟨[], [], none⟩ := by
      unfold Resolved.saving
      rw [if_neg (by simp [hnone r hr])]
    rw [Resolved.saved, hsaving, Progress.finishWithin_done rfl]
  cases h with
  | unresolved _ => rfl
  | failed n hr _ => rw [hsaved n hr, Progress.finish_done rfl]
  | @finished r input _ _ n hr _ hrun =>
    have hstart : (writers (r.saved w o n).2 input o none).pending = [] := by rw [writers, hsaved n hr]
    rw [hrun.same hstart, writers, hsaved n hr]

/-! ## Settings that are left alone -/

/-- The file of the settings can be found as it stands. -/
structure Findable (path : String) (d : Disk) : Prop where
  tree : IsTree d
  steady : Steady path d

theorem RunsSaving.tree (h : RunsSaving o w saving outcome) (ht : IsTree w.disk) : IsTree outcome.disk :=
  h.kept (fun _ _ s _ _ hd => Step.take_tree hd s) (fun _ _ _ s _ _ hd => Step.take_tree hd s) ht

theorem Findable.take (h : Findable path d) (s : Step) : Findable path (s.take d).1 :=
  ⟨Step.take_tree h.tree s, h.steady.keeps (Step.take_keeps d s)⟩

/-- A step that does not write to the place of the path changes nothing of what is read there. -/
theorem Findable.readBytes_take (h : Findable path d) {s : Step} (hs : s.target ≠ some (placeOf path)) :
    ((s.take d).1.readBytes path).toOption = (d.readBytes path).toOption := by
  refine Disk.readBytes_congr h.steady h.tree (Step.take_keeps d s) fun c => ⟨fun hc => ?_, Step.take_other hs⟩
  exact (Step.take_changed hc).resolve_right fun hf => hs (Step.file?_target hf)

/-- Without anything to save, the settings are read as they were. -/
theorem RunsSaving.unchanged (h : RunsSaving o w saving outcome) (hd : Findable path w.disk)
    (hnone : ∀ r, resolve o.source w.settings = .ok r → r.needsSaving w.settings o.saveOnInput = false)
    (hpath : ∀ t ∈ Generator.requestedDestinations o, placeOf t.path ≠ placeOf path) :
    (outcome.disk.readBytes path).toOption = (w.disk.readBytes path).toOption := by
  have hstep : ∀ s : Step, s.target ≠ some (placeOf path) → ∀ d,
      Findable path d ∧ (d.readBytes path).toOption = (w.disk.readBytes path).toOption →
        Findable path (s.take d).1 ∧ ((s.take d).1.readBytes path).toOption = (w.disk.readBytes path).toOption :=
    fun s hs d hd => ⟨hd.1.take s, (hd.1.readBytes_take hs).trans hd.2⟩
  refine (h.kept (P := fun d => Findable path d ∧ (d.readBytes path).toOption = (w.disk.readBytes path).toOption)
    (fun r hr s hs => ?_) (fun g hg input s hs => hstep s fun ht => ?_) ⟨hd, rfl⟩).2
  · unfold Resolved.saving at hs
    rw [if_neg (by simp [hnone r hr])] at hs
    cases hs
  · obtain ⟨t, ht, hplace⟩ := Generator.begin_target hs ht
    exact hpath t (List.mem_flatMap.2 ⟨g, hg, ht⟩) hplace.symm

end GraphqlCodegen
