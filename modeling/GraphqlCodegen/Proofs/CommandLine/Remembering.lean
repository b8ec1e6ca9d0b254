import GraphqlCodegen.Proofs.Run.Saving

/-!
# The source that is remembered

Commands that follow each other with one file of settings (`Follow`), which nobody else changes in between. Each of them
resolves to the source that it is given; without one, to the last that an earlier command was given and that was to be
remembered; and without that, to the one that was stored at the beginning (`resolves_to_due`).

One command keeps the file sound and leaves in it the source that it was given, or the one that it found
(`Execution.stores`); the rest is an induction over the commands. Two things can come between: a generator that writes to
the place of the settings, and a path of the settings that steps up from a directory which a command creates
(`undue_sources`).
-/

namespace GraphqlCodegen.CommandLine

open Disk (IsTree Steady placeOf)
open Settings (documentOf)

/-- The source that is stored in the file of the settings. -/
def storedSource (d : Disk) (path : String) : Option String := (Settings.load d path).get? sourceKey

/-- A command that was carried out on a disk, with what came of it. -/
structure Execution where
  arguments : Arguments
  /-- The disk that the command found. -/
  found : Disk
  endpoint : Http.Endpoint
  /-- What came of saving the source. -/
  saving : Progress
  outcome : Outcome
  tree : IsTree found
  runs : RunsSaving arguments.options ⟨Settings.load found arguments.settingsPath, found, endpoint⟩ saving outcome

namespace Execution

variable (x : Execution)

theorem executes : Executes x.arguments x.found x.endpoint (.ofOutcome x.outcome) := ⟨_, runs_iff.2 ⟨_, x.runs⟩, rfl⟩

/-- All that carrying out arguments may come to comes of an execution. -/
theorem exists_of_executes {a : Arguments} {d : Disk} {e : Http.Endpoint} {exit : Exit} (ht : IsTree d) (h : Executes a d e exit) :
    ∃ x : Execution, x.arguments = a ∧ x.found = d ∧ x.endpoint = e ∧ .ofOutcome x.outcome = exit := by
  obtain ⟨outcome, hrun, rfl⟩ := h
  obtain ⟨saving, hrun⟩ := runs_iff.1 hrun
  exact ⟨⟨a, d, e, saving, outcome, ht, hrun⟩, rfl, rfl, rfl, rfl⟩

/-- The source that the command is given, without blanks around it. -/
def given : Option String := givenSource x.arguments.options.source

/-- The source that is to be remembered for later commands. -/
def remembered : Option String := if x.arguments.has .noSave then none else x.given

/-- The source that the command resolves to. -/
def resolved : Except Failure Source :=
  (resolve x.arguments.options.source (Settings.load x.found x.arguments.settingsPath)).map Resolved.source

/-- No artifact that the command may write has the place of the settings. -/
def SparesSettings (path : String) : Prop :=
  ∀ t ∈ Generator.requestedDestinations x.arguments.options, placeOf t.path ≠ placeOf path

end Execution

/-- Commands with one file of settings follow each other. Between them anything may be changed on the disk, but what is
read from this file stays. -/
inductive Follow (path : String) : Disk → List Execution → Prop
  | nil (d : Disk) : Follow path d []
  | cons {d : Disk} {x : Execution} {xs : List Execution} : x.arguments.settingsPath = path →
    (x.found.readBytes path).toOption = (d.readBytes path).toOption → Follow path x.outcome.disk xs → Follow path d (x :: xs)

/-- The last source that commands were to remember. -/
def lastRemembered (xs : List Execution) : Option String := (xs.filterMap Execution.remembered).getLast?

/-- The source that a command is to resolve to behind others: the one that it is given, or the last one to be remembered, or
the one that was stored at the beginning, unless that is empty. -/
def dueSource (stored : Option String) (before : List Execution) (x : Execution) : Option String :=
  x.given.or ((lastRemembered before).or (stored.filter (· != "")))

/-! ## One command -/

theorem Execution.remembered_filter (x : Execution) : x.remembered.filter (· != "") = x.remembered := by
  unfold remembered
  split
  · rfl
  · exact givenSource_ne _

theorem saveOnInput_iff (a : Arguments) : a.options.saveOnInput = true ↔ ¬a.has .noSave = true := by
  simp [Arguments.options]

/-- A sound file stays sound, and holds the source that was to be remembered, or else the one that it held. -/
theorem Execution.stores {path : String} (x : Execution) (hpath : x.arguments.settingsPath = path)
    (hsound : (documentOf x.found path).IsSound) (hsaved : x.saving.failure = none) (hsteady : Steady path x.found)
    (hspares : x.SparesSettings path) : (documentOf x.outcome.disk path).IsSound ∧
      storedSource x.outcome.disk path = x.remembered.or (storedSource x.found path) := by
  obtain ⟨a, d, e, saving, outcome, htree, hrun⟩ := x
  simp only at hpath hsound hsaved hsteady
  subst hpath
  show (documentOf outcome.disk a.settingsPath).IsSound ∧ storedSource outcome.disk a.settingsPath =
    (if a.has .noSave then none else givenSource a.options.source).or (storedSource d a.settingsPath)
  by_cases hneeds : ∃ r, resolve a.options.source (Settings.load d a.settingsPath) = .ok r ∧
      r.needsSaving (Settings.load d a.settingsPath) a.options.saveOnInput = true
  · obtain ⟨r, hr, hneeds⟩ := hneeds
    obtain ⟨hsound', hget⟩ := hrun.reread hr hspares hneeds hsaved hsound
    simp only [Resolved.needsSaving, Bool.and_eq_true] at hneeds
    obtain ⟨⟨hgiven, hsave⟩, -⟩ := hneeds
    refine ⟨hsound', ?_⟩
    rw [if_neg ((saveOnInput_iff a).1 hsave), given_of_resolve hr hgiven]
    exact hget
  · have hnone : ∀ r, resolve a.options.source (Settings.load d a.settingsPath) = .ok r →
        r.needsSaving (Settings.load d a.settingsPath) a.options.saveOnInput = false := by
      intro r hr
      rw [← Bool.not_eq_true]
      exact fun h => hneeds ⟨r, hr, h⟩
    have hsame : documentOf outcome.disk a.settingsPath = documentOf d a.settingsPath :=
      Settings.documentOf_congr (hrun.unchanged ⟨htree, hsteady⟩ hnone hspares)
    have hstored : storedSource outcome.disk a.settingsPath = storedSource d a.settingsPath :=
      congrArg (·.get? sourceKey) hsame
    refine ⟨by rwa [hsame], ?_⟩
    rw [hstored]
    split
    · rfl
    · rename_i hsave
      cases hg : givenSource a.options.source with
      | none => rfl
      | some t =>
        -- a source that is given and not saved is stored already
        have hn := hnone _ (resolve_given hg _)
        simpa [storedSource, Resolved.needsSaving, (saveOnInput_iff a).2 hsave] using hn

/-- Without a source the command fails. -/
theorem Execution.fails_of_missing {x : Execution} (h : x.resolved = .error .missingSource) :
    x.outcome.result = .error .missingSource := by
  obtain ⟨a, d, e, saving, outcome, htree, hrun⟩ := x
  cases hrun with
  | unresolved hr => rw [resolved, hr] at h; cases h; rfl
  | failed n hr _ => rw [resolved, hr] at h; cases h
  | finished n hr _ _ => rw [resolved, hr] at h; cases h

theorem Execution.url_iff {x : Execution} {source : Source} (h : x.resolved = .ok source) : (∃ url, source = .url url) ↔
    "http://".toList <+: source.text.toList ∨ "https://".toList <+: source.text.toList := by
  rw [resolved, resolve_source] at h
  generalize (givenSource _).or _ = due at h
  cases due with
  | none => cases h
  | some t =>
    cases h
    rw [Source.text_classify]
    exact Source.classify_url_iff t

/-! ## One command after the other -/

theorem lastRemembered_cons (x : Execution) (xs : List Execution) :
    lastRemembered (x :: xs) = (lastRemembered xs).or x.remembered := by
  unfold lastRemembered
  cases hx : x.remembered with
  | none => simp [hx]
  | some t => simp [hx, List.getLast?_cons]

theorem lastRemembered_concat (xs : List Execution) (x : Execution) :
    lastRemembered (xs ++ [x]) = x.remembered.or (lastRemembered xs) := by
  unfold lastRemembered
  cases hx : x.remembered <;> simp [hx, List.filterMap_append]

theorem lastRemembered_filter (xs : List Execution) : (lastRemembered xs).filter (· != "") = lastRemembered xs := by
  induction xs with
  | nil => rfl
  | cons x xs ih =>
    rw [lastRemembered_cons]
    cases h : lastRemembered xs with
    | none => exact x.remembered_filter
    | some t => rw [h] at ih; exact ih

/-- Behind commands that follow each other, the file holds the last source that was to be remembered. -/
theorem Follow.stored {path : String} : ∀ {before : List Execution} {d : Disk} {x : Execution} {after : List Execution},
    Follow path d (before ++ x :: after) → (documentOf d path).IsSound → (∀ y ∈ before, y.saving.failure = none) →
      (∀ y ∈ before, Steady path y.found) → (∀ y ∈ before, y.SparesSettings path) →
        x.arguments.settingsPath = path ∧ (documentOf x.found path).IsSound ∧
          storedSource x.found path = (lastRemembered before).or (storedSource d path)
  | [], d, x, after, h, hsound, _, _, _ => by
    cases h with
    | cons hpath hsame _ =>
      have hdocument := Settings.documentOf_congr hsame
      exact ⟨hpath, by rwa [hdocument], congrArg (·.get? sourceKey) hdocument⟩
  | y :: before, d, x, after, h, hsound, hsaved, hsteady, hspares => by
    rw [List.forall_mem_cons] at hsaved hsteady hspares
    cases h with
    | cons hpath hsame hrest =>
      have hdocument := Settings.documentOf_congr hsame
      obtain ⟨hsound', hstored⟩ := y.stores hpath (by rwa [hdocument]) hsaved.1 hsteady.1 hspares.1
      obtain ⟨hx, hxsound, hxstored⟩ := hrest.stored hsound' hsaved.2 hsteady.2 hspares.2
      have hfound : storedSource y.found path = storedSource d path := congrArg (·.get? sourceKey) hdocument
      refine ⟨hx, hxsound, ?_⟩
      rw [hxstored, hstored, hfound, lastRemembered_cons, Option.or_assoc]

/-- Commands follow each other with one file of settings that can be read back at the beginning, every source that was to be
saved could be, no command writes an artifact to the place of the settings, and their path does not step up, or only from a
directory that each command finds. Then each command resolves to the source that is due, and the file holds the last one
that was to be remembered; it stays as it is if there is none. -/
theorem resolves_to_due {path : String} {d : Disk} {xs : List Execution} (hfollow : Follow path d xs)
    (hread : (documentOf d path).Rereads) (hsaved : ∀ x ∈ xs, x.saving.failure = none)
    (hspares : ∀ x ∈ xs, x.SparesSettings path) (hsteady : ∀ x ∈ xs, Steady path x.found)
    {before after : List Execution} {x : Execution} (hxs : xs = before ++ x :: after) :
    x.resolved = resolution (dueSource (storedSource d path) before x) ∧
    (x.resolved = .error .missingSource → x.outcome.result = .error .missingSource) ∧
    (∀ source, x.resolved = .ok source → ((∃ url, source = .url url) ↔
      "http://".toList <+: source.text.toList ∨ "https://".toList <+: source.text.toList)) ∧
    storedSource x.outcome.disk path = (lastRemembered (before ++ [x])).or (storedSource d path) ∧
    (x.remembered = none → storedSource x.outcome.disk path = storedSource x.found path) := by
  subst hxs
  have hbefore : ∀ y ∈ before, y ∈ before ++ x :: after := fun y hy => List.mem_append_left _ hy
  have hx : x ∈ before ++ x :: after := by simp
  obtain ⟨hpath, hsound, hstored⟩ := hfollow.stored (Settings.isSound_documentOf hread) (fun y hy => hsaved y (hbefore y hy))
    (fun y hy => hsteady y (hbefore y hy)) fun y hy => hspares y (hbefore y hy)
  obtain ⟨-, hstores⟩ := x.stores hpath hsound (hsaved x hx) (hsteady x hx) (hspares x hx)
  have hresolved : x.resolved = resolution (dueSource (storedSource d path) before x) := by
    rw [Execution.resolved, resolve_source, hpath, dueSource, Execution.given]
    congr 2
    rw [Settings.remembered?, show (Settings.load x.found path).get? sourceKey = _ from hstored]
    cases hl : lastRemembered before with
    | none => rfl
    | some t =>
      have hfilter := lastRemembered_filter before
      rw [hl] at hfilter
      exact hfilter
  refine ⟨hresolved, Execution.fails_of_missing, fun source => Execution.url_iff, ?_, fun hnone => by rw [hstores, hnone]; rfl⟩
  rw [hstores, hstored, lastRemembered_concat, Option.or_assoc]

/-! ## Commands on a small disk -/

/-- A command that takes its steps one after the other; nothing is to be saved. -/
theorem Execution.exists_execute {d : Disk} (ht : IsTree d) (a : Arguments) (hnone : ∀ r,
    resolve a.options.source (Settings.load d a.settingsPath) = .ok r →
      r.needsSaving (Settings.load d a.settingsPath) a.options.saveOnInput = false) :
    ∃ x : Execution, x.arguments = a ∧ x.found = d ∧ x.outcome = run a.options ⟨Settings.load d a.settingsPath, d, fun _ => none⟩ ∧
      x.saving.failure = none := by
  obtain ⟨saving, hrun⟩ := runs_iff.1 (runs_run a.options ⟨Settings.load d a.settingsPath, d, fun _ => none⟩)
  exact ⟨⟨a, d, fun _ => none, saving, _, ht, hrun⟩, rfl, rfl, rfl, hrun.failure_none hnone⟩

/-- With `--noSave`, or if no source is given, nothing is to be saved. -/
theorem needsSaving_false {a : Arguments} (h : a.has .noSave = true ∨ givenSource a.options.source = none) {s : Settings} :
    ∀ r, resolve a.options.source s = .ok r → r.needsSaving s a.options.saveOnInput = false := by
  intro r hr
  rcases h with hsave | hgiven
  · have hn : a.options.saveOnInput = false := by rw [← Bool.not_eq_true, saveOnInput_iff]; simpa using hsave
    simp [Resolved.needsSaving, hn]
  · cases hg : r.given with
    | true => rw [given_of_resolve hr hg] at hgiven; cases hgiven
    | false => simp [Resolved.needsSaving, hg]

/-- A schema, and settings that name another one. -/
def keptDisk : Disk := ⟨[(["pets"], .file "type Query { pet: ID }".toUTF8), ([".zeus.toml"], .file "urlOrPath = \"old\"\n".toUTF8)]⟩

def lostArguments : Arguments := ⟨[], [(.source, " lost ")]⟩

def keptPetArguments : Arguments := ⟨[.noSave], [(.source, "pets"), (.outputDir, "out")]⟩

def lostSurroundings : Surroundings := ⟨Settings.load keptDisk lostArguments.settingsPath, keptDisk, fun _ => none⟩

def lostSource : Resolved := ⟨.path "lost", true⟩

/-- The schema that is named cannot be read, and is remembered all the same. -/
theorem runs_lost : ∃ x : Execution, x.arguments = lostArguments ∧ x.found = keptDisk ∧ x.saving.failure = none ∧
    x.outcome.result.toOption = none := by
  have hresolve : resolve lostArguments.options.source lostSurroundings.settings = .ok lostSource := by decide +kernel
  have hread : (lostSource.saved lostSurroundings lostArguments.options 2).1.readText "lost" = .error .notFound := by decide +kernel
  have hinput : schemaInput lostSurroundings.endpoint (lostSource.saved lostSurroundings lostArguments.options 2).1
      lostSource.source lostArguments.options = .error (.unreadable "lost" .notFound) := by
    rw [schemaInput, lostSource, acquire, ← lostSource, hread]
    rfl
  have hrun := RunsSaving.failed 2 hresolve hinput
  have htree : IsTree keptDisk := Disk.isTree_of_entries (by simp [keptDisk, Disk.get?, Disk.Place.here])
  have hsaved : ∀ p, (lostSource.saved lostSurroundings lostArguments.options 2).2.finish
      (lostSource.saved lostSurroundings lostArguments.options 2).1 = p → p.2.failure = none := by
    rintro p rfl
    decide +kernel
  generalize (lostSource.saved lostSurroundings lostArguments.options 2).2.finish
      (lostSource.saved lostSurroundings lostArguments.options 2).1 = p at hrun hsaved
  exact ⟨⟨lostArguments, keptDisk, fun _ => none, _, _, htree, hrun⟩, rfl, rfl, hsaved p rfl, rfl⟩

theorem resolves_to_due_lost : ∃ x y z : Execution, Follow ".zeus.toml" keptDisk [x, y, z] ∧
    storedSource keptDisk ".zeus.toml" = some "old" ∧ x.resolved = .ok (.path "lost") ∧ x.outcome.result.toOption = none ∧
    y.resolved = .ok (.path "pets") ∧ z.given = none ∧ z.resolved = .ok (.path "lost") := by
  obtain ⟨x, hxa, hxd, hxs, hxr⟩ := runs_lost
  obtain ⟨y, hya, hyd, -, hys⟩ := Execution.exists_execute (x.runs.tree x.tree) keptPetArguments (needsSaving_false (.inl rfl))
  obtain ⟨z, hza, hzd, -, hzs⟩ := Execution.exists_execute (y.runs.tree y.tree) ⟨[], []⟩ (needsSaving_false (.inr rfl))
  have hfollow : Follow ".zeus.toml" keptDisk [x, y, z] :=
    .cons (by rw [hxa]; rfl) (by rw [hxd]) (.cons (by rw [hya]; rfl) (by rw [hyd]) (.cons (by rw [hza]; rfl) (by rw [hzd]) (.nil _)))
  have htext : keptDisk.readText ".zeus.toml" = .ok "urlOrPath = \"old\"\n" := by decide +kernel
  have hread : (documentOf keptDisk ".zeus.toml").Rereads := Settings.rereads_documentOf fun text ht => by
    cases htext.symm.trans ht
    decide +kernel
  have hsaved : ∀ e ∈ [x, y, z], e.saving.failure = none := by simp [hxs, hys, hzs]
  have hsteady : ∀ e ∈ [x, y, z], Steady ".zeus.toml" e.found := fun _ _ => .inl (by decide +kernel)
  have hspares : ∀ e ∈ [x, y, z], e.SparesSettings ".zeus.toml" := by
    have hall : ∀ a ∈ [lostArguments, keptPetArguments, ⟨[], []⟩],
        ∀ t ∈ Generator.requestedDestinations a.options, placeOf t.path ≠ placeOf ".zeus.toml" := by decide +kernel
    intro e he
    refine hall e.arguments ?_
    simp only [List.mem_cons, List.not_mem_nil, or_false] at he
    rcases he with rfl | rfl | rfl <;> simp [*]
  have hstored : storedSource keptDisk ".zeus.toml" = some "old" := by decide +kernel
  have hgiven : x.given = some "lost" ∧ y.given = some "pets" ∧ z.given = none := by
    simp only [Execution.given, hxa, hya, hza]
    decide +kernel
  have hremembered : x.remembered = some "lost" ∧ y.remembered = none := by
    simp only [Execution.remembered, hgiven, hxa, hya]
    decide
  have hall := fun before after e => @resolves_to_due _ _ _ hfollow hread hsaved hspares hsteady before after e
  have hx := (hall [] [y, z] x rfl).1
  have hy := (hall [x] [z] y rfl).1
  have hz := (hall [x, y] [] z rfl).1
  simp only [dueSource, lastRemembered, List.filterMap_cons, List.filterMap_nil, hgiven, hremembered, hstored] at hx hy hz
  exact ⟨x, y, z, hfollow, hstored, hx, hxr, hy, hgiven.2.2, hz⟩

/-- The settings are kept where the copy of the schema goes. -/
def overwrittenDisk : Disk := ⟨[(["pets"], .file "type Query { pet: ID }".toUTF8), (["x"], .directory),
  (["x", "schema.graphql"], .file "urlOrPath = \"pets\"\n".toUTF8)]⟩

def overwritingArguments : Arguments :=
  ⟨[.noSave], [(.source, "pets"), (.outputDir, "out"), (.graphql, "x/schema.graphql"), (.config, "x/schema.graphql")]⟩

/-- The settings are reached by way of a directory that is not there yet. -/
def hiddenDisk : Disk := ⟨[(["pets"], .file "type Query { pet: ID }".toUTF8), (["kept"], .file "urlOrPath = \"pets\"\n".toUTF8)]⟩

def uncoveringArguments : Arguments := ⟨[.noSave], [(.source, "pets"), (.outputDir, "out"), (.config, "out/../kept")]⟩

def askingArguments : Arguments := ⟨[], [(.config, "out/../kept")]⟩

/-- A command that writes an artifact to the place of the settings, with nothing to be remembered, takes away the source that
was stored. And where the path of the settings steps up from a directory, a command that creates this directory brings a
source to light: the same is due before and after, whatever was stored. -/
theorem undue_sources :
    (∃ x y : Execution, Follow "x/schema.graphql" overwrittenDisk [x, y] ∧ (documentOf overwrittenDisk "x/schema.graphql").Rereads ∧
      (∀ e ∈ [x, y], e.saving.failure = none) ∧ (∀ e ∈ [x, y], Steady "x/schema.graphql" e.found) ∧ x.remembered = none ∧
      dueSource (storedSource overwrittenDisk "x/schema.graphql") [x] y = some "pets" ∧ y.resolved = .error .missingSource) ∧
    ∃ x y z : Execution, Follow "out/../kept" hiddenDisk [x, y, z] ∧ (documentOf hiddenDisk "out/../kept").Rereads ∧
      (∀ e ∈ [x, y, z], e.saving.failure = none) ∧ (∀ e ∈ [x, y, z], e.SparesSettings "out/../kept") ∧
      (∀ stored, dueSource stored [] x = dueSource stored [x, y] z) ∧
      x.resolved = .error .missingSource ∧ z.resolved = .ok (.path "pets") := by
  constructor
  · have htree : IsTree overwrittenDisk :=
      Disk.isTree_of_entries (by simp [overwrittenDisk, Disk.get?, Disk.Place.here, Disk.Place.top])
    obtain ⟨x, hxa, hxd, hxo, hxs⟩ := Execution.exists_execute htree overwritingArguments (needsSaving_false (.inl rfl))
    obtain ⟨y, hya, hyd, -, hys⟩ := Execution.exists_execute (x.runs.tree x.tree) ⟨[], [(.config, "x/schema.graphql")]⟩
      (needsSaving_false (.inr rfl))
    have hx : x.remembered = none := by rw [Execution.remembered, hxa]; rfl
    have hy : y.given = none := by rw [Execution.given, hya]; rfl
    have hstored : storedSource overwrittenDisk "x/schema.graphql" = some "pets" := by decide +kernel
    have htext : overwrittenDisk.readText "x/schema.graphql" = .ok "urlOrPath = \"pets\"\n" := by decide +kernel
    refine ⟨x, y, .cons (by rw [hxa]; rfl) (by rw [hxd]) (.cons (by rw [hya]; rfl) (by rw [hyd]) (.nil _)), ?_, by simp [hxs, hys],
      fun _ _ => .inl (by decide +kernel), hx, by simp [dueSource, lastRemembered, hx, hy, hstored], ?_⟩
    · refine Settings.rereads_documentOf fun text ht => ?_
      cases htext.symm.trans ht
      decide +kernel
    · rw [Execution.resolved, hya, hyd, hxo]
      decide +kernel
  · have htree : IsTree hiddenDisk := Disk.isTree_of_entries (by simp [hiddenDisk, Disk.get?, Disk.Place.here])
    obtain ⟨x, hxa, hxd, hxo, hxs⟩ := Execution.exists_execute htree askingArguments (needsSaving_false (.inr rfl))
    obtain ⟨y, hya, hyd, hyo, hys⟩ := Execution.exists_execute (x.runs.tree x.tree) uncoveringArguments (needsSaving_false (.inl rfl))
    obtain ⟨z, hza, hzd, -, hzs⟩ := Execution.exists_execute (y.runs.tree y.tree) askingArguments (needsSaving_false (.inr rfl))
    have hx : x.remembered = none ∧ x.given = none := by
      rw [Execution.remembered, Execution.given, hxa]
      exact ⟨rfl, rfl⟩
    have hy : y.remembered = none := by rw [Execution.remembered, hya]; rfl
    have hz : z.given = none := by rw [Execution.given, hza]; rfl
    have htext : hiddenDisk.readText "out/../kept" = .error .notFound := by decide +kernel
    have hspares : ∀ a ∈ [askingArguments, uncoveringArguments],
        ∀ t ∈ Generator.requestedDestinations a.options, placeOf t.path ≠ placeOf "out/../kept" := by decide +kernel
    refine ⟨x, y, z, .cons (by rw [hxa]; rfl) (by rw [hxd]) (.cons (by rw [hya]; rfl) (by rw [hyd])
      (.cons (by rw [hza]; rfl) (by rw [hzd]) (.nil _))), ?_, by simp [hxs, hys, hzs], fun e he => hspares e.arguments ?_,
      fun stored => by simp [dueSource, lastRemembered, hx, hy, hz], ?_, ?_⟩
    · exact Settings.rereads_documentOf fun text ht => by rw [htext] at ht; cases ht
    · simp only [List.mem_cons, List.not_mem_nil, or_false] at he
      rcases he with rfl | rfl | rfl <;> simp [*]
    · rw [Execution.resolved, hxa, hxd]
      decide +kernel
    · rw [Execution.resolved, hza, hzd, hyo, hxo]
      decide +kernel

end GraphqlCodegen.CommandLine
