import GraphqlCodegen.Proofs.Settings.Files

/-!
# A file of settings is a map

What is asked of settings one after the other (`Operation`, `performAll`) is answered by a file of settings as by settings
in memory that began with the strings in the file, and reading the file anew in between changes none of the answers
(`file_refines_memory`). What stands in the file under other keys stays there.

The two are kept in step by one relation: the document that is held and the one in the file have the same under each key,
and the strings in both are those in memory (`Tracks`).
-/

namespace GraphqlCodegen.Settings

open Disk (SameShape)
open Toml (Document)
open Toml.Document (SameEntry)

/-! ## Operations -/

/-- What is asked of settings. -/
inductive Operation where
  | get (key : String)
  /-- The value, or one that the user is asked for; nobody is there to be asked. -/
  | prompt (key : String)
  | set (key value : String)
  /-- The settings are made anew from their file. -/
  | reload
  deriving DecidableEq

inductive Answer where
  | value (value : Option String)
  | saved (failure : Option StoreError)
  deriving DecidableEq

/-- The settings as they are made anew; settings in memory have no file. -/
def reload (s : Settings) (d : Disk) : Settings :=
  match s with
  | .memory values => .memory values
  | .file path _ => load d path

/-- The answer to an operation, if it has one, and the settings and the disk after it. -/
def Operation.perform (s : Settings) (d : Disk) : Operation → Option Answer × Settings × Disk
  | .get key => (some (.value (s.get? key)), s, d)
  | .prompt key => (some (.value (s.remembered? key)), s, d)
  | .set key value =>
    let (s, d, failure) := s.set d key value
    (some (.saved failure), s, d)
  | .reload => (none, s.reload d, d)

/-- All answers in a row. -/
def performAll : List Operation → Settings → Disk → List Answer × Settings × Disk
  | [], s, d => ([], s, d)
  | op :: ops, s, d =>
    let (answer, s, d) := op.perform s d
    let (answers, s, d) := performAll ops s d
    (answer.toList ++ answers, s, d)

theorem performAll_cons (op : Operation) (ops : List Operation) (s : Settings) (d : Disk) :
    performAll (op :: ops) s d =
      ((op.perform s d).1.toList ++ (performAll ops (op.perform s d).2.1 (op.perform s d).2.2).1,
        (performAll ops (op.perform s d).2.1 (op.perform s d).2.2).2) := rfl

theorem performAll_append : ∀ (ops ops' : List Operation) (s : Settings) (d : Disk), performAll (ops ++ ops') s d =
    ((performAll ops s d).1 ++ (performAll ops' (performAll ops s d).2.1 (performAll ops s d).2.2).1,
      (performAll ops' (performAll ops s d).2.1 (performAll ops s d).2.2).2)
  | [], _, _, _ => rfl
  | op :: ops, ops', s, d => by
    rw [List.cons_append, performAll_cons, performAll_append ops ops', performAll_cons]
    simp only [List.append_assoc]

/-- All values could be saved. -/
def AllSaved (answers : List Answer) : Prop := ∀ failure, .saved (some failure) ∉ answers

/-! ## Keeping step -/

variable {path : String} {document document' : Document} {d d' : Disk} {values : Entries String}

/-- The document that is held, the one in the file and the values in memory belong together. -/
structure Tracks (path : String) (document : Document) (d : Disk) (values : Entries String) : Prop where
  held : document.IsSound
  inFile : (documentOf d path).IsSound
  same : ∀ key, SameEntry key document (documentOf d path)
  values : ∀ key, document.get? key = Entries.get? key values

theorem tracks_load (h : (documentOf d path).Rereads) :
    Tracks path (documentOf d path) d (Entries.ofList (documentOf d path).strings) :=
  have hs := isSound_documentOf h
  ⟨hs, hs, fun key => .refl key _, fun key => (Document.get?_strings hs.consistent key).symm⟩

theorem Tracks.reload (h : Tracks path document d values) : Tracks path (documentOf d path) d values :=
  ⟨h.inFile, h.inFile, fun key => .refl key _, fun key =>
    ((h.same key).get?_eq h.held.consistent h.inFile.consistent).symm.trans (h.values key)⟩

theorem Tracks.set (h : Tracks path document d values) (key value : String)
    (hs : (save d path (document.set key value)).2 = none) :
    Tracks path (document.set key value) (save d path (document.set key value)).1 (Entries.put key value values) := by
  have hheld := h.held.set key value
  have hfile := documentOf_save hheld hs
  refine ⟨hheld, by rw [hfile]; exact hheld.written, fun k => by rw [hfile]; exact Document.sameEntry_written hheld.toHasKeys k, fun k => ?_⟩
  by_cases hk : k = key
  · subst hk
    rw [Document.get?_set_self, Entries.get?_put_self]
  · rw [Document.get?_set_other document hk, Entries.get?_put_ne hk, h.values]

/-- A file and memory answer alike and stay in step, and the keys that are not set keep their entries. -/
theorem Tracks.perform (h : Tracks path document d values) (op : Operation)
    (hok : AllSaved (op.perform (.file path document) d).1.toList) : ∃ a document' d' values',
      op.perform (.file path document) d = (a, .file path document', d') ∧
      (∀ e, op.perform (.memory values) e = (a, .memory values', e)) ∧ Tracks path document' d' values' ∧
      ∀ key, (∀ value, op ≠ .set key value) → SameEntry key document document' := by
  have hget : ∀ key, (Settings.file path document).get? key = (Settings.memory values).get? key := h.values
  cases op with
  | get key => exact ⟨_, _, _, _, rfl, fun e => by rw [Operation.perform, ← hget], h, fun k _ => .refl k _⟩
  | prompt key =>
    exact ⟨_, _, _, _, rfl, fun e => by rw [Operation.perform, remembered?, ← hget]; rfl, h, fun k _ => .refl k _⟩
  | set key value =>
    have hs : (save d path (document.set key value)).2 = none := by
      cases hf : (save d path (document.set key value)).2 with
      | none => rfl
      | some failure => exact absurd (by simp [Operation.perform, Settings.set, hf]) (hok failure)
    refine ⟨some (.saved none), _, _, _, ?_, fun e => rfl, h.set key value hs, fun k hk => ?_⟩
    · simp only [Operation.perform, Settings.set, hs]
    · exact Document.sameEntry_set document key value fun hkey => hk value (hkey ▸ rfl)
  | reload => exact ⟨_, _, _, _, rfl, fun e => rfl, h.reload, fun k _ => h.same k⟩

theorem AllSaved.of_append {answers answers' : List Answer} (h : AllSaved (answers ++ answers')) :
    AllSaved answers ∧ AllSaved answers' :=
  ⟨fun f hf => h f (List.mem_append_left _ hf), fun f hf => h f (List.mem_append_right _ hf)⟩

theorem Tracks.performAll (h : Tracks path document d values) (ops : List Operation)
    (hok : AllSaved (performAll ops (.file path document) d).1) : ∃ answers document' d' values',
      Settings.performAll ops (.file path document) d = (answers, .file path document', d') ∧
      (∀ e, Settings.performAll ops (.memory values) e = (answers, .memory values', e)) ∧ Tracks path document' d' values' ∧
      ∀ key, (∀ value, .set key value ∉ ops) → SameEntry key document document' := by
  induction ops generalizing document d values with
  | nil => exact ⟨_, _, _, _, rfl, fun e => rfl, h, fun key _ => .refl key _⟩
  | cons op ops ih =>
    rw [performAll_cons] at hok
    obtain ⟨hfirst, hrest⟩ := hok.of_append
    obtain ⟨a, document₁, d₁, values₁, hfile, hmemory, h₁, hsame₁⟩ := h.perform op hfirst
    rw [hfile] at hrest
    obtain ⟨answers, document', d', values', hfile', hmemory', h', hsame'⟩ := ih h₁ hrest
    refine ⟨a.toList ++ answers, document', d', values', ?_, fun e => ?_, h', fun key hkey => ?_⟩
    · rw [performAll_cons, hfile, hfile']
    · rw [performAll_cons, hmemory, hmemory']
    · refine (hsame₁ key fun value he => hkey value ?_).trans (hsame' key fun value hm => hkey value (List.mem_cons_of_mem _ hm))
      rw [he]
      exact List.mem_cons_self

/-! ## Another document on a disk of the same shape -/

/-- A step is saved or not whichever document is held, and leaves disks of one shape. -/
theorem perform_sameShape (h : SameShape d d') (path : String) (document document' : Document) (op : Operation) : ∃ e e',
    (op.perform (.file path document) d).2 = (.file path e, (op.perform (.file path document) d).2.2) ∧
    (op.perform (.file path document') d').2 = (.file path e', (op.perform (.file path document') d').2.2) ∧
      (AllSaved (op.perform (.file path document) d).1.toList → AllSaved (op.perform (.file path document') d').1.toList) ∧
      SameShape (op.perform (.file path document) d).2.2 (op.perform (.file path document') d').2.2 := by
  cases op with
  | get key => exact ⟨_, _, rfl, rfl, fun _ => by simp [AllSaved, Operation.perform], h⟩
  | prompt key => exact ⟨_, _, rfl, rfl, fun _ => by simp [AllSaved, Operation.perform], h⟩
  | set key value =>
    obtain ⟨hfailure, hshape⟩ := save_sameShape h path (document.set key value) (document'.set key value)
    refine ⟨_, _, rfl, rfl, fun hok => ?_, hshape⟩
    simpa [Operation.perform, Settings.set, hfailure] using hok
  | reload => exact ⟨_, _, rfl, rfl, fun _ => by simp [AllSaved, Operation.perform], h⟩

/-- All values can be saved whichever document is held. -/
theorem performAll_sameShape (h : SameShape d d') (document document' : Document) (ops : List Operation)
    (hok : AllSaved (performAll ops (.file path document) d).1) : AllSaved (performAll ops (.file path document') d').1 := by
  induction ops generalizing document document' d d' with
  | nil => exact hok
  | cons op ops ih =>
    rw [performAll_cons] at hok ⊢
    obtain ⟨hfirst, hrest⟩ := hok.of_append
    obtain ⟨e, e', he, he', hsaved, hshape⟩ := perform_sameShape h path document document' op
    rw [he] at hrest
    have hrest' := ih hshape e e' hrest
    rw [he']
    intro failure hm
    rcases List.mem_append.1 hm with hm | hm
    · exact hsaved hfirst failure hm
    · exact hrest' failure hm

/-- Settings are read from a file that can be read back, and all values that are set afterwards can be saved. Then the
answers are those of settings in memory that begin with the strings in the file; they stay the same if the file is read anew
at any time; and what stands under a key that was not set is in the file at the end, with all its lines. -/
theorem file_refines_memory (path : String) (d : Disk) (ops : List Operation) (hread : (documentOf d path).Rereads)
    (hsaved : AllSaved (performAll ops (load d path) d).1) :
    (∀ e, (performAll ops (load d path) d).1 = (performAll ops (.memory (Entries.ofList (documentOf d path).strings)) e).1) ∧
    (∀ before after, ops = before ++ after →
      (performAll (before ++ .reload :: after) (load d path) d).1 = (performAll ops (load d path) d).1) ∧
    ∀ key, (∀ value, .set key value ∉ ops) →
      SameEntry key (documentOf d path) (documentOf (performAll ops (load d path) d).2.2 path) := by
  have hstart := tracks_load hread
  rw [load_eq] at hsaved ⊢
  obtain ⟨answers, document', d', values', hfile, hmemory, h', hsame⟩ := hstart.performAll ops hsaved
  refine ⟨fun e => by rw [hfile, hmemory], ?_, fun key hkey => by rw [hfile]; exact (hsame key hkey).trans (h'.same key)⟩
  rintro before after rfl
  rw [performAll_append] at hsaved
  obtain ⟨hbefore, hafter⟩ := hsaved.of_append
  obtain ⟨_, document₁, d₁, values₁, hfile₁, -, h₁, -⟩ := hstart.performAll before hbefore
  rw [hfile₁] at hafter
  -- the document that is held and the one in the file track the same values
  obtain ⟨_, _, _, _, hheld, hmem, -, -⟩ := h₁.performAll after hafter
  obtain ⟨_, _, _, _, hread₁, hmem₁, -, -⟩ := h₁.reload.performAll after (performAll_sameShape (.refl d₁) _ _ after hafter)
  have hanswers := (hmem d₁).symm.trans (hmem₁ d₁)
  rw [performAll_append, performAll_append, hfile₁]
  show _ ++ (performAll after (.file path (documentOf d₁ path)) d₁).1 = _ ++ (performAll after (.file path document₁) d₁).1
  rw [hheld, hread₁]
  simp only [Prod.mk.injEq] at hanswers
  rw [hanswers.1]

def toolText : String := "# pets\nurlOrPath = \"pets.graphql\"\n[tool]\nname = \"zeus\"\nlevel = 3\n"

def toolDisk : Disk := ⟨[([".zeus.toml"], .file toolText.toUTF8)]⟩

/-- A dotted key and a value of two lines are set, and a table stays. -/
def toolOperations : List Operation :=
  [.get "urlOrPath", .set "tool.name" "one\ntwo", .set "urlOrPath" "", .get "tool.name", .prompt "urlOrPath", .get "tool"]

theorem file_refines_memory_tool : (documentOf toolDisk defaultSettingsPath).Rereads ∧
    (performAll toolOperations (load toolDisk defaultSettingsPath) toolDisk).1 = [.value (some "pets.graphql"), .saved none,
      .saved none, .value (some "one\ntwo"), .value none, .value none] ∧
    (∀ before after, toolOperations = before ++ after →
      (performAll (before ++ .reload :: after) (load toolDisk defaultSettingsPath) toolDisk).1 =
        (performAll toolOperations (load toolDisk defaultSettingsPath) toolDisk).1) ∧
    SameEntry "tool" (documentOf toolDisk defaultSettingsPath)
      (documentOf (performAll toolOperations (load toolDisk defaultSettingsPath) toolDisk).2.2 defaultSettingsPath) := by
  have htext : toolDisk.readText defaultSettingsPath = .ok toolText := by decide +kernel
  have hread : (documentOf toolDisk defaultSettingsPath).Rereads := rereads_documentOf fun text ht => by
    cases htext.symm.trans ht
    decide +kernel
  have hanswers : (performAll toolOperations (load toolDisk defaultSettingsPath) toolDisk).1 = [.value (some "pets.graphql"),
      .saved none, .saved none, .value (some "one\ntwo"), .value none, .value none] := by decide +kernel
  obtain ⟨-, hreload, hentries⟩ := file_refines_memory defaultSettingsPath toolDisk toolOperations hread (by simp [hanswers, AllSaved])
  exact ⟨hread, hanswers, hreload, hentries "tool" fun value => by simp [toolOperations]⟩

end GraphqlCodegen.Settings
