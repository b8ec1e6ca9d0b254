import GraphqlCodegen.Proofs.Disk.Refusal
import GraphqlCodegen.Proofs.Settings.Files

/-!
# A value that could not be saved

Setting a value changes the document that is held first and writes its file afterwards. If that fails, all files are as they were,
and none of them is at the path (`save_failed_files`, `save_failed_readBytes`). The document keeps the value all the same: it is
what the settings answer from then on, and what they write once another key is set and can be saved (`set_failed`). So a failed
call leaves the settings as they were only if the value was there already.
-/

namespace GraphqlCodegen.Settings

open Disk (Opens Stands)
open Toml (Document Line writeEntry)

variable {d d' : Disk} {path : String} {document : Document} {key value : String}

/-! ## The disk after a failure -/

theorem prepare_opens (d : Disk) (path : String) : Opens d (prepare d path).1 := by
  unfold prepare
  split
  · exact .refl d
  · exact .refl d
  · exact Disk.makeDirectories_opens d _

/-- Nothing but directories has been created. -/
theorem save_failed_disk (h : (save d path document).2 ≠ none) : (save d path document).1 = (prepare d path).1 := by
  unfold save at h ⊢
  generalize prepare d path = x at h
  obtain ⟨d₁, failure⟩ := x
  cases failure with
  | some e => rfl
  | none =>
    simp only at h ⊢
    cases hw : d₁.write path document.text with
    | error e => rfl
    | ok d₂ =>
      rw [hw] at h
      exact absurd rfl h

theorem save_failed_files (h : (save d path document).2 ≠ none) (place : Disk.Place) (c : ByteArray) :
    (save d path document).1.get? place = some (.file c) ↔ d.get? place = some (.file c) := by
  rw [save_failed_disk h]
  exact (prepare_opens d path).file_iff

/-- Where the directories of the file cannot be created, the file cannot be written either. -/
theorem prepare_refused (h : (prepare d path).2 ≠ none) (text : String) : ∃ e, (prepare d path).1.write path text = .error e := by
  unfold prepare at h ⊢
  split at h
  · exact absurd rfl h
  · exact absurd rfl h
  · rename_i directory hne hp
    have hfailed : (d.makeDirectories directory).2 ≠ none := fun hnone => h (congrArg (Option.map _) hnone)
    obtain ⟨e, he⟩ := Option.ne_none_iff_exists'.1 hfailed
    have hover := Disk.over_of_parent hp
    obtain ⟨e', hagain⟩ :=
      Disk.makeDirectories_again _ (Nat.le_refl _) hover.ends (Prod.ext rfl he) (Disk.Same.refl _).grows
    have hrefused : ((d.makeDirectories directory).1.makeDirectories directory).2 ≠ none := by
      rw [hagain]
      simp
    simpa [hp] using hover.write hrefused

theorem save_refused (h : (save d path document).2 ≠ none) : ∃ text e, (save d path document).1.write path text = .error e := by
  rw [save_failed_disk h]
  by_cases hp : (prepare d path).2 = none
  · refine ⟨document.text, ?_⟩
    cases hw : (prepare d path).1.write path document.text with
    | error e => exact ⟨e, rfl⟩
    | ok d₂ =>
      unfold save at h
      generalize prepare d path = x at h hp hw
      obtain ⟨d₁, failure⟩ := x
      cases hp
      simp only [hw] at h
      exact absurd rfl h
  · exact ⟨"", prepare_refused hp ""⟩

/-- A file that can be read can be written. -/
theorem unreadable_of_write {text : String} {e : Disk.Error} (h : d.write path text = .error e) (c : ByteArray) :
    d.readBytes path ≠ .ok c := by
  intro hc
  obtain ⟨hnames, henter, hfile⟩ := Disk.readBytes_ok_iff.1 hc
  obtain ⟨d₁, hw⟩ : ∃ d₁, d.write path text = .ok d₁ := Disk.write_ok_iff.2 ⟨hnames, henter, by simp [hfile]⟩
  rw [h] at hw
  cases hw

/-- What the file holds is as it was: there is no file, before or after. -/
theorem save_failed_readBytes (h : (save d path document).2 ≠ none) :
    ((save d path document).1.readBytes path).toOption = (d.readBytes path).toOption := by
  obtain ⟨text, e, hw⟩ := save_refused h
  have hafter := unreadable_of_write hw
  cases hb : d.readBytes path with
  | ok c =>
    obtain ⟨hnames, ⟨dir, henter⟩, hfile⟩ := Disk.readBytes_ok_iff.1 hb
    have hkeeps := (prepare_opens d path).keeps
    rw [← save_failed_disk h] at hkeeps
    exact absurd (Disk.readBytes_ok_iff.2 ⟨hnames, ⟨dir, hkeeps.enter henter⟩, (save_failed_files h _ c).2 hfile⟩) (hafter c)
  | error e =>
    cases ha : (save d path document).1.readBytes path with
    | ok c => exact absurd ha (hafter c)
    | error e' => rfl

/-! ## The value that is held -/

/-- The document has the value under the key, in a line of its own, and nothing else there. -/
structure HasLine (key value : String) (document : Document) : Prop where
  mem : key ∈ document.keys
  line : document.linesOf key = [⟨[key], some value, writeEntry key value⟩]

theorem hasLine_set (document : Document) (key value : String) : HasLine key value (document.set key value) := by
  refine ⟨?_, Document.linesOf_set_self document key value⟩
  simp only [Document.set]
  split
  · rename_i hm
    simpa using hm
  · exact List.mem_append_right _ List.mem_cons_self

theorem HasLine.set (h : HasLine key value document) {k : String} (hk : k ≠ key) (v : String) :
    HasLine key value (document.set k v) := by
  refine ⟨?_, by rw [Document.linesOf_set_other document k v hk.symm, h.line]⟩
  simp only [Document.set]
  split
  · exact h.mem
  · exact List.mem_append_left _ h.mem

theorem HasLine.get? (h : HasLine key value document) : document.get? key = some value := by
  rw [Document.get?_eq, h.line]
  simp

/-- The line is in the text of the document. -/
theorem HasLine.text (h : HasLine key value document) : (writeEntry key value).toList <:+: document.text.toList := by
  have hmem : (⟨[key], some value, writeEntry key value⟩ : Line) ∈ document.topLines := by
    refine List.mem_flatMap.2 ⟨key, h.mem, Toml.mem_ordered.2 ?_⟩
    show _ ∈ document.linesOf key
    rw [h.line]
    exact List.mem_cons_self
  obtain ⟨before, after, hlines⟩ := List.append_of_mem hmem
  rw [Document.text, hlines]
  simp only [List.map_append, List.map_cons, String.toList_append, String.toList_join, List.flatMap_append, List.flatMap_cons,
    List.append_assoc]
  exact ⟨_, _, by rw [List.append_assoc]⟩

/-! ## Later calls -/

/-- The settings come about by setting other keys, on whatever disks and whether that succeeds or not. -/
inductive SetsOthers (key : String) (s : Settings) : Settings → Prop
  | refl : SetsOthers key s s
  | set {s₁ : Settings} (h : SetsOthers key s s₁) {k : String} (hk : k ≠ key) (v : String) (d : Disk) :
    SetsOthers key s (s₁.set d k v).1

theorem set_file (document : Document) (path : String) (d : Disk) (key value : String) :
    (Settings.file path document).set d key value =
      (.file path (document.set key value), save d path (document.set key value)) := rfl

/-- Setting other keys leaves the value where it is. -/
theorem SetsOthers.holds {s : Settings} (h : HasLine key value document) (hs : SetsOthers key (.file path document) s) :
    ∃ document', s = .file path document' ∧ HasLine key value document' ∧ (document.IsSound → document'.IsSound) := by
  induction hs with
  | refl => exact ⟨document, rfl, h, id⟩
  | set _ hk v d ih =>
    obtain ⟨document', rfl, hline, hsound⟩ := ih
    exact ⟨document'.set _ v, rfl, hline.set hk v, fun hd => (hsound hd).set _ v⟩

/-- A value was set and could not be saved. No file was changed. The value is held all the same: unless it was there before, the
settings answer otherwise than they did; they answer so until the key is set again; and once another key is set and can be saved,
the value is in the file. -/
theorem set_failed {s' : Settings} {e : StoreError} (h : (Settings.file path document).set d key value = (s', d', some e)) :
    (∀ place c, d'.get? place = some (.file c) ↔ d.get? place = some (.file c)) ∧
    (d'.readBytes path).toOption = (d.readBytes path).toOption ∧
    ((∀ k, s'.get? k = (Settings.file path document).get? k) ↔ document.get? key = some value) ∧
    ∀ s₁, SetsOthers key s' s₁ → s₁.get? key = some value ∧
      ∀ d₁ k v s₂ d₂, k ≠ key → s₁.set d₁ k v = (s₂, d₂, none) →
        (∃ text, Stands d₂ path text ∧ (writeEntry key value).toList <:+: text.toList) ∧
        (document.IsSound → (documentOf d₂ path).get? key = some value) := by
  rw [set_file] at h
  obtain ⟨rfl, hsave⟩ := Prod.mk.inj h
  have hdisk : (save d path (document.set key value)).1 = d' := congrArg Prod.fst hsave
  have hfailed : (save d path (document.set key value)).2 ≠ none := by
    rw [hsave]
    simp
  refine ⟨fun place c => hdisk ▸ save_failed_files hfailed place c, hdisk ▸ save_failed_readBytes hfailed, ?_, ?_⟩
  · constructor
    · intro hall
      exact (hall key).symm.trans (hasLine_set document key value).get?
    · intro hthere k
      by_cases hk : k = key
      · subst hk
        exact (hasLine_set document k value).get?.trans hthere.symm
      · exact Document.get?_set_other document hk value
  · intro s₁ hs₁
    obtain ⟨document₁, rfl, hline, hsound⟩ := hs₁.holds (hasLine_set document key value)
    refine ⟨hline.get?, fun d₁ k v s₂ d₂ hk hset => ?_⟩
    rw [set_file] at hset
    obtain ⟨-, hsave₁⟩ := Prod.mk.inj hset
    have hsaved : (save d₁ path (document₁.set k v)).2 = none := congrArg Prod.snd hsave₁
    have hdisk₁ : (save d₁ path (document₁.set k v)).1 = d₂ := congrArg Prod.fst hsave₁
    refine ⟨⟨_, hdisk₁ ▸ save_stands hsaved, (hline.set hk v).text⟩, fun hd => ?_⟩
    have hsound₁ := (hsound (hd.set key value)).set k v
    rw [← hdisk₁, documentOf_save hsound₁ hsaved,
      ← (Document.sameEntry_written hsound₁.toHasKeys key).get?_eq hsound₁.consistent hsound₁.written.consistent]
    exact (hline.set hk v).get?

/-- A directory stands where the file of the settings should be. -/
def atticDisk : Disk := ⟨[([".zeus.toml"], .directory)]⟩

/-- The settings after the source could not be saved. -/
def attic : Settings := .file defaultSettingsPath (Document.empty.set sourceKey "pets.graphql")

/-- The directory is gone when another key is set. -/
theorem set_failed_attic : (load atticDisk defaultSettingsPath).set atticDisk sourceKey "pets.graphql" =
      (attic, atticDisk, some (.file defaultSettingsPath .isDirectory)) ∧
    (atticDisk.readBytes defaultSettingsPath).toOption = none ∧
    ¬(∀ k, attic.get? k = (load atticDisk defaultSettingsPath).get? k) ∧
    attic.get? sourceKey = some "pets.graphql" ∧
    (attic.set .empty "tool" "zeus").2.2 = none ∧
    (documentOf (attic.set .empty "tool" "zeus").2.1 defaultSettingsPath).get? sourceKey = some "pets.graphql" := by
  have hset : (Settings.file defaultSettingsPath .empty).set atticDisk sourceKey "pets.graphql" =
      (attic, atticDisk, some (.file defaultSettingsPath .isDirectory)) := by rfl
  have hsaved : (attic.set .empty "tool" "zeus").2.2 = none := by decide +kernel
  obtain ⟨-, -, hanswers, hlater⟩ := set_failed hset
  obtain ⟨hheld, hwritten⟩ := hlater attic .refl
  refine ⟨hset, by decide +kernel, fun hall => ?_, hheld, hsaved, ?_⟩
  · have hthere : Document.empty.get? sourceKey = some "pets.graphql" := hanswers.1 hall
    exact absurd hthere (by decide)
  · exact (hwritten .empty "tool" "zeus" _ _ (by decide) (Prod.ext rfl (Prod.ext rfl hsaved))).2 Document.isSound_empty

end GraphqlCodegen.Settings
