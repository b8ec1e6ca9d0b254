import GraphqlCodegen.Proofs.Disk.Shapes
import GraphqlCodegen.Proofs.Toml.Rereading
import GraphqlCodegen.Settings

/-!
# Files of settings

The document in a file (`documentOf`), and what saving makes of it: a document that was saved is found in the file
in the order in which it is written (`documentOf_save`). Whether it can be saved does not depend on what is in the files
(`save_sameShape`).
-/

namespace GraphqlCodegen.Settings

open Disk (SameShape Stands)
open Toml (Document)

/-- The document in a file; an empty one where the file is missing or no document. -/
def documentOf (d : Disk) (path : String) : Document :=
  match d.readText path with
  | .ok text => (Document.read? text).getD .empty
  | .error _ => .empty

theorem load_eq (d : Disk) (path : String) : load d path = .file path (documentOf d path) := rfl

theorem documentOf_cases (d : Disk) (path : String) : documentOf d path = .empty ∨
    ∃ text, d.readText path = .ok text ∧ Document.read? text = some (documentOf d path) := by
  unfold documentOf
  cases ht : d.readText path with
  | error e => exact .inl rfl
  | ok text =>
    simp only
    cases hr : Document.read? text with
    | none => exact .inl rfl
    | some document => exact .inr ⟨text, rfl, hr⟩

/-- The document depends on nothing but the bytes of the file. -/
theorem documentOf_congr {d d' : Disk} {path : String} (h : (d'.readBytes path).toOption = (d.readBytes path).toOption) :
    documentOf d' path = documentOf d path := by
  unfold documentOf Disk.readText
  cases hd : d.readBytes path <;> cases hd' : d'.readBytes path <;> rw [hd, hd'] at h <;> cases h <;> rfl

theorem isSound_documentOf {d : Disk} {path : String} (h : (documentOf d path).Rereads) : (documentOf d path).IsSound := by
  rcases documentOf_cases d path with he | ⟨text, -, hread⟩
  · rw [he]
    exact Document.isSound_empty
  · exact .of_read hread h

/-- A file without carriage returns holds what can be read back. A string over several lines is written without the
carriage returns of its line ends, so it need not come back as it was. -/
theorem rereads_documentOf {d : Disk} {path : String} (h : ∀ text, d.readText path = .ok text → '\r' ∉ text.toList) :
    (documentOf d path).Rereads := by
  rcases documentOf_cases d path with he | ⟨text, ht, hread⟩
  · rw [he]
    exact Document.isSound_empty.toRereads
  · exact Document.rereads_of_noReturn (h text ht) hread

/-- What stands in the file after its text was written. -/
theorem documentOf_stands {d : Disk} {path : String} {document : Document} (h : document.IsSound)
    (hs : Stands d path document.text) : documentOf d path = document.written := by
  rw [documentOf, hs.readText]
  simp only [Document.read?_text h, Option.getD_some]

/-! ## Saving -/

theorem save_stands {d : Disk} {path : String} {document : Document} (h : (save d path document).2 = none) :
    Stands (save d path document).1 path document.text := by
  unfold save at h ⊢
  generalize prepare d path = x at h
  obtain ⟨d₁, failure⟩ := x
  cases failure with
  | some e => cases h
  | none =>
    simp only at h ⊢
    cases hw : d₁.write path document.text with
    | error e => rw [hw] at h; cases h
    | ok d₂ => exact Disk.write_stands hw

/-- A document that was saved is in the file. -/
theorem documentOf_save {d : Disk} {path : String} {document : Document} (hd : document.IsSound)
    (h : (save d path document).2 = none) : documentOf (save d path document).1 path = document.written :=
  documentOf_stands hd (save_stands h)

theorem prepare_sameShape {d d' : Disk} (h : SameShape d d') (path : String) :
    (prepare d' path).2 = (prepare d path).2 ∧ SameShape (prepare d path).1 (prepare d' path).1 := by
  unfold prepare
  split
  · exact ⟨rfl, h⟩
  · exact ⟨rfl, h⟩
  · rename_i directory _ _
    exact ⟨congrArg (Option.map (StoreError.directory directory)) (h.makeDirectories directory).1, (h.makeDirectories directory).2⟩

/-- On disks of one shape, saving fails alike or not at all, whatever is saved. -/
theorem save_sameShape {d d' : Disk} (h : SameShape d d') (path : String) (document document' : Document) :
    (save d' path document').2 = (save d path document).2 ∧ SameShape (save d path document).1 (save d' path document').1 := by
  obtain ⟨hfailure, hshape⟩ := prepare_sameShape h path
  unfold save
  generalize prepare d path = x at hfailure hshape
  generalize prepare d' path = x' at hfailure hshape
  obtain ⟨d₁, failure⟩ := x
  obtain ⟨d₁', failure'⟩ := x'
  cases hfailure
  cases failure with
  | some e => exact ⟨rfl, hshape⟩
  | none =>
    have hwrite := hshape.write path document.text document'.text
    simp only at hwrite ⊢
    generalize d₁.write path document.text = r at hwrite
    generalize d₁'.write path document'.text = r' at hwrite
    cases hwrite with
    | error e => exact ⟨rfl, hshape⟩
    | ok h₂ => exact ⟨rfl, h₂⟩

end GraphqlCodegen.Settings
