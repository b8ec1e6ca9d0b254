import GraphqlCodegen.Proofs.Disk.Spellings
import GraphqlCodegen.Proofs.Generator.Destinations

/-!
# What a user's path is resolved to

A path that ends like a file is resolved to the file that it names: its directory and its file name give the same path but for dots
and slashes (`resolve_of_names`). Any other path is a directory, and a file of the default name is put into it. Either way the name is
a single one and ends like a file, so resolving what came out comes to the same file again (`resolve_respects`).
-/

namespace GraphqlCodegen

open Disk (IsExtension IsName Routed SameWay endsInName_join placeOf)

namespace Destination

variable {path default : String} {extensions : List String}

/-- The path ends like a file. -/
def EndsLike (extensions : List String) (path : String) : Prop := ∃ x ∈ extensions, x.toList <:+ path.toList

theorem namesFile_iff : namesFile path extensions = true ↔ EndsLike extensions path := by
  simp only [namesFile, List.any_eq_true, List.isSuffixOf_iff_suffix, EndsLike]

/-- Both paths denote one file: they differ in dots and slashes only, and the same is found at both on every disk, unless one of them
cannot be walked at all. -/
structure SameFile (p q : String) : Prop where
  way : SameWay p q
  found (d : Disk) : Routed p → Routed q → d.find p = d.find q

/-- What is demanded of the destination that a path is resolved to. -/
structure Respects (path : String) (extensions : List String) (default : String) : Prop where
  /-- The name is a single part of a path. -/
  name : IsName (resolve path extensions default).filename
  ending : EndsLike extensions (resolve path extensions default).filename
  /-- A file is kept. -/
  file : EndsLike extensions path → SameFile (resolve path extensions default).path path
  /-- Anything else is a directory, with the file of the default name in it. -/
  directory : ¬EndsLike extensions path → resolve path extensions default = ⟨path, default⟩ ∧
    placeOf (resolve path extensions default).path = placeOf path ++ [default]
  again : SameFile (resolve (resolve path extensions default).path extensions default).path (resolve path extensions default).path

/-- The directory of a path is the path in front of it but for dots. -/
theorem sameWay_directoryOf {p : String} (h : Disk.Path.parent path = some p) : SameWay (directoryOf path) p := by
  rw [directoryOf, h]
  by_cases hp : p = ""
  · subst hp
    exact ⟨rfl, by decide⟩
  · simp only
    exact ⟨rfl, rfl⟩

theorem resolve_of_names (hx : ∀ x ∈ extensions, IsExtension x) (h : EndsLike extensions path) :
    ∃ f, Disk.Path.fileName path = some f ∧ EndsLike extensions f ∧
      resolve path extensions default = ⟨directoryOf path, f⟩ ∧ SameFile (resolve path extensions default).path path := by
  have hnames := namesFile_iff.2 h
  obtain ⟨x, hmem, hends⟩ := h
  obtain ⟨f, hf, hsuffix⟩ := (hx x hmem).fileName hends
  have hresolve : resolve path extensions default = ⟨directoryOf path, f⟩ := by
    rw [resolve, hnames, hf]
  obtain ⟨h1, h2, h3, h4⟩ := Disk.Path.fileName_spec hf
  have hname : IsName f := ⟨h1, h2, h3, h4⟩
  obtain ⟨p, hparent, hbehind⟩ := Disk.sameWay_join_parent hf
  have hdirectory := Disk.sameWay_join hname (sameWay_directoryOf hparent)
  have hway : SameWay (Disk.Path.join (directoryOf path) f) path :=
    ⟨hdirectory.start.trans hbehind.start, hdirectory.steps.trans hbehind.steps⟩
  obtain ⟨init, last, hlast⟩ := (hx x hmem).endsInName hends
  refine ⟨f, hf, ⟨x, hmem, hsuffix⟩, hresolve, ?_⟩
  rw [hresolve]
  exact ⟨hway, fun d hr hr' => hway.find_eq (endsInName_join hname) hlast hr hr'⟩

theorem resolve_of_not_names (h : ¬EndsLike extensions path) : resolve path extensions default = ⟨path, default⟩ := by
  have hnames : namesFile path extensions = false := by
    rw [← Bool.not_eq_true, namesFile_iff]
    exact h
  rw [resolve, hnames]

/-- The name that a path is resolved to is a single one and ends like a file. -/
theorem filename_of_resolve (hx : ∀ x ∈ extensions, IsExtension x) (hd : IsName default ∧ EndsLike extensions default) (path : String) :
    IsName (resolve path extensions default).filename ∧ EndsLike extensions (resolve path extensions default).filename := by
  by_cases h : EndsLike extensions path
  · obtain ⟨f, hf, hends, hresolve, -⟩ := @resolve_of_names path default extensions hx h
    obtain ⟨h1, h2, h3, h4⟩ := Disk.Path.fileName_spec hf
    rw [hresolve]
    exact ⟨⟨h1, h2, h3, h4⟩, hends⟩
  · rw [resolve_of_not_names h]
    exact hd

theorem endsLike_path {d : Destination} (h : EndsLike extensions d.filename) (hn : IsName d.filename) :
    EndsLike extensions d.path := by
  obtain ⟨x, hmem, hx⟩ := h
  refine ⟨x, hmem, hx.trans ?_⟩
  rcases @Disk.Path.toList_join d.directory d.filename hn.noSlash with ⟨-, hj⟩ | ⟨a, -, hj⟩ | ⟨-, hj⟩
  · exact ⟨[], by rw [List.nil_append, Destination.path, hj]⟩
  · exact ⟨a ++ ['/'], by simp [Destination.path, hj]⟩
  · exact ⟨d.directory.toList ++ ['/'], by simp [Destination.path, hj]⟩

theorem resolve_respects (hx : ∀ x ∈ extensions, IsExtension x) (hd : IsName default ∧ EndsLike extensions default) (path : String) :
    Respects path extensions default := by
  obtain ⟨hname, hending⟩ := filename_of_resolve hx hd path
  refine ⟨hname, hending, fun h => ?_, fun h => ?_, ?_⟩
  · obtain ⟨-, -, -, -, hsame⟩ := @resolve_of_names path default extensions hx h
    exact hsame
  · have hresolve := @resolve_of_not_names path default extensions h
    refine ⟨hresolve, ?_⟩
    rw [hresolve]
    exact placeOf_path hd.1
  · obtain ⟨-, -, -, -, hsame⟩ := @resolve_of_names _ default extensions hx (endsLike_path hending hname)
    exact hsame

end Destination

namespace Generator

example : Destination.resolve "api//v1/./pets.gql" schemaCopyExtensions schemaCopyName = ⟨"api//v1", "pets.gql"⟩ := by decide

example : Destination.resolve "pets.json/" jsonSchemaExtensions jsonSchemaName = ⟨"pets.json/", "schema.json"⟩ := by decide

end Generator
end GraphqlCodegen
