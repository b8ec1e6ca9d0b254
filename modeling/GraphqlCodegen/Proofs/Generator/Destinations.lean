import GraphqlCodegen.Generator
import GraphqlCodegen.Proofs.Disk.Paths

/-!
# Where generators put their files

Each file is put behind a directory under a single name (`IsName`), and no two files of a run have the
same name: the names of the schema copy, the JSON Schema and the client's modules end in different
letters, whatever paths the user gives. So no two files have the same place (`places_nodup`).
-/

namespace GraphqlCodegen

open Disk (IsName placeOf)

/-- A name behind a directory is the last name on the way. -/
theorem Destination.placeOf_path {d : Destination} (h : IsName d.filename) : placeOf d.path = placeOf d.directory ++ [d.filename] :=
  Disk.placeOf_join h

/-- A path of the user's gives a file name that ends like the extensions or the default name. -/
theorem Destination.filename_resolve {path default : String} {extensions : List String} {c : Char}
    (hd : IsName default ∧ default.toList.getLast? = some c) (hc : c ≠ '/' ∧ c ≠ '.')
    (he : ∀ x ∈ extensions, x.toList.getLast? = some c) :
    IsName (resolve path extensions default).filename ∧ (resolve path extensions default).filename.toList.getLast? = some c := by
  unfold resolve
  cases hn : namesFile path extensions with
  | false => exact hd
  | true =>
    cases hf : Disk.Path.fileName path with
    | none => exact hd
    | some f =>
      obtain ⟨x, hx, hs⟩ := List.any_eq_true.1 hn
      obtain ⟨pre, hpre⟩ := List.isSuffixOf_iff_suffix.1 hs
      have hlast : path.toList.getLast? = some c := by
        rw [← hpre, List.getLast?_append, he x hx]; rfl
      obtain ⟨h1, h2, h3, h4⟩ := Disk.Path.fileName_spec hf
      exact ⟨⟨h1, h2, h3, h4⟩, Disk.Path.getLast?_fileName hlast hc.1 hc.2 hf⟩

namespace Generator

/-- The last letter of the names of a generator's files. -/
def lastLetter : Generator → Char
  | .schemaCopy => 'l'
  | .jsonSchema => 'n'
  | .bindings | .typedDocument => 's'

theorem filename_spec (o : Options) (g : Generator) :
    ∀ d ∈ g.destinations o, IsName d.filename ∧ d.filename.toList.getLast? = some g.lastLetter := by
  intro d hd
  cases g with
  | schemaCopy =>
    obtain ⟨path, -, rfl⟩ := List.mem_map.1 hd
    exact Destination.filename_resolve (by decide) (by decide) (by decide)
  | jsonSchema =>
    obtain ⟨path, -, rfl⟩ := List.mem_map.1 hd
    exact Destination.filename_resolve (by decide) (by decide) (by decide)
  | bindings =>
    simp only [destinations, List.map_cons, List.map_nil, List.mem_cons, List.not_mem_nil, or_false] at hd
    rcases hd with rfl | rfl
    · show IsName "const.ts" ∧ "const.ts".toList.getLast? = some 's'; decide
    · show IsName "index.ts" ∧ "index.ts".toList.getLast? = some 's'; decide
  | typedDocument =>
    rw [destinations, List.mem_singleton] at hd
    subst hd
    show IsName "typedDocumentNode.ts" ∧ "typedDocumentNode.ts".toList.getLast? = some 's'; decide

/-- The generators that the options ask for, in the order of their reports. -/
def requested (o : Options) : List Generator := all.filter (·.isRequested o)

theorem own_filenames_nodup (o : Options) (g : Generator) : ((g.destinations o).map Destination.filename).Nodup := by
  cases g with
  | schemaCopy => cases h : o.graphql <;> simp [destinations, h]
  | jsonSchema => cases h : o.jsonSchema <;> simp [destinations, h]
  | bindings => simp [destinations]
  | typedDocument => simp [destinations]

theorem place_ne_of_filename {o : Options} {g h : Generator} {d d' : Destination} (hd : d ∈ g.destinations o)
    (hd' : d' ∈ h.destinations o) (hne : d.filename ≠ d'.filename) : placeOf d.path ≠ placeOf d'.path := by
  rw [Destination.placeOf_path (filename_spec o g d hd).1, Destination.placeOf_path (filename_spec o h d' hd').1]
  intro he
  have hlast := congrArg List.getLast? he
  exact hne (by simpa using hlast)

theorem filename_ne {o : Options} {g h : Generator} {d d' : Destination} (hgh : g ≠ h) (hd : d ∈ g.destinations o)
    (hd' : d' ∈ h.destinations o) : d.filename ≠ d'.filename := by
  intro he
  have h1 := (filename_spec o g d hd).2
  rw [he, (filename_spec o h d' hd').2] at h1
  have hl := (Option.some.inj h1).symm
  -- only the client's modules end alike, and their names are fixed
  cases g <;> cases h <;> first | exact absurd rfl hgh | exact absurd hl (by decide) | skip
  all_goals
    simp only [destinations, List.map_cons, List.map_nil, List.mem_cons, List.not_mem_nil, or_false] at hd hd'
  · subst hd'; rcases hd with rfl | rfl <;> exact absurd he (by simp)
  · subst hd; rcases hd' with rfl | rfl <;> exact absurd he (by simp)

theorem place_ne {o : Options} {g h : Generator} {d d' : Destination} (hgh : g ≠ h) (hd : d ∈ g.destinations o)
    (hd' : d' ∈ h.destinations o) : placeOf d.path ≠ placeOf d'.path :=
  place_ne_of_filename hd hd' (filename_ne hgh hd hd')

theorem own_places_nodup (o : Options) (g : Generator) : ((g.destinations o).map fun d => placeOf d.path).Nodup :=
  List.pairwise_map.2 ((List.pairwise_map.1 (own_filenames_nodup o g)).imp_of_mem fun hd hd' => place_ne_of_filename hd hd')

theorem requested_nodup (o : Options) : (requested o).Nodup := List.Pairwise.filter _ (by decide : all.Nodup)

/-- The files of all generators that are asked for. -/
def requestedDestinations (o : Options) : List Destination := (requested o).flatMap (destinations o)

/-- No two files have the same place, whatever paths the user gives. -/
theorem places_nodup (o : Options) : ((requestedDestinations o).map fun d => placeOf d.path).Nodup := by
  have hnd := requested_nodup o
  rw [requestedDestinations]
  generalize requested o = gs at hnd ⊢
  induction gs with
  | nil => exact List.nodup_nil
  | cons g gs ih =>
    obtain ⟨hg, hgs⟩ := List.nodup_cons.1 hnd
    rw [List.flatMap_cons, List.map_append, List.nodup_append]
    refine ⟨own_places_nodup o g, ih hgs, fun x hx y hy => ?_⟩
    obtain ⟨d, hd, rfl⟩ := List.mem_map.1 hx
    obtain ⟨d', hd', rfl⟩ := List.mem_map.1 hy
    obtain ⟨h, hh, hd'⟩ := List.mem_flatMap.1 hd'
    refine place_ne ?_ hd hd'
    rintro rfl
    exact hg hh

end Generator
end GraphqlCodegen
