import GraphqlCodegen.Proofs.Disk.Directories
import GraphqlCodegen.Proofs.Disk.Reading

/-!
# Files that are there already

A file that a path leads to can be written again (`Held.write`), and the directories on its way are there, so creating
them changes nothing (`Held.makeDirectories`). The first says nothing of what is in the file; what can be read stands there
(`readText_ok_iff`).

Disks with the same at every place count as the same, in whatever order their entries are kept (`Same`). Writing to a file what
is in it changes nothing (`Stands.write_same`).
-/

namespace GraphqlCodegen.Disk

variable {d d' d'' : Disk} {path text : String}

/-! ## What a path leads to -/

theorem reaches_of_enter {dir : Place} (hn : NamesFile path)
    (he : d.enter (startOf path) (namesOf path).dropLast = .ok dir) : Reaches d path := by
  intro d' hk
  obtain ⟨r, name, hr, hl, hslash, hsize⟩ := hn
  obtain ⟨hs, hns, -⟩ := route_ok hr
  rw [← hs, ← hns] at he
  obtain ⟨-, -, hp⟩ := placeOf_eq hr hl he
  rw [find, hr, hp]
  simp only [bind, Except.bind, hl, hslash, hk.enter he, if_neg hsize]
  rfl

/-- A text is read where it stands, and nowhere else. -/
theorem readText_ok_iff : d.readText path = .ok text ↔ Stands d path text := by
  refine ⟨fun h => ?_, Stands.readText⟩
  unfold readText at h
  cases hb : d.readBytes path with
  | error e => rw [hb] at h; cases h
  | ok c =>
    rw [hb] at h
    simp only [bind, Except.bind] at h
    obtain ⟨hn, ⟨dir, he⟩, hf⟩ := readBytes_ok_iff.1 hb
    refine ⟨reaches_of_enter hn he, hf.trans ?_⟩
    unfold String.fromUTF8? at h
    split at h
    · rename_i hu
      split at hu
      · cases hu
        cases h
        rfl
      · cases hu
    · cases h

/-- The path leads to a file, whatever is in it. -/
structure Held (d : Disk) (path : String) : Prop where
  reaches : Reaches d path
  file : ∃ c, d.get? (placeOf path) = some (.file c)

theorem Stands.held (h : Stands d path text) : Held d path := ⟨h.reaches, _, h.file⟩

theorem Held.namesFile (h : Held d path) :
    NamesFile path ∧ ∃ dir, d.enter (startOf path) (namesOf path).dropLast = .ok dir := by
  obtain ⟨c, hc⟩ := h.file
  have hread : d.readBytes path = .ok c := by
    rw [readBytes, h.reaches d (Keeps.refl d), hc]
    rfl
  exact ⟨(readBytes_ok_iff.1 hread).1, (readBytes_ok_iff.1 hread).2.1⟩

/-- A file is written where the path can name one, its directory can be entered and no directory is in its place. -/
theorem write_ok_iff : (∃ d', d.write path text = .ok d') ↔ NamesFile path ∧
    (∃ dir, d.enter (startOf path) (namesOf path).dropLast = .ok dir) ∧ d.get? (placeOf path) ≠ some .directory := by
  unfold Disk.write
  cases hr : route path with
  | error e => simp [NamesFile, hr, bind, Except.bind]
  | ok r =>
    obtain ⟨hs, hns, -⟩ := route_ok hr
    simp only [bind, Except.bind]
    rw [← hs, ← hns]
    cases he : d.enter r.start r.names.dropLast with
    | error e => simp
    | ok dir =>
      cases hl : r.last? with
      | none => simp [NamesFile, hr, hl, throw, throwThe, MonadExceptOf.throw]
      | some name =>
        cases hslash : r.endsInSlash with
        | true => simp [NamesFile, hr, hslash, throw, throwThe, MonadExceptOf.throw]
        | false =>
          obtain ⟨-, -, hp⟩ := placeOf_eq hr hl he
          rw [hp]
          by_cases hsize : name.utf8ByteSize > nameLimit
          · have hnot : ¬NamesFile path := by simp [NamesFile, hr, hl, Nat.not_le.2 hsize]
            simp [hnot, if_pos hsize, throw, throwThe, MonadExceptOf.throw]
          · have hnames : NamesFile path := ⟨r, name, hr, hl, hslash, hsize⟩
            simp only [if_neg hsize]
            rcases hg : d.get? (dir ++ [name]) with _ | (_ | c) <;>
              simp [hnames, pure, Except.pure, throw, throwThe, MonadExceptOf.throw]

/-- A file can be written again. -/
theorem Held.write (h : Held d path) (text : String) : ∃ d', d.write path text = .ok d' := by
  obtain ⟨hn, he⟩ := h.namesFile
  obtain ⟨c, hc⟩ := h.file
  exact write_ok_iff.2 ⟨hn, he, by simp [hc]⟩

/-! ## Directories that are there -/

theorem makeDirectory_of_enter {dir : Place} (he : d.enter (startOf path) (namesOf path) = .ok dir) (hr : Routed path) :
    d.makeDirectory path = .error .exists := by
  obtain ⟨r, hroute⟩ := hr
  obtain ⟨hs, hns, -⟩ := route_ok hroute
  rw [← hs, ← hns] at he
  rw [makeDirectory, hroute]
  simp only [bind, Except.bind]
  cases hl : r.last? with
  | some name =>
    rw [enter_some hl] at he
    cases hq : d.enter r.start r.names.dropLast with
    | error e => rw [hq] at he; cases he
    | ok q =>
      rw [hq] at he
      simp only [Except.bind] at he ⊢
      split at he
      · cases he
      · rename_i hsize
        rw [if_neg hsize]
        cases hg : d.get? (q ++ [name]) with
        | none => rw [hg] at he; cases he
        | some entry => rfl
  | none =>
    obtain ⟨q, hq⟩ := (enter_none hl d).1 ⟨dir, he⟩
    simp only [hq]
    rfl

/-- Where all directories of a path can be entered, none is created. -/
theorem makeDirectories_of_enter {dir : Place} (hr : path ≠ "" → Routed path)
    (he : d.enter (startOf path) (namesOf path) = .ok dir) : d.makeDirectories path = (d, none) := by
  rw [makeDirectories, Path.ancestors, Path.ancestorsWithin]
  by_cases hne : path = ""
  · subst hne
    rfl
  · cases Path.parent path with
    | none => rfl
    | some p =>
      have hm := makeDirectory_of_enter he (hr hne)
      have hdir : d.isDirectory path = true := isDirectory_iff_enter.2 ⟨hr hne, dir, he⟩
      exact (makeAll_found (by rw [hm]; simp)).trans (attempt_isDirectory hm hdir)

/-- The directory that a file is in is there. -/
theorem Held.makeDirectories {directory filename : String} (h : Held d (Path.join directory filename)) (hn : IsName filename) :
    d.makeDirectories directory = (d, none) := by
  obtain ⟨⟨r, _, hr, -⟩, dir, he⟩ := h.namesFile
  rw [startOf_join hn, namesOf_join hn, List.dropLast_concat] at he
  refine makeDirectories_of_enter (fun hne => Routed.initial ⟨r, hr⟩ ?_ hne) he
  rcases @Path.toList_join directory filename hn.noSlash with ⟨hnil, hj⟩ | ⟨a, ha, hj⟩ | ⟨-, hj⟩
  · exact absurd (String.toList_eq_nil_iff.1 hnil) hne
  · exact ⟨filename.toList, by simp [ha, hj]⟩
  · exact ⟨'/' :: filename.toList, hj.symm⟩

/-! ## Disks that are the same -/

/-- The same stands at every place. -/
def Same (d d' : Disk) : Prop := ∀ place, d'.get? place = d.get? place

theorem Same.refl (d : Disk) : Same d d := fun _ => rfl

theorem Same.trans (h : Same d d') (h' : Same d' d'') : Same d d'' := fun place => (h' place).trans (h place)

theorem Same.keeps (h : Same d d') : Keeps d d' := fun place hd => (h place).trans hd

theorem Same.stands (h : Same d d') (hs : Stands d path text) : Stands d' path text := hs.mono h.keeps (h _)

/-- Writing to a file what is in it changes nothing. -/
theorem Stands.write_same (h : Stands d path text) : ∃ d', d.write path text = .ok d' ∧ Same d d' := by
  obtain ⟨d', hw⟩ := h.held.write text
  obtain ⟨-, -, hg⟩ := write_ok hw
  refine ⟨d', hw, fun place => ?_⟩
  rw [hg]
  by_cases hp : place = placeOf path
  · rw [if_pos hp, hp, h.file]
  · rw [if_neg hp]

end GraphqlCodegen.Disk
