import GraphqlCodegen.Proofs.Disk.Passing
import GraphqlCodegen.Proofs.Writing.Keeping

/-!
# What writing one file changes

Writing a file creates the directories on the way to it and then the file (`write_made`). If that succeeds, the file has its content,
and nothing else has changed but for directories that were missing on the way; writing it again changes nothing any more. If it fails,
no file has changed, and the failure names the directory if that is not there, and the file otherwise (`write_touches_one_file`).
-/

namespace GraphqlCodegen

open Disk (IsName Keeps Opens Passes Same Stands placeOf)

/-! ## A file behind a directory -/

namespace Disk

/-- What can be written behind a directory has the name of an entry. -/
theorem isName_of_write {d d' : Disk} {directory filename text : String} (hs : '/' ∉ filename.toList)
    (h : d.write (Path.join directory filename) text = .ok d') : IsName filename := by
  obtain ⟨⟨r, name, hr, hl, hslash, -⟩, -⟩ := write_ok_iff.1 ⟨d', h⟩
  obtain ⟨-, hns, hends⟩ := route_ok hr
  obtain ⟨hlast, hdot, hup⟩ := last?_eq hl
  have hne : filename.toList ≠ [] := by
    intro hnil
    rw [← Bool.not_eq_true, hends] at hslash
    rcases @Path.toList_join directory filename hs with ⟨-, hj⟩ | ⟨a, -, hj⟩ | ⟨-, hj⟩
    · rw [hns, namesOf, hj, hnil] at hlast
      simp [Path.names, Path.split] at hlast
    · rw [hj, hnil, List.getLast?_concat] at hslash
      exact hslash rfl
    · rw [hj, hnil, List.getLast?_concat] at hslash
      exact hslash rfl
  have hname : filename = name := by
    simp only [hns, namesOf, Path.names_join hs hne, List.map_append, List.map_cons, List.map_nil, List.dropLast_concat] at hlast
    simpa using List.append_cancel_left hlast
  subst hname
  exact ⟨hne, hs, hdot, hup⟩

end Disk

namespace Artifact

variable {a : Artifact} {d d' : Disk}

/-- The file was written and nothing else was touched. -/
structure Written (a : Artifact) (d d' : Disk) : Prop where
  content : d'.readBytes a.path = .ok a.content.toUTF8
  /-- All that is above the file is a directory. -/
  above (place : Disk.Place) : Passes a.destination.directory place → d'.get? place = some .directory
  files (place : Disk.Place) (c : ByteArray) : place ≠ placeOf a.path →
    (d'.get? place = some (.file c) ↔ d.get? place = some (.file c))
  directories (place : Disk.Place) : d'.get? place = some .directory ↔
    d.get? place = some .directory ∨ d.get? place = none ∧ Passes a.destination.directory place
  /-- Writing the file again changes nothing. -/
  again : ∃ d'', a.write d' = (d'', .ok a.path) ∧ Same d' d''

/-- No file was touched, and the failure names what could not be created. -/
structure Refused (a : Artifact) (d d' : Disk) (failure : Failure) : Prop where
  files (place : Disk.Place) (c : ByteArray) : d'.get? place = some (.file c) ↔ d.get? place = some (.file c)
  named : (∃ e, failure = .unwritable a.destination.directory e ∧ d'.isDirectory a.destination.directory = false) ∨
    ∃ e, failure = .unwritable a.path e ∧ ∀ place, Passes a.destination.directory place → d'.get? place = some .directory

/-! ## The two steps -/

theorem write_unmade {e : Disk.Error} (h : d.makeDirectories a.destination.directory = (d', some e)) :
    a.write d = (d', .error (.unwritable a.destination.directory e)) := by
  have hfailed : ((Step.makeDirectories a.destination.directory).take d) = (d', some (.unwritable a.destination.directory e)) := by
    rw [Step.take, h]
    rfl
  have hfinish := @Progress.finish_failed d (Progress.start [a]) _ _ _ rfl (congrArg Prod.snd hfailed)
  rw [write, hfinish, hfailed]
  rfl

theorem write_made (h : d.makeDirectories a.destination.directory = (d', none)) :
    a.write d = match d'.write a.path a.content with
      | .ok d'' => (d'', .ok a.path)
      | .error e => (d', .error (.unwritable a.path e)) := by
  have hmade : ((Step.makeDirectories a.destination.directory).take d) = (d', none) := by
    rw [Step.take, h]
    rfl
  have hfinish := @Progress.finish_ok d (Progress.start [a]) _ _ rfl (congrArg Prod.snd hmade)
  rw [write, hfinish, hmade]
  cases hw : d'.write a.path a.content with
  | ok d'' =>
    have htake : ((Step.writeFile a.path a.content).take d') = (d'', none) := by rw [Step.take, hw]
    rw [Progress.finish_ok rfl (congrArg Prod.snd htake), htake]
    rfl
  | error e =>
    have htake : ((Step.writeFile a.path a.content).take d') = (d', some (.unwritable a.path e)) := by rw [Step.take, hw]
    rw [Progress.finish_failed rfl (congrArg Prod.snd htake), htake]
    rfl

/-! ## What they change -/

/-- A file that is there with its content is written again without a change. -/
theorem write_again_same (hn : IsName a.destination.filename) (h : Stands d a.path a.content) :
    ∃ d', a.write d = (d', .ok a.path) ∧ Same d d' := by
  obtain ⟨d', hw, hsame⟩ := h.write_same
  refine ⟨d', ?_, hsame⟩
  rw [write_made (Disk.Held.makeDirectories h.held hn), hw]

theorem written_of_write {d₁ : Disk} (hs : '/' ∉ a.destination.filename.toList)
    (hm : d.makeDirectories a.destination.directory = (d₁, none)) (hw : d₁.write a.path a.content = .ok d') : a.Written d d' := by
  have hname := Disk.isName_of_write hs hw
  have hopens : Opens d d₁ := by
    have hall := Disk.makeDirectories_opens d a.destination.directory
    rwa [hm] at hall
  obtain ⟨-, q, hq⟩ := Disk.enter_of_makeDirectories (congrArg Prod.snd hm)
  rw [hm] at hq
  have hkeeps := Disk.write_keeps hw
  have habove : ∀ place, Passes a.destination.directory place → d'.get? place = some .directory :=
    fun place hp => Disk.get?_of_enter (hkeeps.enter hq) hp
  obtain ⟨hnodir, -, hget⟩ := Disk.write_ok hw
  have hstands := Disk.write_stands hw
  refine ⟨?_, habove, fun place c hne => ?_, fun place => ?_, write_again_same hname hstands⟩
  · rw [Disk.readBytes, hstands.reaches d' (Keeps.refl d'), hstands.file]
    rfl
  · rw [hget, if_neg hne]
    exact hopens.file_iff
  · constructor
    · intro hdir
      have hne : place ≠ placeOf a.path := by
        rintro rfl
        rw [hget, if_pos rfl] at hdir
        cases hdir
      rw [hget, if_neg hne] at hdir
      rcases hopens place with hsame | ⟨hnone, -⟩
      · exact .inl (hsame ▸ hdir)
      · refine .inr ⟨hnone, Disk.passes_of_changed (d := d) ?_⟩
        rw [hm, hdir, hnone]
        simp
    · rintro (hdir | ⟨-, hp⟩)
      · exact hkeeps place (hopens.keeps place hdir)
      · exact habove place hp

/-- Writing a file touches this one file and missing directories on the way to it, or no file at all if it fails. -/
theorem write_touches_one_file (a : Artifact) (d : Disk) (hs : '/' ∉ a.destination.filename.toList) :
    (∃ d', a.write d = (d', .ok a.path) ∧ a.Written d d') ∨ ∃ d' failure, a.write d = (d', .error failure) ∧ a.Refused d d' failure := by
  have hopens := Disk.makeDirectories_opens d a.destination.directory
  cases hm : d.makeDirectories a.destination.directory with
  | mk d₁ failure =>
    rw [hm] at hopens
    cases failure with
    | some e =>
      have hnone := Disk.makeDirectories_failed (congrArg Prod.snd hm)
      rw [hm] at hnone
      exact .inr ⟨d₁, _, write_unmade hm, fun _ _ => hopens.file_iff, .inl ⟨e, rfl, hnone⟩⟩
    | none =>
      cases hw : d₁.write a.path a.content with
      | ok d' => exact .inl ⟨d', by rw [write_made hm, hw], written_of_write hs hm hw⟩
      | error e =>
        obtain ⟨-, q, hq⟩ := Disk.enter_of_makeDirectories (congrArg Prod.snd hm)
        rw [hm] at hq
        refine .inr ⟨d₁, .unwritable a.path e, by rw [write_made hm, hw], fun _ _ => hopens.file_iff, .inr ⟨e, rfl, fun place hp => ?_⟩⟩
        exact Disk.get?_of_enter hq hp

/-- A disk with nothing on it but a file of notes. -/
def barnDisk : Disk := ⟨[(["notes"], .file "oats".toUTF8)]⟩

/-- A file behind a directory that is missing and left again. -/
def barnFile : Artifact := ⟨⟨"barn/../hay", "index.ts"⟩, "export {};"⟩

/-- A file that would be behind the notes. -/
def strayFile : Artifact := ⟨⟨"notes/hay", "index.ts"⟩, "export {};"⟩

theorem write_touches_one_file_barn : '/' ∉ barnFile.destination.filename.toList ∧ '/' ∉ strayFile.destination.filename.toList ∧
    (∃ d', barnFile.write barnDisk = (d', .ok "barn/../hay/index.ts") ∧ barnFile.Written barnDisk d') ∧
    ∃ d', strayFile.write barnDisk = (d', .error (.unwritable "notes/hay" .notDirectory)) ∧
      strayFile.Refused barnDisk d' (.unwritable "notes/hay" .notDirectory) := by
  have hbarn : (barnFile.write barnDisk).2 = .ok "barn/../hay/index.ts" := by rfl
  have hstray : (strayFile.write barnDisk).2 = .error (.unwritable "notes/hay" .notDirectory) := by rfl
  refine ⟨by decide, by decide, ?_, ?_⟩
  · rcases write_touches_one_file barnFile barnDisk (by decide) with ⟨d', hwrite, hwritten⟩ | ⟨d', failure, hwrite, -⟩
    · exact ⟨d', hwrite, hwritten⟩
    · rw [hwrite] at hbarn
      cases hbarn
  · rcases write_touches_one_file strayFile barnDisk (by decide) with ⟨d', hwrite, -⟩ | ⟨d', failure, hwrite, hrefused⟩
    · rw [hwrite] at hstray
      cases hstray
    · rw [hwrite] at hstray
      obtain rfl : failure = .unwritable "notes/hay" .notDirectory := Except.error.inj hstray
      exact ⟨d', hwrite, hrefused⟩

end Artifact
end GraphqlCodegen
