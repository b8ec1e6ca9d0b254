import GraphqlCodegen.Proofs.Disk.Parents
import GraphqlCodegen.Proofs.Disk.Trees

/-!
# What is read at the end of a path

A file is read if the path can name one, the directory of its last name can be entered, and the file stands at the place
of the path (`readBytes_ok_iff`). So on a tree the same is read as long as the same file stands at this place
(`readBytes_congr`), even where directories on the way are only created by and by. A path that steps up is different: a file
behind a missing directory and back is there all the time and is found once the directory is created. Such a path is steady
only while its directory is there (`Steady`).
-/

namespace GraphqlCodegen.Disk

variable {d d' : Disk} {path : String}

/-- The last name of the path can be the name of a file. -/
def NamesFile (path : String) : Prop :=
  ∃ r name, route path = .ok r ∧ r.last? = some name ∧ r.endsInSlash = false ∧ ¬name.utf8ByteSize > nameLimit

theorem NamesFile.namesOf (h : NamesFile path) : ∃ init name, namesOf path = init ++ [name] ∧
    (namesOf path).dropLast = init ∧ placeOf path = walk (startOf path) init ++ [name] := by
  obtain ⟨r, name, hr, hl, -⟩ := h
  obtain ⟨-, hns, -⟩ := route_ok hr
  obtain ⟨hn, h1, h2⟩ := last?_eq hl
  rw [hns] at hn
  exact ⟨_, name, hn, rfl, by rw [placeOf, hn, walk_append, walk_name _ h1 h2, List.dropLast_concat]⟩

theorem readBytes_ok_iff {c : ByteArray} : d.readBytes path = .ok c ↔ NamesFile path ∧
    (∃ dir, d.enter (startOf path) (namesOf path).dropLast = .ok dir) ∧ d.get? (placeOf path) = some (.file c) := by
  unfold readBytes find
  cases hr : route path with
  | error e => simp [NamesFile, hr, bind, Except.bind]
  | ok r =>
    obtain ⟨hs, hns, -⟩ := route_ok hr
    simp only [bind, Except.bind]
    cases hl : r.last? with
    | none =>
      cases d.enter r.start r.names <;>
        simp [NamesFile, hr, hl, pure, Except.pure, throw, throwThe, MonadExceptOf.throw]
    | some name =>
      cases hslash : r.endsInSlash with
      | true =>
        cases d.enter r.start r.names <;>
          simp [NamesFile, hr, hl, hslash, pure, Except.pure, throw, throwThe, MonadExceptOf.throw]
      | false =>
        rw [← hs, ← hns]
        cases he : d.enter r.start r.names.dropLast with
        | error e => simp
        | ok dir =>
          obtain ⟨-, -, hp⟩ := placeOf_eq hr hl he
          rw [hp]
          by_cases hsize : name.utf8ByteSize > nameLimit
          · have hnot : ¬NamesFile path := by simp [NamesFile, hr, hl, Nat.not_le.2 hsize]
            simp [hnot, if_pos hsize, throw, throwThe, MonadExceptOf.throw]
          · simp only [if_neg hsize]
            have hnames : NamesFile path := ⟨r, name, hr, hl, hslash, hsize⟩
            rcases hg : d.get? (dir ++ [name]) with _ | (_ | c') <;>
              simp [hnames, pure, Except.pure, throw, throwThe, MonadExceptOf.throw]

/-- The path does not step up, or its directory can be entered. -/
def Steady (path : String) (d : Disk) : Prop :=
  ".." ∉ namesOf path ∨ ∃ dir, d.enter (startOf path) (namesOf path).dropLast = .ok dir

theorem Steady.keeps (h : Steady path d) (hk : Keeps d d') : Steady path d' :=
  h.imp_right fun ⟨dir, he⟩ => ⟨dir, hk.enter he⟩

/-- A file on a tree is behind directories that can be entered, if their names are not too long. -/
theorem Steady.enter_of_file (h : Steady path d) (ht : IsTree d) (hn : NamesFile path) {c : ByteArray}
    (hf : d.get? (placeOf path) = some (.file c)) {dir : Place}
    (he : d'.enter (startOf path) (namesOf path).dropLast = .ok dir) :
    ∃ dir, d.enter (startOf path) (namesOf path).dropLast = .ok dir := by
  rcases h with hup | hdir
  · obtain ⟨init, name, hnames, hinit, hplace⟩ := hn.namesOf
    rw [hinit] at he ⊢
    have hup' : ".." ∉ init := fun hm => hup (by rw [hnames]; exact List.mem_append_left _ hm)
    have hdirectory : d.get? (startOf path ++ init.filter (· != ".")) = some .directory := by
      rw [← walk_eq hup']
      refine ht _ name ?_
      rw [← hplace, hf]
      simp
    have hare : AreNames (init.filter (· != ".")) := by
      intro n hm
      obtain ⟨hm, hdot⟩ := List.mem_filter.1 hm
      refine ⟨namesOf_ne_empty (by rw [hnames]; exact List.mem_append_left _ hm), by simpa using hdot, ?_⟩
      rintro rfl
      exact hup' hm
    rw [← enter_filter] at he ⊢
    exact ⟨_, ht.enter_of_get? hare he hdirectory⟩
  · exact hdir

/-- Where directories stay and the same file stands at the place of the path, the same is read. -/
theorem readBytes_congr (h : Steady path d) (ht : IsTree d) (hk : Keeps d d')
    (hfile : ∀ c, d'.get? (placeOf path) = some (.file c) ↔ d.get? (placeOf path) = some (.file c)) :
    (d'.readBytes path).toOption = (d.readBytes path).toOption := by
  have hiff : ∀ c, d'.readBytes path = .ok c ↔ d.readBytes path = .ok c := by
    intro c
    rw [readBytes_ok_iff, readBytes_ok_iff, hfile]
    constructor
    · rintro ⟨hn, ⟨dir, he⟩, hf⟩
      exact ⟨hn, h.enter_of_file ht hn hf he, hf⟩
    · rintro ⟨hn, ⟨dir, he⟩, hf⟩
      exact ⟨hn, ⟨dir, hk.enter he⟩, hf⟩
  cases hd : d.readBytes path with
  | ok c => rw [(hiff c).2 hd]
  | error e =>
    cases hd' : d'.readBytes path with
    | ok c => rw [(hiff c).1 hd'] at hd; cases hd
    | error e' => rfl

end GraphqlCodegen.Disk
