import GraphqlCodegen.Proofs.Disk.Directories

/-!
# Disks of one shape

Two disks have one shape if they have directories at the same places and files at the same places, whatever is in
the files (`SameShape`). All steps but reading come to the same on such disks: they fail alike, or leave disks of one shape.
-/

namespace GraphqlCodegen.Disk

def Entry.isDirectory : Entry → Bool
  | .directory => true
  | .file _ => false

/-- Both disks have directories at the same places, and files. -/
def SameShape (d d' : Disk) : Prop := ∀ place, (d'.get? place).map Entry.isDirectory = (d.get? place).map Entry.isDirectory

namespace SameShape

variable {d d' : Disk}

theorem refl (d : Disk) : SameShape d d := fun _ => rfl

theorem cases (h : SameShape d d') (place : Place) : d.get? place = none ∧ d'.get? place = none ∨
    d.get? place = some .directory ∧ d'.get? place = some .directory ∨
      ∃ c c', d.get? place = some (.file c) ∧ d'.get? place = some (.file c') := by
  have hp := h place
  rcases hd : d.get? place with _ | (_ | c) <;> rcases hd' : d'.get? place with _ | (_ | c') <;>
    simp [hd, hd', Entry.isDirectory] at hp ⊢

theorem put (h : SameShape d d') {dir : Place} {name : String} (hn : name ≠ "") {e e' : Entry}
    (he : e'.isDirectory = e.isDirectory) : SameShape (d.put (dir ++ [name]) e) (d'.put (dir ++ [name]) e') := by
  obtain ⟨hh, ht⟩ := @append_ne dir name hn
  intro q
  rw [get?_put hh ht, get?_put hh ht]
  split
  · exact congrArg some he
  · exact h q

theorem enter (h : SameShape d d') : ∀ (ns : List String) (p : Place), d'.enter p ns = d.enter p ns
  | [], _ => rfl
  | n :: ns, p => by
    rw [Disk.enter, Disk.enter, h.enter ns p, h.enter ns p.up, h.enter ns (p ++ [n])]
    rcases h.cases (p ++ [n]) with ⟨hd, hd'⟩ | ⟨hd, hd'⟩ | ⟨c, c', hd, hd'⟩ <;> rw [hd, hd']

theorem isDirectory (h : SameShape d d') (path : String) : d'.isDirectory path = d.isDirectory path := by
  unfold Disk.isDirectory find
  cases route path with
  | error e => rfl
  | ok r =>
    simp only [bind, Except.bind, h.enter]
    cases hl : r.last? with
    | none => rfl
    | some name =>
      cases hs : r.endsInSlash with
      | true => rfl
      | false =>
        cases d.enter r.start r.names.dropLast with
        | error e => rfl
        | ok dir =>
          by_cases hsize : name.utf8ByteSize > nameLimit
          · simp only [if_pos hsize]
          · simp only [if_neg hsize]
            rcases h.cases (dir ++ [name]) with ⟨hd, hd'⟩ | ⟨hd, hd'⟩ | ⟨c, c', hd, hd'⟩ <;> rw [hd, hd'] <;> rfl

/-! ## Steps -/

/-- A step failed alike, or it left disks of one shape. -/
inductive Results : Except Error Disk → Except Error Disk → Prop
  | error (e : Error) : Results (.error e) (.error e)
  | ok {d d' : Disk} : SameShape d d' → Results (.ok d) (.ok d')

theorem Results.error_iff {r r' : Except Error Disk} (h : Results r r') (e : Error) : r' = .error e ↔ r = .error e := by
  cases h with
  | error _ => exact Iff.rfl
  | ok _ => simp

theorem makeDirectory (h : SameShape d d') (path : String) : Results (d.makeDirectory path) (d'.makeDirectory path) := by
  unfold Disk.makeDirectory
  cases hr : route path with
  | error e => exact .error e
  | ok r =>
    simp only [bind, Except.bind, h.enter]
    cases he : d.enter r.start r.names.dropLast with
    | error e => exact .error e
    | ok dir =>
      simp only
      cases hl : r.last? with
      | none => exact .error _
      | some name =>
        simp only
        split
        · exact .error _
        · rcases h.cases (dir ++ [name]) with ⟨hd, hd'⟩ | ⟨hd, hd'⟩ | ⟨c, c', hd, hd'⟩ <;> rw [hd, hd']
          · exact .ok (h.put (placeOf_eq hr hl he).1 rfl)
          · exact .error _
          · exact .error _

theorem attempt (h : SameShape d d') (path : String) :
    (d'.attempt path).2 = (d.attempt path).2 ∧ SameShape (d.attempt path).1 (d'.attempt path).1 := by
  have hmake := h.makeDirectory path
  unfold Disk.attempt
  generalize d.makeDirectory path = r at hmake
  generalize d'.makeDirectory path = r' at hmake
  cases hmake with
  | error e => exact ⟨by simp only [h.isDirectory], h⟩
  | ok h₁ => exact ⟨rfl, h₁⟩

theorem makeAll : ∀ (paths : List String) {d d' : Disk}, SameShape d d' →
    (d'.makeAll paths).2 = (d.makeAll paths).2 ∧ SameShape (d.makeAll paths).1 (d'.makeAll paths).1
  | [], _, _, h => ⟨rfl, h⟩
  | path :: parents, d, d', h => by
    have hiff := (h.makeDirectory path).error_iff .notFound
    by_cases hmissing : d.makeDirectory path = .error .notFound
    · rw [makeAll_notFound hmissing, makeAll_notFound (hiff.2 hmissing)]
      obtain ⟨hfailure, hshape⟩ := makeAll parents h
      generalize d.makeAll parents = x at hfailure hshape
      generalize d'.makeAll parents = x' at hfailure hshape
      obtain ⟨d₁, failure⟩ := x
      obtain ⟨d₁', failure'⟩ := x'
      cases hfailure
      cases failure with
      | some e => exact ⟨rfl, hshape⟩
      | none => exact hshape.attempt path
    · rw [makeAll_found hmissing, makeAll_found fun hm => hmissing (hiff.1 hm)]
      exact h.attempt path

theorem makeDirectories (h : SameShape d d') (path : String) :
    (d'.makeDirectories path).2 = (d.makeDirectories path).2 ∧
      SameShape (d.makeDirectories path).1 (d'.makeDirectories path).1 :=
  makeAll _ h

/-- Files are written alike, whatever is written into them. -/
theorem write (h : SameShape d d') (path text text' : String) : Results (d.write path text) (d'.write path text') := by
  unfold Disk.write
  cases hr : route path with
  | error e => exact .error e
  | ok r =>
    simp only [bind, Except.bind, h.enter]
    cases he : d.enter r.start r.names.dropLast with
    | error e => exact .error e
    | ok dir =>
      simp only
      cases hl : r.last? with
      | none => exact .error _
      | some name =>
        cases hs : r.endsInSlash with
        | true => exact .error _
        | false =>
          simp only
          split
          · exact .error _
          · have hput : SameShape (d.put (dir ++ [name]) (.file text.toUTF8)) (d'.put (dir ++ [name]) (.file text'.toUTF8)) :=
              h.put (placeOf_eq hr hl he).1 rfl
            rcases h.cases (dir ++ [name]) with ⟨hd, hd'⟩ | ⟨hd, hd'⟩ | ⟨c, c', hd, hd'⟩ <;> rw [hd, hd']
            · exact .ok hput
            · exact .error _
            · exact .ok hput

end SameShape
end GraphqlCodegen.Disk
