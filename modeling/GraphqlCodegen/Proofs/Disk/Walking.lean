import GraphqlCodegen.Proofs.Disk.Paths

/-!
# What steps change on a disk

Whatever is done to a disk, its directories stay (`Keeps`). Making directories adds directories where
nothing stood and changes nothing else (`Opens`); a file is written at the place that its path leads
to and nowhere else. So a file that was written stays as it is until something is written to its own
place (`Stands`).
-/

namespace GraphqlCodegen.Disk

variable {d d' d'' : Disk} {path : String} {place : Place}

theorem get?_here (d : Disk) : d.get? Place.here = some .directory := rfl

theorem get?_put {p : Place} (hh : p ≠ Place.here) (ht : p ≠ Place.top) (d : Disk) (e : Entry) (q : Place) :
    (d.put p e).get? q = if q = p then some e else d.get? q := by
  by_cases hq : q = p
  · subst hq
    simp [get?, put, hh, ht]
  · have hne : ¬p = q := fun h => hq h.symm
    have hfind : (d.entries.filter (·.1 != p)).find? (·.1 == q) = d.entries.find? (·.1 == q) := by
      rw [List.find?_filter]
      congr 1
      funext x
      by_cases hx : x.1 = q
      · simp [hx, hq]
      · simp [hx]
    simp [get?, put, hq, hne, hfind]

/-! ## Routes -/

theorem route_ok {r : Route} (h : route path = .ok r) :
    r.start = startOf path ∧ r.names = namesOf path ∧ r.endsInSlash = (path.toList.getLast? = some '/') := by
  simp only [route] at h
  split at h
  · cases h
  · split at h
    · cases h
    · split at h
      · cases h
      · cases h; simp [startOf, namesOf]

theorem namesOf_ne_empty {n : String} (h : n ∈ namesOf path) : n ≠ "" := by
  obtain ⟨m, hm, rfl⟩ := List.mem_map.1 h
  have := (Path.mem_names hm).1
  intro he
  exact this (by simpa using congrArg String.toList he)

/-- The last name of a route, behind the names that lead to the directory. -/
theorem last?_eq {r : Route} {name : String} (h : r.last? = some name) :
    r.names = r.names.dropLast ++ [name] ∧ name ≠ "." ∧ name ≠ ".." := by
  unfold Route.last? at h
  obtain ⟨hl, hn⟩ := Option.filter_eq_some_iff.1 h
  obtain ⟨init, hi⟩ := List.getLast?_eq_some_iff.1 hl
  refine ⟨by rw [hi]; simp, ?_⟩
  simpa using hn

/-! ## Entering -/

/-- All directories of a disk are directories of another one. -/
def Keeps (d d' : Disk) : Prop := ∀ place, d.get? place = some .directory → d'.get? place = some .directory

theorem Keeps.refl (d : Disk) : Keeps d d := fun _ h => h

theorem Keeps.trans (h : Keeps d d') (h' : Keeps d' d'') : Keeps d d'' := fun _ hp => h' _ (h _ hp)

theorem enter_cons_ok {n : String} {ns : List String} {p q : Place} : d.enter p (n :: ns) = .ok q ↔
    n = "." ∧ d.enter p ns = .ok q ∨ n ≠ "." ∧ n = ".." ∧ d.enter p.up ns = .ok q ∨
      n ≠ "." ∧ n ≠ ".." ∧ ¬n.utf8ByteSize > nameLimit ∧ d.get? (p ++ [n]) = some .directory ∧ d.enter (p ++ [n]) ns = .ok q := by
  rw [enter]
  by_cases h1 : n = "."
  · simp [h1]
  · by_cases h2 : n = ".."
    · simp [h2]
    · by_cases h3 : n.utf8ByteSize > nameLimit
      · simp [h1, h2, h3]
      · rw [if_neg h1, if_neg h2, if_neg h3]
        cases hg : d.get? (p ++ [n]) with
        | none => simp [h1, h2]
        | some e =>
          cases e with
          | file content => simp [h1, h2]
          | directory => simp [h1, h2, Nat.not_lt.1 h3]

theorem enter_ok : ∀ {ns : List String} {p q : Place}, d.enter p ns = .ok q → q = walk p ns
  | [], p, q, h => by cases h; rfl
  | n :: ns, p, q, h => by
    rw [walk]
    rcases enter_cons_ok.1 h with ⟨h1, h⟩ | ⟨h1, h2, h⟩ | ⟨h1, h2, -, -, h⟩
    · rw [if_pos h1]; exact enter_ok h
    · rw [if_neg h1, if_pos h2]; exact enter_ok h
    · rw [if_neg h1, if_neg h2]; exact enter_ok h

theorem Keeps.enter (hk : Keeps d d') : ∀ {ns : List String} {p q : Place}, d.enter p ns = .ok q → d'.enter p ns = .ok q
  | [], _, _, h => h
  | n :: ns, p, q, h => by
    rw [enter_cons_ok] at h ⊢
    rcases h with ⟨h1, h⟩ | ⟨h1, h2, h⟩ | ⟨h1, h2, h3, hd, h⟩
    · exact .inl ⟨h1, hk.enter h⟩
    · exact .inr (.inl ⟨h1, h2, hk.enter h⟩)
    · exact .inr (.inr ⟨h1, h2, h3, hk _ hd, hk.enter h⟩)

/-! ## Making directories -/

/-- Directories are added where nothing stood, and nothing else is changed. -/
def Opens (d d' : Disk) : Prop :=
  ∀ place, d'.get? place = d.get? place ∨ d.get? place = none ∧ d'.get? place = some .directory

theorem Opens.refl (d : Disk) : Opens d d := fun _ => .inl rfl

theorem Opens.trans (h : Opens d d') (h' : Opens d' d'') : Opens d d'' := by
  intro place
  rcases h place with h1 | ⟨h1, h2⟩ <;> rcases h' place with h3 | ⟨h3, h4⟩
  · exact .inl (h3.trans h1)
  · exact .inr ⟨h1 ▸ h3, h4⟩
  · exact .inr ⟨h1, h3.trans h2⟩
  · exact .inr ⟨h1, h4⟩

theorem Opens.keeps (h : Opens d d') : Keeps d d' := by
  intro place hd
  rcases h place with h1 | ⟨h1, -⟩
  · rw [h1, hd]
  · rw [h1] at hd; cases hd

theorem Opens.file {c : ByteArray} (h : Opens d d') (hf : d.get? place = some (.file c)) :
    d'.get? place = some (.file c) := by
  rcases h place with h1 | ⟨h1, -⟩
  · rw [h1, hf]
  · rw [h1] at hf; cases hf

/-- No file is created or changed. -/
theorem Opens.file_iff {c : ByteArray} (h : Opens d d') : d'.get? place = some (.file c) ↔ d.get? place = some (.file c) := by
  refine ⟨fun hc => ?_, h.file⟩
  rcases h place with hsame | ⟨-, hdir⟩
  · rwa [← hsame]
  · rw [hdir] at hc
    cases hc

/-- A name behind a place is neither the working directory nor the root. -/
theorem append_ne {dir : Place} {name : String} (h : name ≠ "") : dir ++ [name] ≠ Place.here ∧ dir ++ [name] ≠ Place.top := by
  constructor
  · simp [Place.here]
  · intro ht
    cases dir with
    | nil => exact h (by simpa [Place.top] using ht)
    | cons x xs => simp [Place.top] at ht

/-- A path whose last part can be created leads behind the directory of that part. -/
theorem placeOf_eq {r : Route} {name : String} {dir : Place} (hr : route path = .ok r) (hl : r.last? = some name)
    (he : d.enter r.start r.names.dropLast = .ok dir) :
    name ≠ "" ∧ d.enter (startOf path) (namesOf path).dropLast = .ok dir ∧ placeOf path = dir ++ [name] := by
  obtain ⟨hs, hns, -⟩ := route_ok hr
  obtain ⟨hn, h1, h2⟩ := last?_eq hl
  have hmem : name ∈ namesOf path := by rw [← hns, hn]; simp
  refine ⟨namesOf_ne_empty hmem, by rw [← hs, ← hns]; exact he, ?_⟩
  rw [placeOf, ← hs, ← hns, hn, walk_append, ← enter_ok he, walk_name _ h1 h2]

/-- A directory is made where nothing stood, in a directory that can be entered. -/
theorem makeDirectory_ok (h : d.makeDirectory path = .ok d') : ∃ dir name, name ≠ "" ∧
    d.enter (startOf path) (namesOf path).dropLast = .ok dir ∧ placeOf path = dir ++ [name] ∧
      d.get? (dir ++ [name]) = none ∧ d' = d.put (dir ++ [name]) .directory := by
  unfold makeDirectory at h
  cases hr : route path with
  | error e => rw [hr] at h; cases h
  | ok r =>
    rw [hr] at h
    cases he : d.enter r.start r.names.dropLast with
    | error e => simp only [bind, Except.bind, he] at h; cases h
    | ok dir =>
      simp only [bind, Except.bind, he] at h
      cases hl : r.last? with
      | none => rw [hl] at h; cases h
      | some name =>
        rw [hl] at h
        simp only at h
        split at h
        · cases h
        · cases hg : d.get? (dir ++ [name]) with
          | some e => rw [hg] at h; cases h
          | none =>
            rw [hg] at h
            cases h
            obtain ⟨hn, hd, hp⟩ := placeOf_eq hr hl he
            exact ⟨dir, name, hn, hd, hp, hg, rfl⟩

theorem makeDirectory_opens (h : d.makeDirectory path = .ok d') : Opens d d' := by
  obtain ⟨dir, name, hname, -, -, hn, rfl⟩ := makeDirectory_ok h
  obtain ⟨hh, ht⟩ := @append_ne dir name hname
  intro q
  rw [get?_put hh ht]
  by_cases hq : q = dir ++ [name]
  · subst hq; exact .inr ⟨hn, by simp⟩
  · exact .inl (by simp [hq])

theorem makeAll_opens : ∀ (paths : List String) (d : Disk), Opens d (d.makeAll paths).1
  | [], d => Opens.refl d
  | path :: parents, d => by
    have ih := makeAll_opens parents d
    rw [makeAll]
    cases hm : d.makeDirectory path with
    | ok d₁ => exact makeDirectory_opens hm
    | error e =>
      cases e with
      | notFound =>
        simp only
        cases hp : d.makeAll parents with
        | mk d₁ failure =>
          rw [hp] at ih
          cases failure with
          | some e => exact ih
          | none =>
            simp only
            cases hm' : d₁.makeDirectory path with
            | ok d₂ => exact ih.trans (makeDirectory_opens hm')
            | error e => exact ih
      | _ => exact Opens.refl d

theorem makeDirectories_opens (d : Disk) (path : String) : Opens d (d.makeDirectories path).1 :=
  makeAll_opens _ d

theorem makeDirectory_other (h : d.makeDirectory path = .ok d') {place : Place} (hne : placeOf path ≠ place) :
    d'.get? place = d.get? place := by
  obtain ⟨dir, name, hname, -, hp, -, rfl⟩ := makeDirectory_ok h
  obtain ⟨hh, ht⟩ := @append_ne dir name hname
  rw [get?_put hh ht, if_neg fun he => hne (by rw [hp, he])]

/-- A directory is only created where one of the paths leads. -/
theorem makeAll_other {place : Place} : ∀ (paths : List String) (d : Disk), (∀ path ∈ paths, placeOf path ≠ place) →
    (d.makeAll paths).1.get? place = d.get? place
  | [], d, _ => rfl
  | path :: parents, d, hne => by
    have ih := makeAll_other parents d fun p hp => hne p (List.mem_cons_of_mem _ hp)
    have hpath := hne path List.mem_cons_self
    rw [makeAll]
    cases hm : d.makeDirectory path with
    | ok d₁ => exact makeDirectory_other hm hpath
    | error e =>
      cases e with
      | notFound =>
        simp only
        cases hp : d.makeAll parents with
        | mk d₁ failure =>
          rw [hp] at ih
          cases failure with
          | some e => exact ih
          | none =>
            simp only
            cases hm' : d₁.makeDirectory path with
            | ok d₂ => exact (makeDirectory_other hm' hpath).trans ih
            | error e => exact ih
      | _ => rfl

/-! ## Files -/

/-- The path leads to its place, and does so as long as no directory is taken away. -/
def Reaches (d : Disk) (path : String) : Prop :=
  ∀ d', Keeps d d' → d'.find path = .ok (placeOf path, d'.get? (placeOf path))

/-- A file is put where no directory stood, in a directory that can be entered. -/
theorem write_put {text : String} (h : d.write path text = .ok d') : ∃ dir name, name ≠ "" ∧
    d.enter (startOf path) (namesOf path).dropLast = .ok dir ∧ placeOf path = dir ++ [name] ∧
      d.get? (dir ++ [name]) ≠ some .directory ∧ Reaches d path ∧ d' = d.put (dir ++ [name]) (.file text.toUTF8) := by
  unfold write at h
  cases hr : route path with
  | error e => rw [hr] at h; cases h
  | ok r =>
    rw [hr] at h
    cases he : d.enter r.start r.names.dropLast with
    | error e => simp only [bind, Except.bind, he] at h; cases h
    | ok dir =>
      simp only [bind, Except.bind, he] at h
      cases hl : r.last? with
      | none => rw [hl] at h; cases h
      | some name =>
        cases hs : r.endsInSlash with
        | true => rw [hl, hs] at h; cases h
        | false =>
          rw [hl, hs] at h
          simp only at h
          split at h
          · cases h
          · rename_i hsize
            obtain ⟨hn, hd, hp⟩ := placeOf_eq hr hl he
            have hfind : Reaches d path := by
              intro d'' hk
              rw [find, hr]
              simp only [bind, Except.bind, hl, hs, hk.enter he, if_neg hsize, hp]
              rfl
            refine ⟨dir, name, hn, hd, hp, ?_, hfind, ?_⟩
            · intro hg
              rw [hg] at h
              cases h
            · cases hg : d.get? (dir ++ [name]) with
              | none => rw [hg] at h; cases h; rfl
              | some entry =>
                rw [hg] at h
                cases entry <;> cases h
                rfl

theorem write_ok {text : String} (h : d.write path text = .ok d') :
    d.get? (placeOf path) ≠ some .directory ∧ Reaches d path ∧
      ∀ q, d'.get? q = if q = placeOf path then some (.file text.toUTF8) else d.get? q := by
  obtain ⟨dir, name, hn, -, hp, hg, hr, rfl⟩ := write_put h
  obtain ⟨hh, ht⟩ := @append_ne dir name hn
  rw [hp]
  exact ⟨hg, hr, fun q => get?_put hh ht d _ q⟩

theorem write_keeps {text : String} (h : d.write path text = .ok d') : Keeps d d' := by
  obtain ⟨hn, -, hg⟩ := write_ok h
  intro q hq
  rw [hg]
  by_cases hp : q = placeOf path
  · subst hp; exact absurd hq hn
  · simp [hp, hq]

/-- The path leads to a file with this text. -/
structure Stands (d : Disk) (path text : String) : Prop where
  reaches : Reaches d path
  file : d.get? (placeOf path) = some (.file text.toUTF8)

theorem write_stands {text : String} (h : d.write path text = .ok d') : Stands d' path text := by
  obtain ⟨-, hr, hg⟩ := write_ok h
  exact ⟨fun d'' hk => hr d'' ((write_keeps h).trans hk), by rw [hg]; simp⟩

theorem Stands.mono {text : String} (h : Stands d path text) (hk : Keeps d d')
    (hf : d'.get? (placeOf path) = d.get? (placeOf path)) : Stands d' path text :=
  ⟨fun d'' hk' => h.reaches d'' (hk.trans hk'), hf.trans h.file⟩

theorem Stands.readText {text : String} (h : Stands d path text) : d.readText path = .ok text := by
  have hu : String.fromUTF8? text.toUTF8 = some text := dif_pos text.isValidUTF8
  rw [Disk.readText, readBytes, h.reaches d (Keeps.refl d), h.file]
  simp only [bind, Except.bind, pure, Except.pure, hu]

end GraphqlCodegen.Disk
