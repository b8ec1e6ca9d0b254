import GraphqlCodegen.Proofs.Disk.Trees

/-!
# Creating the directories of a path

Creating the directories of a path begins at the far end and goes back to the first parent that is there.
On a tree this comes to opening the names of the path one after the other (`makeDirectories_eq`).

Only a path that ends in a dot is different: its last name is looked up and not created
(`makeDirectories_dotted`). So two disks of which one has more directories than the other are changed alike by
creating the directories of a path, unless the path ends in a dot and its directory is there on one of
them only (`makeDirectories_ahead`).
-/

namespace GraphqlCodegen.Disk

variable {d d' : Disk} {last : Error}

/-! ## Plain paths on a disk -/

/-- The path can be taken apart. -/
def Routed (path : String) : Prop := ∃ r, route path = .ok r

theorem routed_iff {path : String} : Routed path ↔ '\x00' ∉ path.toList ∧ path.toList ≠ [] ∧ path.utf8ByteSize ≤ pathLimit := by
  unfold Routed route
  simp only [List.contains_eq_mem, List.isEmpty_iff]
  by_cases h1 : '\x00' ∈ path.toList
  · simp [h1]
  · by_cases h2 : path.toList = []
    · simp [h2]
    · by_cases h3 : path.utf8ByteSize > pathLimit
      · simp [h1, h2, h3]
      · simp [h1, h2, h3, Nat.not_lt.1 h3]

theorem Routed.initial {p path : String} (h : Routed path) (hp : p.toList <+: path.toList) (hne : p ≠ "") : Routed p := by
  rw [routed_iff] at h ⊢
  obtain ⟨tail, ht⟩ := hp
  have hpath : path = p ++ String.ofList tail := by
    rw [← String.toList_inj]
    simp [ht]
  refine ⟨fun hm => h.1 (by rw [← ht]; exact List.mem_append_left _ hm), fun he => hne ?_, ?_⟩
  · simpa using congrArg String.ofList he
  · have hle := h.2.2
    rw [hpath, String.utf8ByteSize_append] at hle
    omega

variable {path : String}

theorem Plain.enter_names (h : Plain path) : d.enter Place.here (namesOf path) = d.enter Place.here (placeOf path) := by
  rw [h.placeOf_eq, enter_filter]

theorem Plain.start (h : Plain path) : startOf path = Place.here := by
  rw [startOf, h.relative]
  rfl

/-- The last name and the names in front of it. -/
theorem Plain.names_last (h : Plain path) (hd : ¬EndsInDot path) {ns : List String} {n : String} (hl : placeOf path = ns ++ [n]) :
    (namesOf path).getLast? = some n ∧ (namesOf path).dropLast.filter (· != ".") = ns := by
  have hlast : (namesOf path).getLast? = some n := by rw [getLast?_placeOf h hd, hl, List.getLast?_concat]
  obtain ⟨init, hi⟩ := List.getLast?_eq_some_iff.1 hlast
  refine ⟨hlast, ?_⟩
  rw [h.placeOf_eq, hi, List.filter_append] at hl
  rw [hi, List.dropLast_concat]
  have hn : n ≠ "." := by
    rintro rfl
    exact hd hlast
  rw [List.filter_cons_of_pos (by simpa using hn)] at hl
  exact (List.append_inj' hl rfl).1

/-- A last name that can be created is created in its directory. -/
theorem makeDirectory_some {r : Route} {name : String} (hr : route path = .ok r) (hl : r.last? = some name) (d : Disk) :
    d.makeDirectory path = (d.enter r.start r.names.dropLast).bind fun q =>
      if name.utf8ByteSize > nameLimit then .error .nameTooLong
      else match d.get? (q ++ [name]) with
        | some _ => .error .exists
        | none => .ok (d.put (q ++ [name]) .directory) := by
  rw [makeDirectory, hr]
  simp only [bind, Except.bind, hl]
  rfl

/-- Any other last name is that of a directory that is there. -/
theorem makeDirectory_none {r : Route} (hr : route path = .ok r) (hl : r.last? = none) (d : Disk) :
    d.makeDirectory path = (d.enter r.start r.names.dropLast).bind fun _ => .error .exists := by
  rw [makeDirectory, hr]
  simp only [bind, Except.bind, hl]
  rfl

theorem makeDirectory_eq (h : Plain path) (hr : Routed path) (hd : ¬EndsInDot path) {ns : List String} {n : String}
    (hl : placeOf path = ns ++ [n]) : d.makeDirectory path = (d.enter Place.here ns).bind fun dir =>
      if n.utf8ByteSize > nameLimit then .error .nameTooLong
      else match d.get? (dir ++ [n]) with
        | some _ => .error .exists
        | none => .ok (d.put (dir ++ [n]) .directory) := by
  obtain ⟨r, hr⟩ := hr
  obtain ⟨hs, hns, -⟩ := route_ok hr
  obtain ⟨hlast, hinit⟩ := h.names_last hd hl
  have hn := h.areNames n (by rw [hl]; simp)
  have hlast? : r.last? = some n := by
    rw [Route.last?, hns, hlast]
    simp [hn]
  rw [makeDirectory_some hr hlast?, hs, hns, h.start, ← enter_filter, hinit]

theorem makeDirectory_dot (h : Plain path) (hr : Routed path) (hd : EndsInDot path) :
    d.makeDirectory path = (d.enter Place.here (placeOf path)).bind fun _ => .error .exists := by
  obtain ⟨r, hr⟩ := hr
  obtain ⟨hs, hns, -⟩ := route_ok hr
  obtain ⟨init, hi⟩ := List.getLast?_eq_some_iff.1 hd
  have hlast? : r.last? = none := by
    rw [Route.last?, hns, show (namesOf path).getLast? = some "." from hd]
    rfl
  rw [makeDirectory_none hr hlast?, hs, hns, h.start, h.placeOf_eq, enter_filter, hi, List.dropLast_concat, enter_append]
  cases d.enter Place.here init with
  | error e => rfl
  | ok q => simp [Except.bind, enter]

theorem isDirectory_iff_find : d.isDirectory path = true ↔ ∃ p, d.find path = .ok (p, some .directory) := by
  unfold isDirectory
  split
  · rename_i p hp
    exact ⟨fun _ => ⟨p, hp⟩, fun _ => rfl⟩
  · rename_i hne
    simpa using hne

/-- Behind its directory, a last name that can be created is entered like any other. -/
theorem enter_some {r : Route} {name : String} (hl : r.last? = some name) (d : Disk) :
    d.enter r.start r.names = (d.enter r.start r.names.dropLast).bind fun q =>
      if name.utf8ByteSize > nameLimit then .error .nameTooLong
      else match d.get? (q ++ [name]) with
        | none => .error .notFound
        | some (.file _) => .error .notDirectory
        | some .directory => .ok (q ++ [name]) := by
  obtain ⟨hn, h1, h2⟩ := last?_eq hl
  generalize r.names.dropLast = init at hn ⊢
  rw [hn, enter_append]
  congr 1
  funext q
  rw [enter_name h1 h2]
  rfl

/-- Any other last name leads from a directory to a directory. -/
theorem enter_none {r : Route} (hl : r.last? = none) (d : Disk) :
    (∃ q, d.enter r.start r.names = .ok q) ↔ ∃ q, d.enter r.start r.names.dropLast = .ok q := by
  rcases List.eq_nil_or_concat r.names with hnil | ⟨init, name, hlast⟩
  · rw [hnil]
    rfl
  · rw [List.concat_eq_append] at hlast
    have hdots : name = "." ∨ name = ".." := by
      refine Decidable.byContradiction fun hc => ?_
      rw [not_or] at hc
      rw [Route.last?, hlast, List.getLast?_concat] at hl
      simp [hc] at hl
    rw [hlast, List.dropLast_concat, enter_append]
    cases d.enter r.start init with
    | error e => simp [Except.bind]
    | ok q => rcases hdots with rfl | rfl <;> simp [Except.bind, enter]

/-- A directory is where a path leads if all its names can be entered. -/
theorem isDirectory_iff_enter :
    d.isDirectory path = true ↔ Routed path ∧ ∃ q, d.enter (startOf path) (namesOf path) = .ok q := by
  rw [isDirectory_iff_find, find]
  cases hr : route path with
  | error e => simp [bind, Except.bind, Routed, hr]
  | ok r =>
    obtain ⟨hs, hns, -⟩ := route_ok hr
    have hrouted : Routed path := ⟨r, hr⟩
    rw [← hs, ← hns]
    have hall : (∃ p, (do return (← d.enter r.start r.names, some Entry.directory)) = Except.ok (p, some Entry.directory)) ↔
        Routed path ∧ ∃ q, d.enter r.start r.names = .ok q := by
      cases d.enter r.start r.names <;> simp [bind, Except.bind, pure, Except.pure, hrouted]
    simp only [bind, Except.bind]
    cases hl : r.last? with
    | none => exact hall
    | some name =>
      cases hslash : r.endsInSlash with
      | true => exact hall
      | false =>
        rw [enter_some hl]
        cases d.enter r.start r.names.dropLast with
        | error e => simp [Except.bind]
        | ok q =>
          simp only [Except.bind, hrouted, true_and]
          by_cases hsize : name.utf8ByteSize > nameLimit
          · simp [hsize, throw, throwThe, MonadExceptOf.throw]
          · rw [if_neg hsize, if_neg hsize]
            cases hg : d.get? (q ++ [name]) with
            | none => simp [pure, Except.pure]
            | some entry => cases entry <;> simp [pure, Except.pure]

theorem isDirectory_iff (h : Plain path) :
    d.isDirectory path = true ↔ Routed path ∧ d.enter Place.here (placeOf path) = .ok (placeOf path) := by
  have henter : (∃ q, d.enter Place.here (placeOf path) = .ok q) ↔ d.enter Place.here (placeOf path) = .ok (placeOf path) := by
    constructor
    · rintro ⟨q, hq⟩
      rw [hq, h.areNames.enter_eq hq]
      rfl
    · exact fun hq => ⟨_, hq⟩
  rw [isDirectory_iff_enter, h.start, h.enter_names, henter]

/-! ## From the far end -/

/-- Creating one directory, where it is no failure that it is there already. -/
def attempt (d : Disk) (path : String) : Disk × Option Error :=
  match d.makeDirectory path with
  | .ok d => (d, none)
  | .error e => (d, if d.isDirectory path then none else some e)

theorem makeAll_found {parents : List String} (h : d.makeDirectory path ≠ .error .notFound) :
    d.makeAll (path :: parents) = d.attempt path := by
  rw [makeAll, attempt]
  cases hm : d.makeDirectory path with
  | ok d => rfl
  | error e =>
    cases e with
    | notFound => exact absurd hm h
    | _ => rfl

theorem makeAll_notFound {parents : List String} (h : d.makeDirectory path = .error .notFound) :
    d.makeAll (path :: parents) = match d.makeAll parents with
      | (d, some e) => (d, some e)
      | (d, none) => d.attempt path := by
  rw [makeAll, h]
  rfl

theorem attempt_error {e : Error} (h : d.makeDirectory path = .error e) (hd : d.isDirectory path = false) :
    d.attempt path = (d, some e) := by
  rw [attempt, h]
  simp [hd]

theorem attempt_isDirectory {e : Error} (h : d.makeDirectory path = .error e) (hd : d.isDirectory path = true) :
    d.attempt path = (d, none) := by
  rw [attempt, h]
  simp [hd]

theorem isDirectory_false (h : Plain path) (he : d.enter Place.here (placeOf path) ≠ .ok (placeOf path)) :
    d.isDirectory path = false := by
  rw [← Bool.not_eq_true, isDirectory_iff h]
  exact fun hd => he hd.2

theorem attempt_entered (h : Plain path) (hr : Routed path) (hd : ¬EndsInDot path) {ns : List String} {n : String}
    (hl : placeOf path = ns ++ [n]) (he : d.enter Place.here ns = .ok ns) :
    d.makeDirectory path ≠ .error .notFound ∧ d.attempt path = openAll .exists d ns [n] := by
  have hn := h.areNames n (by rw [hl]; simp)
  have hm := makeDirectory_eq (d := d) h hr hd hl
  have hplace : d.enter Place.here (placeOf path) = d.enter ns [n] := by
    rw [hl, enter_append, he]
    rfl
  rw [he] at hm
  simp only [Except.bind] at hm
  rw [enter_name hn.2.1 hn.2.2] at hplace
  rw [openAll]
  split at hm
  · rename_i h3
    rw [if_pos h3] at hplace ⊢
    exact ⟨by rw [hm]; simp, attempt_error hm (isDirectory_false h (by rw [hplace]; simp))⟩
  · rename_i h3
    rw [if_neg h3] at hplace ⊢
    cases hg : d.get? (ns ++ [n]) with
    | none =>
      rw [hg] at hm
      refine ⟨by rw [hm]; simp, ?_⟩
      rw [attempt, hm]
      rfl
    | some entry =>
      rw [hg] at hm hplace
      refine ⟨by rw [hm]; simp, ?_⟩
      cases entry with
      | file c => exact attempt_error hm (isDirectory_false h (by rw [hplace]; simp))
      | directory => exact attempt_isDirectory hm ((isDirectory_iff h).2 ⟨hr, by rw [hplace, hl]; rfl⟩)

theorem Plain.namesOf_ne_nil (h : Plain path) (hne : path ≠ "") : namesOf path ≠ [] := by
  have hcs : path.toList ≠ [] := fun he => hne (by simpa using congrArg String.ofList he)
  obtain ⟨first, rest, hsplit, hfirst, -⟩ := Path.segments_relative h.relative hcs
  rw [namesOf, Path.names, hsplit, List.filter_cons_of_pos (by simpa using hfirst)]
  simp

/-- A path that does not end in a dot has a last name. -/
theorem Plain.exists_last (h : Plain path) (hne : path ≠ "") (hd : ¬EndsInDot path) : ∃ ns n, placeOf path = ns ++ [n] := by
  rcases List.eq_nil_or_concat (placeOf path) with hnil | ⟨ns, n, hl⟩
  · have hlast := getLast?_placeOf h hd
    rw [hnil, List.getLast?_nil, List.getLast?_eq_none_iff] at hlast
    exact absurd hlast (h.namesOf_ne_nil hne)
  · exact ⟨ns, n, by rw [hl, List.concat_eq_append]⟩

/-- Creating a path and before it the others opens one more name than creating the others. -/
theorem makeAll_last {parents : List String} (ht : IsTree d) (h : Plain path) (hr : Routed path) (hd : ¬EndsInDot path)
    {ns : List String} {n : String} (hl : placeOf path = ns ++ [n])
    (hparents : d.makeAll parents = openAll .exists d Place.here ns) :
    d.makeAll (path :: parents) = openAll .exists d Place.here (ns ++ [n]) := by
  have hns : AreNames ns := fun m hm => h.areNames m (by rw [hl]; exact List.mem_append_left _ hm)
  have hm := makeDirectory_eq (d := d) h hr hd hl
  cases he : d.enter Place.here ns with
  | ok q =>
    obtain rfl : q = ns := hns.enter_eq he
    obtain ⟨hfound, hatt⟩ := attempt_entered h hr hd hl he
    rw [makeAll_found hfound, hatt, openAll_entered hns he]
    rfl
  | error e =>
    rw [he] at hm
    by_cases hnf : e = .notFound
    · subst hnf
      rw [makeAll_notFound hm, hparents, @openAll_notFound d .exists .exists [n] ht ns _ hns he]
      cases ho : openAll .exists d Place.here ns with
      | mk d₁ failure =>
        cases failure with
        | some e => rfl
        | none =>
          have he' := @enter_openAll .exists ns d Place.here hns (by rw [ho])
          rw [ho] at he'
          exact (attempt_entered h hr hd hl he').2
    · rw [makeAll_found (by rw [hm]; simpa [Except.bind] using hnf), openAll_blocked hns he hnf (.inl (by simp))]
      refine attempt_error hm (isDirectory_false h ?_)
      rw [hl, enter_append, he]
      simp [Except.bind]

theorem makeAll_ancestors (ht : IsTree d) : ∀ (k : Nat) {path : String}, (Path.segments path.toList).length ≤ k →
    Plain path → Direct path → (path ≠ "" → Routed path) →
      d.makeAll (Path.ancestors path) = openAll .exists d Place.here (placeOf path)
  | k, path, hk, h, hdirect, hr => by
    by_cases hne : path = ""
    · subst hne; rfl
    obtain ⟨p, above⟩ := h.exists_above hne
    replace hr := hr hne
    rw [above.ancestors]
    by_cases hd : EndsInDot path
    · -- the working directory is there
      have hm := makeDirectory_dot (d := d) h hr hd
      rw [hdirect hd] at hm ⊢
      rw [makeAll_found (by rw [hm]; simp [enter, Except.bind])]
      exact attempt_isDirectory hm ((isDirectory_iff h).2 ⟨hr, by rw [hdirect hd]; rfl⟩)
    · obtain ⟨ns, n, hl⟩ := h.exists_last hne hd
      have hfewer := above.fewer
      obtain ⟨k, rfl⟩ : ∃ j, k = j + 1 := ⟨k - 1, by omega⟩
      have ih := makeAll_ancestors ht k (by omega) above.plain above.direct fun hpne => hr.initial above.initial hpne
      rw [above.place, hl, List.dropLast_concat] at ih
      rw [hl]
      exact makeAll_last ht h hr hd hl ih

/-- What comes of looking for one more directory that is not there. -/
def lookUp (place : Place) (n : String) : Disk × Option Error → Disk × Option Error
  | (d, some e) => (d, some e)
  | (d, none) => (d, some (if n.utf8ByteSize > nameLimit then .nameTooLong
      else match d.get? (place ++ [n]) with
        | some (.file _) => .notDirectory
        | _ => .notFound))

/-- Creating the directories of a path opens its names one after the other. -/
theorem makeDirectories_eq (ht : IsTree d) (h : Plain path) (hr : Routed path) (hd : Direct path) :
    d.makeDirectories path = openAll .exists d Place.here (placeOf path) :=
  makeAll_ancestors ht _ (Nat.le_refl _) h hd fun _ => hr

theorem lookUp_error {ns : List String} {n : String} {e : Error} (hn : n ≠ "." ∧ n ≠ "..")
    (he : d.enter ns [n] = .error e) : lookUp ns n (d, none) = (d, some e) := by
  rw [enter_name hn.1 hn.2] at he
  rw [lookUp]
  congr 2
  split at he
  · rename_i h3
    cases he
    rw [if_pos h3]
  · rename_i h3
    rw [if_neg h3]
    cases hg : d.get? (ns ++ [n]) with
    | none => rw [hg] at he; cases he; rfl
    | some entry => rw [hg] at he; cases entry <;> cases he; rfl

theorem openMore_nil (p : Place) : ∀ x : Disk × Option Error, openMore last p [] x = x
  | (_, some _) => rfl
  | (_, none) => rfl

/-- What a file at the last name is called matters only where the names in front of it can be entered. -/
theorem openAll_last {last' : Error} (ht : IsTree d) {ns : List String} {n : String} {p : Place} (hns : AreNames ns)
    (he : d.enter p (ns ++ [n]) = .error .notFound) : openAll last d p ns = openAll last' d p ns := by
  rw [enter_append] at he
  have happ : openAll last d p (ns ++ []) = openAll last d p ns := by rw [List.append_nil]
  cases hen : d.enter p ns with
  | ok q =>
    have happ' : openAll last' d p (ns ++ []) = openAll last' d p ns := by rw [List.append_nil]
    rw [← happ, ← happ', openAll_entered hns hen, openAll_entered hns hen]
    rfl
  | error e =>
    rw [hen] at he
    cases he
    rw [← happ, @openAll_notFound d last last' [] ht ns p hns hen, openMore_nil]

theorem attempt_dotted (h : Plain path) (hr : Routed path) (hd : EndsInDot path) {ns : List String} {n : String}
    (hl : placeOf path = ns ++ [n]) (he : d.enter Place.here ns = .ok ns) (hg : d.get? (ns ++ [n]) ≠ some .directory) :
    d.attempt path = lookUp ns n (d, none) := by
  have hn := h.areNames n (by rw [hl]; simp)
  have hplace : d.enter Place.here (placeOf path) = d.enter ns [n] := by
    rw [hl, enter_append, he]
    rfl
  have hm := makeDirectory_dot (d := d) h hr hd
  rw [hplace] at hm
  cases hlast : d.enter ns [n] with
  | ok q =>
    rcases enter_cons_ok.1 hlast with ⟨hc, -⟩ | ⟨-, hc, -⟩ | ⟨-, -, -, hdir, -⟩
    · exact absurd hc hn.2.1
    · exact absurd hc hn.2.2
    · exact absurd hdir hg
  | error e =>
    rw [hlast] at hm
    rw [attempt_error hm (isDirectory_false h (by rw [hplace, hlast]; simp)), lookUp_error hn.2 hlast]

/-- The first thing on the way that is no directory is there: nothing is created and the last name is not met. -/
theorem lookUp_blocked {ns : List String} {n : String} {e : Error} (hns : AreNames ns) (hn : n ≠ "." ∧ n ≠ "..")
    (he : d.enter Place.here (ns ++ [n]) = .error e) (hnf : e ≠ .notFound) :
    lookUp ns n (openAll .notDirectory d Place.here ns) = (d, some e) := by
  have happ : openAll .notDirectory d Place.here (ns ++ []) = openAll .notDirectory d Place.here ns := by rw [List.append_nil]
  rw [enter_append] at he
  cases hen : d.enter Place.here ns with
  | ok q =>
    rw [hen] at he
    obtain rfl : q = ns := hns.enter_eq hen
    rw [← happ, openAll_entered hns hen]
    exact lookUp_error hn he
  | error e' =>
    rw [hen] at he
    cases he
    rw [← happ, openAll_blocked hns hen hnf (.inr rfl)]
    rfl

/-- Opening the names in front of the last one leaves the last one as it is. -/
theorem openAll_front {ns : List String} (hns : AreNames ns) (n : String) :
    (openAll last d Place.here ns).1.get? (ns ++ [n]) = d.get? (ns ++ [n]) :=
  openAll_other hns (not_onTheWay_concat Place.here ns n)

/-- Behind a path that ends in a dot the last name has to be there. -/
theorem makeDirectories_dotted (ht : IsTree d) (h : Plain path) (hr : Routed path) (hd : EndsInDot path) {ns : List String}
    {n : String} (hl : placeOf path = ns ++ [n]) : d.makeDirectories path =
      if d.isDirectory path then (d, none) else lookUp ns n (openAll .notDirectory d Place.here ns) := by
  have hne : path ≠ "" := by
    rintro rfl
    rw [placeOf_empty] at hl
    simp at hl
  obtain ⟨p, above⟩ := h.exists_above hne
  have hp : placeOf p = ns := by rw [above.place, hl, List.dropLast_concat]
  have hns : AreNames ns := by rw [← hp]; exact above.plain.areNames
  have hm := makeDirectory_dot (d := d) h hr hd
  rw [makeDirectories, above.ancestors]
  cases he : d.enter Place.here (placeOf path) with
  | ok q =>
    have hdir : d.isDirectory path = true := (isDirectory_iff h).2 ⟨hr, by rw [he, h.areNames.enter_eq he]; rfl⟩
    rw [he] at hm
    rw [if_pos hdir, makeAll_found (by rw [hm]; simp [Except.bind]), attempt_isDirectory hm hdir]
  | error e =>
    have hdir : d.isDirectory path = false := isDirectory_false h (by rw [he]; simp)
    rw [he] at hm
    rw [if_neg (by simp [hdir])]
    rw [hl] at he
    by_cases hnf : e = .notFound
    · subst hnf
      -- the names in front are opened, and then the last one is missing
      have hgone : d.get? (ns ++ [n]) ≠ some .directory := by
        intro hg
        have hnames : AreNames (ns ++ [n]) := by rw [← hl]; exact h.areNames
        exact @IsTree.enter_ne_notFound d ht _ Place.here hnames (by rw [show Place.here ++ (ns ++ [n]) = ns ++ [n] from rfl, hg]; simp) he
      have hparents := makeAll_ancestors ht _ (Nat.le_refl _) above.plain above.direct fun hpne => hr.initial above.initial hpne
      have hlast : openAll .notDirectory d Place.here ns = openAll .exists d Place.here ns := openAll_last ht hns he
      have hfront := @openAll_front d .exists ns hns n
      rw [makeAll_notFound hm, hparents, hp, hlast]
      cases ho : openAll .exists d Place.here ns with
      | mk d₁ failure =>
        cases failure with
        | some e => rfl
        | none =>
          have he' := @enter_openAll .exists ns d Place.here hns (by rw [ho])
          rw [ho] at he' hfront
          exact attempt_dotted h hr hd hl he' (by rw [hfront]; exact hgone)
    · rw [makeAll_found (by rw [hm]; simpa [Except.bind] using hnf), attempt_error hm hdir,
        lookUp_blocked hns (h.areNames n (by rw [hl]; simp)).2 he hnf]

/-- A path that cannot be taken apart is no path of a directory. -/
theorem makeDirectories_unrouted (h : Plain path) (hne : path ≠ "") (hr : ¬Routed path) :
    ∃ e, ∀ d : Disk, d.makeDirectories path = (d, some e) := by
  cases hroute : route path with
  | ok r => exact absurd ⟨r, hroute⟩ hr
  | error e =>
    refine ⟨e, fun d => ?_⟩
    obtain ⟨p, above⟩ := h.exists_above hne
    have hm : d.makeDirectory path = .error e := by rw [makeDirectory, hroute]; rfl
    have hnf : e ≠ .notFound := by
      rintro rfl
      simp only [route] at hroute
      split at hroute
      · cases hroute
      · split at hroute
        · rename_i hnil
          exact hne (by simpa using congrArg String.ofList (List.isEmpty_iff.1 hnil))
        · split at hroute <;> cases hroute
    rw [makeDirectories, above.ancestors, makeAll_found (by rw [hm]; simpa using hnf)]
    refine attempt_error hm ?_
    rw [← Bool.not_eq_true, isDirectory_iff h]
    exact fun hd => hr hd.1

/-! ## Two disks and a path -/

/-- A path that does not lead to one directory in every way ends in a dot behind a name. -/
theorem exists_last_of_not_direct (hd : ¬Direct path) : EndsInDot path ∧ ∃ ns n, placeOf path = ns ++ [n] := by
  rw [Direct, Classical.not_imp] at hd
  refine ⟨hd.1, ?_⟩
  rcases List.eq_nil_or_concat (placeOf path) with hnil | ⟨ns, n, hl⟩
  · exact absurd hnil hd.2
  · exact ⟨ns, n, by rw [hl, List.concat_eq_append]⟩

/-- After the directories of a path were created, its place can be entered. -/
theorem makeDirectories_entered (ht : IsTree d) (h : Plain path) (ho : (d.makeDirectories path).2 = none) :
    (d.makeDirectories path).1.enter Place.here (placeOf path) = .ok (placeOf path) := by
  by_cases hne : path = ""
  · subst hne; rfl
  by_cases hr : Routed path
  · by_cases hd : Direct path
    · rw [makeDirectories_eq ht h hr hd] at ho ⊢
      exact enter_openAll h.areNames ho
    · obtain ⟨hdot, ns, n, hl⟩ := exists_last_of_not_direct hd
      rw [makeDirectories_dotted ht h hr hdot hl] at ho ⊢
      split at ho
      · rename_i hdir
        rw [if_pos hdir]
        exact ((isDirectory_iff h).1 hdir).2
      · cases hx : openAll .notDirectory d Place.here ns with
        | mk d₁ failure => rw [hx] at ho; cases failure <;> cases ho
  · obtain ⟨e, he⟩ := makeDirectories_unrouted h hne hr
    rw [he] at ho
    cases ho

theorem makeDirectories_isDirectory (ht : IsTree d) (h : Plain path) (hd : d.isDirectory path = true) :
    d.makeDirectories path = (d, none) := by
  obtain ⟨hr, he⟩ := (isDirectory_iff h).1 hd
  by_cases hdirect : Direct path
  · have happ := @openAll_entered d .exists _ [] _ _ h.areNames he
    rw [List.append_nil] at happ
    rw [makeDirectories_eq ht h hr hdirect, happ]
    rfl
  · obtain ⟨hdot, ns, n, hl⟩ := exists_last_of_not_direct hdirect
    rw [makeDirectories_dotted ht h hr hdot hl, if_pos hd]

/-- Where a path ends in a dot, the directory is not created. -/
theorem isDirectory_of_makeDirectories (ht : IsTree d) (h : Plain path) (hdot : EndsInDot path)
    (ho : (d.makeDirectories path).2 = none) : d.isDirectory path = true := by
  have hne : path ≠ "" := by
    rintro rfl
    cases hdot
  by_cases hr : Routed path
  · by_cases hd : Direct path
    · exact (isDirectory_iff h).2 ⟨hr, by rw [hd hdot]; rfl⟩
    · obtain ⟨-, ns, n, hl⟩ := exists_last_of_not_direct hd
      rw [makeDirectories_dotted ht h hr hdot hl] at ho
      split at ho
      · assumption
      · cases hx : openAll .notDirectory d Place.here ns with
        | mk d₁ failure => rw [hx] at ho; cases failure <;> cases ho
  · obtain ⟨e, he⟩ := makeDirectories_unrouted h hne hr
    rw [he] at ho
    cases ho

theorem Ahead.isDirectory (ha : Ahead d d' Place.here (placeOf path)) (h : Plain path) (hd : d.isDirectory path = true) :
    d'.isDirectory path = true := by
  obtain ⟨hr, he⟩ := (isDirectory_iff h).1 hd
  exact (isDirectory_iff h).2 ⟨hr, ha.enter h.areNames he⟩

theorem Ahead.initial {p : Place} {ns ms : List String} (h : Ahead d d' p (ns ++ ms)) : Ahead d d' p ns :=
  fun ks hne hks => h ks hne (hks.trans (List.prefix_append ns ms))

theorem OnTheWay.append {p q : Place} {ns ms : List String} (h : OnTheWay p ns q) : OnTheWay p (ns ++ ms) q := by
  obtain ⟨ks, hne, hks, rfl⟩ := h
  exact ⟨ks, hne, hks.trans (List.prefix_append ns ms), rfl⟩

theorem lookUp_fst (p : Place) (n : String) : ∀ x : Disk × Option Error, (lookUp p n x).1 = x.1
  | (_, some _) => rfl
  | (_, none) => rfl

/-- Looking for the last name behind the others comes to the same on both disks, if neither has a directory there. -/
theorem lookUp_ahead {ns : List String} {n : String} (hns : AreNames ns) (ha : Ahead d d' Place.here (ns ++ [n])) :
    (lookUp ns n (openAll .notDirectory d Place.here ns)).2 = (lookUp ns n (openAll .notDirectory d' Place.here ns)).2 ∧
      Alike d d' (openAll .notDirectory d Place.here ns).1 (openAll .notDirectory d' Place.here ns).1 fun q =>
        OnTheWay Place.here (ns ++ [n]) q ∧ (openAll .notDirectory d Place.here ns).1.get? q = some .directory := by
  obtain ⟨hf, halike⟩ := @openAll_ahead .notDirectory _ _ _ _ hns ha.initial
  have hlast : d'.get? (ns ++ [n]) = d.get? (ns ++ [n]) ∨ d.get? (ns ++ [n]) = none ∧ d'.get? (ns ++ [n]) = some .directory :=
    ha (ns ++ [n]) (by simp) (List.prefix_refl _)
  have h1 := @openAll_front d .notDirectory ns hns n
  have h2 := @openAll_front d' .notDirectory ns hns n
  constructor
  · cases hx : openAll .notDirectory d Place.here ns with
    | mk d₁ failure =>
      cases hx' : openAll .notDirectory d' Place.here ns with
      | mk d₁' failure' =>
        rw [hx] at h1 hf
        rw [hx'] at h2 hf
        cases hf
        cases failure with
        | some e => rfl
        | none =>
          simp only [lookUp]
          rcases hlast with hg | ⟨hg, hg'⟩
          · rw [show d₁.get? (ns ++ [n]) = d₁'.get? (ns ++ [n]) from h1.trans (hg.symm.trans h2.symm)]
          · rw [show d₁.get? (ns ++ [n]) = none from h1.trans hg, show d₁'.get? (ns ++ [n]) = some .directory from h2.trans hg']
  · intro q
    rcases halike q with hq | ⟨⟨hw, hq⟩, he⟩
    · exact .inl hq
    · exact .inr ⟨⟨hw.append, hq⟩, he⟩

/-- Creating the directories of a path comes to the same on both disks. -/
theorem makeDirectories_ahead (ht : IsTree d) (ht' : IsTree d') (h : Plain path) (ha : Ahead d d' Place.here (placeOf path))
    (hdot : EndsInDot path → d'.isDirectory path = true → d.isDirectory path = true) :
    (d.makeDirectories path).2 = (d'.makeDirectories path).2 ∧
      Alike d d' (d.makeDirectories path).1 (d'.makeDirectories path).1 fun q =>
        OnTheWay Place.here (placeOf path) q ∧ (d.makeDirectories path).1.get? q = some .directory := by
  by_cases hne : path = ""
  · subst hne; exact ⟨rfl, fun q => .inl ⟨rfl, rfl⟩⟩
  by_cases hr : Routed path
  · by_cases hd : Direct path
    · rw [makeDirectories_eq ht h hr hd, makeDirectories_eq ht' h hr hd]
      exact openAll_ahead h.areNames ha
    · obtain ⟨hends, ns, n, hl⟩ := exists_last_of_not_direct hd
      rw [makeDirectories_dotted ht h hr hends hl, makeDirectories_dotted ht' h hr hends hl]
      by_cases hdir : d.isDirectory path = true
      · rw [if_pos hdir, if_pos (ha.isDirectory h hdir)]
        exact ⟨rfl, fun q => .inl ⟨rfl, rfl⟩⟩
      · rw [if_neg hdir, if_neg fun hdir' => hdir (hdot hends hdir')]
        rw [hl] at ha ⊢
        simp only [lookUp_fst]
        exact lookUp_ahead (fun m hm => h.areNames m (by rw [hl]; exact List.mem_append_left _ hm)) ha
  · obtain ⟨e, he⟩ := makeDirectories_unrouted h hne hr
    rw [he, he]
    exact ⟨rfl, fun q => .inl ⟨rfl, rfl⟩⟩

/-! ## Two disks and a file -/

/-- A file is written into a directory that can be entered. -/
theorem write_join {directory filename text : String} (h : Plain directory) (hn : IsName filename)
    (hr : Routed (Path.join directory filename)) (he : d.enter Place.here (placeOf directory) = .ok (placeOf directory)) :
    d.write (Path.join directory filename) text = if filename.utf8ByteSize > nameLimit then .error .nameTooLong
      else match d.get? (placeOf directory ++ [filename]) with
        | some .directory => .error .isDirectory
        | _ => .ok (d.put (placeOf directory ++ [filename]) (.file text.toUTF8)) := by
  obtain ⟨r, hr⟩ := hr
  obtain ⟨hs, hns, hslash⟩ := route_ok hr
  rw [startOf_join hn, h.start] at hs
  rw [namesOf_join hn] at hns
  have hlast? : r.last? = some filename := by
    rw [Route.last?, hns, List.getLast?_concat]
    simp [hn.not_here, hn.not_up]
  have hends : r.endsInSlash = false := by
    rw [← Bool.not_eq_true, hslash, getLast?_join hn]
    exact fun hl => hn.noSlash (List.mem_of_getLast? hl)
  rw [write, hr]
  simp only [bind, Except.bind, hs, hns, List.dropLast_concat, h.enter_names, he, hlast?, hends]
  rfl

/-- Writing a file behind a directory comes to the same on both disks. -/
theorem write_ahead {directory filename text : String} (h : Plain directory) (hn : IsName filename)
    (ha : Ahead d d' Place.here (placeOf directory)) (he : d.enter Place.here (placeOf directory) = .ok (placeOf directory))
    (hg : d'.get? (placeOf directory ++ [filename]) = d.get? (placeOf directory ++ [filename])) :
    (∃ e, d.write (Path.join directory filename) text = .error e ∧ d'.write (Path.join directory filename) text = .error e) ∨
      d.write (Path.join directory filename) text = .ok (d.put (placeOf directory ++ [filename]) (.file text.toUTF8)) ∧
      d'.write (Path.join directory filename) text = .ok (d'.put (placeOf directory ++ [filename]) (.file text.toUTF8)) := by
  cases hroute : route (Path.join directory filename) with
  | error e =>
    refine .inl ⟨e, ?_, ?_⟩ <;> rw [write, hroute] <;> rfl
  | ok r =>
    rw [write_join h hn ⟨r, hroute⟩ he, write_join h hn ⟨r, hroute⟩ (ha.enter h.areNames he), hg]
    split
    · exact .inl ⟨_, rfl, rfl⟩
    · split
      · exact .inl ⟨_, rfl, rfl⟩
      · exact .inr ⟨rfl, rfl⟩

end GraphqlCodegen.Disk
