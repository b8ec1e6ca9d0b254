import GraphqlCodegen.Proofs.Disk.Overwriting

/-!
# Refusals that last

What cannot be created or written because something else is in the way cannot be later either, as long as directories stay
directories and files stay files (`Grows`). So if creating the directories of a path has failed, trying again changes nothing
(`makeDirectories_again`), and if a file cannot be written although its directory is there, it never can (`write_again`).

Only what is not found may be found later. Creating the directories of a path does not fail so, since it goes back to the first
parent that is there, unless the path ends in a dot behind a name. No path that another one is in has this form
(`over_of_parent`).
-/

namespace GraphqlCodegen.Disk

variable {d d₁ d' d'' : Disk} {path p : String}

/-! ## In front of a path -/

/-- The directories in front of the last name are those of the path in front of it. -/
theorem Over.enter (h : Over p path) (he : Ends path) (d : Disk) :
    d.enter (startOf path) (namesOf path).dropLast = d.enter (startOf p) (namesOf p) := by
  have hsteps : (namesOf path).dropLast.filter (· != ".") = stepsOf p := by
    rw [h.steps]
    rcases List.eq_nil_or_concat (namesOf path) with hnil | ⟨init, name, hlast⟩
    · rw [stepsOf, hnil]
      rfl
    · rw [List.concat_eq_append] at hlast
      by_cases hdot : name = "."
      · subst hdot
        have hnone := he (by rw [EndsInDot, hlast, List.getLast?_concat])
        rw [hnone, List.dropLast_nil, hlast, List.dropLast_concat]
        rw [stepsOf, hlast, List.filter_append, List.append_eq_nil_iff] at hnone
        exact hnone.1
      · rw [stepsOf, hlast, List.dropLast_concat, List.filter_append, List.filter_cons_of_pos (by simpa using hdot)]
        simp
  rw [← enter_filter, hsteps, stepsOf, enter_filter, h.start]

/-! ## Disks that grow -/

/-- Directories have stayed directories, and files have stayed files. -/
structure Grows (d d' : Disk) : Prop where
  keeps : Keeps d d'
  files : ∀ place c, d.get? place = some (.file c) → ∃ c', d'.get? place = some (.file c')

theorem Grows.trans (h : Grows d d') (h' : Grows d' d'') : Grows d d'' := by
  refine ⟨h.keeps.trans h'.keeps, fun place c hc => ?_⟩
  obtain ⟨c', hc'⟩ := h.files place c hc
  exact h'.files place c' hc'

theorem Same.grows (h : Same d d') : Grows d d' := ⟨h.keeps, fun place c hc => ⟨c, (h place).trans hc⟩⟩

/-- What stands in the way stays in the way. -/
theorem Grows.enter_error (h : Grows d d') {e : Error} (hne : e ≠ .notFound) : ∀ {ns : List String} {place : Place},
    d.enter place ns = .error e → d'.enter place ns = .error e
  | [], _, he => by cases he
  | n :: ns, place, he => by
    rw [Disk.enter] at he ⊢
    split
    · rename_i h1
      rw [if_pos h1] at he
      exact h.enter_error hne he
    · rename_i h1
      rw [if_neg h1] at he
      split
      · rename_i h2
        rw [if_pos h2] at he
        exact h.enter_error hne he
      · rename_i h2
        rw [if_neg h2] at he
        split
        · rename_i h3
          rwa [if_pos h3] at he
        · rename_i h3
          rw [if_neg h3] at he
          cases hg : d.get? (place ++ [n]) with
          | none => rw [hg] at he; cases he; exact absurd rfl hne
          | some entry =>
            rw [hg] at he
            cases entry with
            | file c =>
              obtain ⟨c', hc'⟩ := h.files _ _ hg
              rw [hc']
              exact he
            | directory =>
              rw [h.keeps _ hg]
              exact h.enter_error hne he

/-! ## Directories -/

theorem routed_of_makeDirectory (h : d.makeDirectory path = .ok d') : Routed path := by
  cases hr : route path with
  | ok r => exact ⟨r, hr⟩
  | error e => rw [makeDirectory, hr] at h; cases h

/-- Where a directory was created, all names of the path can be entered. -/
theorem enter_of_makeDirectory (h : d.makeDirectory path = .ok d') : ∃ q, d'.enter (startOf path) (namesOf path) = .ok q := by
  obtain ⟨r, hr⟩ := routed_of_makeDirectory h
  have hkeeps : Keeps d d' := (makeDirectory_opens h).keeps
  obtain ⟨hs, hns, -⟩ := route_ok hr
  rw [← hs, ← hns]
  cases hl : r.last? with
  | none =>
    rw [makeDirectory_none hr hl] at h
    cases he : d.enter r.start r.names.dropLast <;> rw [he] at h <;> cases h
  | some name =>
    rw [makeDirectory_some hr hl] at h
    cases he : d.enter r.start r.names.dropLast with
    | error e => rw [he] at h; cases h
    | ok dir =>
      rw [he, Except.bind] at h
      split at h
      · cases h
      · rename_i hsize
        have hput : d'.get? (dir ++ [name]) = some .directory := by
          cases hg : d.get? (dir ++ [name]) with
          | some entry => rw [hg] at h; cases h
          | none =>
            rw [hg] at h
            cases h
            obtain ⟨hh, ht⟩ := @append_ne dir name (placeOf_eq hr hl he).1
            rw [get?_put hh ht, if_pos rfl]
        refine ⟨dir ++ [name], ?_⟩
        rw [enter_some hl, hkeeps.enter he]
        simp only [Except.bind, if_neg hsize, hput]

/-- A path without parts leads nowhere. -/
theorem enter_of_parent_none (h : Path.parent path = none) (d : Disk) :
    d.enter (startOf path) (namesOf path) = .ok (startOf path) := by
  have hnil : Path.segments path.toList = [] := by
    unfold Path.parent at h
    split at h
    · rename_i hrev
      exact List.reverse_eq_nil_iff.1 hrev
    · cases h
    · cases h
  have hsteps := length_stepsOf_le path
  rw [hnil] at hsteps
  rw [← enter_filter, ← stepsOf, List.eq_nil_of_length_eq_zero (Nat.le_zero.1 hsteps)]
  rfl

/-- Once all directories of a path are created, they can be entered. -/
theorem enter_of_makeDirectories (h : (d.makeDirectories path).2 = none) : (Path.parent path = none ∨ Routed path) ∧
    ∃ q, (d.makeDirectories path).1.enter (startOf path) (namesOf path) = .ok q := by
  cases hp : Path.parent path with
  | none => exact ⟨.inl rfl, _, enter_of_parent_none hp _⟩
  | some p => ?_
  have hattempt : ∀ d : Disk, (d.attempt path).2 = none →
      Routed path ∧ ∃ q, (d.attempt path).1.enter (startOf path) (namesOf path) = .ok q := by
    intro d h
    rw [attempt] at h ⊢
    cases hm : d.makeDirectory path with
    | ok d' => exact ⟨routed_of_makeDirectory hm, enter_of_makeDirectory hm⟩
    | error e =>
      rw [hm] at h
      simp only [ite_eq_left_iff, reduceCtorEq, imp_false, Bool.not_eq_true, Bool.not_eq_false] at h
      exact isDirectory_iff_enter.1 h
  refine And.imp_left .inr ?_
  rw [makeDirectories, (over_of_parent hp).ancestors] at h ⊢
  by_cases hm : d.makeDirectory path = .error .notFound
  · rw [makeAll_notFound hm] at h ⊢
    split at h
    · cases h
    · exact hattempt _ h
  · rw [makeAll_found hm] at h ⊢
    exact hattempt d h

/-- Once all directories of a path are created, none is created any more. -/
theorem makeDirectories_done (h : (d.makeDirectories path).2 = none) (hk : Keeps (d.makeDirectories path).1 d') :
    d'.makeDirectories path = (d', none) := by
  obtain ⟨hr, q, hq⟩ := enter_of_makeDirectories h
  rcases hr with hnone | hr
  · rw [makeDirectories, Path.ancestors, Path.ancestorsWithin, hnone]
    rfl
  · exact makeDirectories_of_enter (fun _ => hr) (hk.enter hq)

theorem enter_dropLast {ns : List String} {place q : Place} (h : d.enter place ns = .ok q) :
    ∃ q, d.enter place ns.dropLast = .ok q := by
  rcases List.eq_nil_or_concat ns with rfl | ⟨init, name, rfl⟩
  · exact ⟨_, rfl⟩
  · rw [List.concat_eq_append] at h ⊢
    rw [enter_append] at h
    rw [List.dropLast_concat]
    cases hi : d.enter place init with
    | error e => rw [hi] at h; cases h
    | ok q => exact ⟨q, rfl⟩

/-- Whoever gets to the end of a path gets to the end of the one in front of it. -/
theorem Over.makeDirectories_of_isDirectory (h : Over p path) (hd : d.isDirectory path = true) :
    d.makeDirectories p = (d, none) := by
  obtain ⟨hr, q, hq⟩ := isDirectory_iff_enter.1 hd
  rw [← enter_filter, ← stepsOf] at hq
  obtain ⟨q', hq'⟩ := enter_dropLast hq
  rw [← h.steps, stepsOf, enter_filter, ← h.start] at hq'
  exact makeDirectories_of_enter (fun hne => hr.initial h.initial hne) hq'

/-- If a directory can be created or is there, there is nothing to create in front of it. -/
theorem Over.makeDirectories (h : Over p path) (he : Ends path)
    (hm : (∃ d', d.makeDirectory path = .ok d') ∨ d.isDirectory path = true) : d.makeDirectories p = (d, none) := by
  rcases hm with ⟨d', hm⟩ | hdir
  · obtain ⟨dir, -, -, hdir, -⟩ := makeDirectory_ok hm
    rw [h.enter he] at hdir
    exact makeDirectories_of_enter (fun hne => (routed_of_makeDirectory hm).initial h.initial hne) hdir
  · exact h.makeDirectories_of_isDirectory hdir

/-- A directory whose parent is there can be found. -/
theorem makeDirectory_found {q : Place} (hq : d.enter (startOf path) (namesOf path).dropLast = .ok q) (hne : path ≠ "") :
    d.makeDirectory path ≠ .error .notFound := by
  intro hm
  cases hr : route path with
  | error e =>
    rw [makeDirectory, hr] at hm
    cases hm
    simp only [route] at hr
    split at hr
    · cases hr
    · split at hr
      · rename_i hnil
        exact hne (by simpa using hnil)
      · split at hr <;> cases hr
  | ok r =>
    obtain ⟨hs, hns, -⟩ := route_ok hr
    rw [← hs, ← hns] at hq
    cases hl : r.last? with
    | none =>
      rw [makeDirectory_none hr hl, hq] at hm
      cases hm
    | some name =>
      rw [makeDirectory_some hr hl, hq, Except.bind] at hm
      split at hm
      · cases hm
      · cases hg : d.get? (q ++ [name]) <;> rw [hg] at hm <;> cases hm

theorem not_entered {e : Error} : ¬∃ q : Place, (.error e : Except Error Place) = .ok q := by
  rintro ⟨q, hq⟩
  cases hq

/-- If creating a directory fails, and not because its parent is missing or it is there, it always does. -/
theorem makeDirectory_again {e : Error} (hm : d.makeDirectory path = .error e) (hne : e ≠ .notFound)
    (hdir : d.isDirectory path = false) (hg : Grows d d') : d'.makeDirectory path = .error e ∧ d'.isDirectory path = false := by
  rw [← Bool.not_eq_true, isDirectory_iff_enter, not_and] at hdir ⊢
  cases hr : route path with
  | error e' =>
    rw [makeDirectory, hr] at hm ⊢
    refine ⟨hm, ?_⟩
    rintro ⟨r, hr'⟩
    cases hr.symm.trans hr'
  | ok r =>
    obtain ⟨hs, hns, -⟩ := route_ok hr
    specialize hdir ⟨r, hr⟩
    rw [← hs, ← hns] at hdir ⊢
    cases hl : r.last? with
    | none =>
      rw [makeDirectory_none hr hl] at hm ⊢
      rw [enter_none hl] at hdir ⊢
      cases hq : d.enter r.start r.names.dropLast with
      | ok q => exact absurd ⟨q, hq⟩ hdir
      | error e' =>
        rw [hq] at hm
        cases hm
        rw [hg.enter_error hne hq]
        exact ⟨rfl, fun _ => not_entered⟩
    | some name =>
      rw [makeDirectory_some hr hl] at hm ⊢
      rw [enter_some hl] at hdir ⊢
      cases hq : d.enter r.start r.names.dropLast with
      | error e' =>
        rw [hq] at hm
        cases hm
        rw [hg.enter_error hne hq]
        exact ⟨rfl, fun _ => not_entered⟩
      | ok q =>
        rw [hq] at hm hdir
        rw [hg.keeps.enter hq]
        simp only [Except.bind] at hm hdir ⊢
        by_cases hsize : name.utf8ByteSize > nameLimit
        · simp only [if_pos hsize] at hm ⊢
          exact ⟨hm, fun _ => not_entered⟩
        · simp only [if_neg hsize] at hm hdir ⊢
          cases hentry : d.get? (q ++ [name]) with
          | none => rw [hentry] at hm; cases hm
          | some entry =>
            rw [hentry] at hm hdir
            cases entry with
            | directory => exact absurd ⟨_, rfl⟩ hdir
            | file c =>
              obtain ⟨c', hc'⟩ := hg.files _ _ hentry
              rw [hc']
              exact ⟨hm, fun _ => not_entered⟩

/-- A directory that could not be created, with nothing missing in front of it, cannot be later. -/
theorem attempt_again {e : Error} (hm : d.makeDirectory path ≠ .error .notFound) (ha : d.attempt path = (d₁, some e))
    (hg : Grows d₁ d') (parents : List String) : ∃ e', d'.makeAll (path :: parents) = (d', some e') := by
  cases hmake : d.makeDirectory path with
  | ok d₂ => rw [attempt, hmake] at ha; cases ha
  | error e₀ =>
    cases hdir : d.isDirectory path with
    | true => rw [attempt_isDirectory hmake hdir] at ha; cases ha
    | false =>
      rw [attempt_error hmake hdir] at ha
      cases ha
      obtain ⟨hm', hdir'⟩ := makeDirectory_again hmake (fun he => hm (by rw [hmake, he])) hdir hg
      exact ⟨_, (makeAll_found (by rwa [hm', ← hmake])).trans (attempt_error hm' hdir')⟩

/-- In front of a directory that can be created or is there, nothing is left to create. So where something in front of it
cannot be created, it cannot either. -/
theorem Over.makeAll_again {e : Error} (h : Over p path) (he : Ends path) (hp : d.makeDirectories p = (d, some e)) :
    ∃ e', d.makeAll (path :: Path.ancestors p) = (d, some e') := by
  have hmissing : ¬((∃ d', d.makeDirectory path = .ok d') ∨ d.isDirectory path = true) := by
    intro hm
    rw [h.makeDirectories he hm] at hp
    cases hp
  rw [not_or, Bool.not_eq_true] at hmissing
  cases hmake : d.makeDirectory path with
  | ok d' => exact absurd ⟨d', hmake⟩ hmissing.1
  | error e' =>
    by_cases hne : e' = .notFound
    · subst hne
      rw [Disk.makeDirectories] at hp
      exact ⟨e, by rw [makeAll_notFound hmake, hp]⟩
    · exact ⟨e', (makeAll_found (by rw [hmake]; simpa using hne)).trans (attempt_error hmake hmissing.2)⟩

/-- Creating the directories of a path again after it has failed changes nothing. -/
theorem makeDirectories_again : ∀ (k : Nat) {path : String} {d d₁ d' : Disk} {e : Error},
    (Path.segments path.toList).length ≤ k → Ends path → d.makeDirectories path = (d₁, some e) → Grows d₁ d' →
      ∃ e', d'.makeDirectories path = (d', some e')
  | k, path, d, d₁, d', e, hk, hends, hm, hg => by
    cases hp : Path.parent path with
    | none =>
      rw [makeDirectories, Path.ancestors, Path.ancestorsWithin, hp] at hm
      cases hm
    | some p =>
      have hover := over_of_parent hp
      have hfewer := hover.fewer
      rw [makeDirectories, hover.ancestors] at hm ⊢
      by_cases hnf : d.makeDirectory path = .error .notFound
      · rw [makeAll_notFound hnf] at hm
        cases hparents : d.makeDirectories p with
        | mk d₀ failure =>
          rw [show d.makeAll (Path.ancestors p) = (d₀, failure) from hparents] at hm
          cases failure with
          | some e₀ =>
            cases hm
            obtain ⟨e', he'⟩ := makeDirectories_again (k - 1) (by omega) hover.ends hparents hg
            exact hover.makeAll_again hends he'
          | none =>
            have hattempt : d₀.attempt path = (d₁, some e) := hm
            obtain ⟨-, q, hq⟩ := enter_of_makeDirectories (congrArg Prod.snd hparents)
            rw [hparents, ← hover.enter hends] at hq
            exact attempt_again (makeDirectory_found hq fun he => by subst he; cases hp) hattempt hg _
      · rw [makeAll_found hnf] at hm
        exact attempt_again hnf hm hg _

/-! ## Files -/

theorem NamesFile.routed (h : NamesFile path) : Routed path := by
  obtain ⟨r, -, hr, -⟩ := h
  exact ⟨r, hr⟩

theorem NamesFile.ends (h : NamesFile path) : Ends path := by
  obtain ⟨r, name, hr, hl, -⟩ := h
  obtain ⟨-, hns, -⟩ := route_ok hr
  obtain ⟨hn, hdot, -⟩ := last?_eq hl
  intro hlast
  rw [EndsInDot, ← hns, hn, List.getLast?_concat] at hlast
  exact absurd (Option.some.inj hlast) hdot

/-- If writing a file fails in a directory that is there, it always does. -/
theorem write_again {text : String} {e : Error} (hw : d.write path text = .error e)
    (he : ∃ dir, d.enter (startOf path) (namesOf path).dropLast = .ok dir) (hg : Grows d d') (text' : String) :
    ∃ e', d'.write path text' = .error e' := by
  cases hw' : d'.write path text' with
  | error e' => exact ⟨e', rfl⟩
  | ok d₂ =>
    obtain ⟨hn, -, hplace⟩ := write_ok_iff.1 ⟨d₂, hw'⟩
    obtain ⟨d₁, hok⟩ := write_ok_iff.2 ⟨hn, he, fun hdir => hplace (hg.keeps _ hdir)⟩
    rw [hw] at hok
    cases hok

/-- If the directories in front of a file cannot be created, it cannot be written. -/
theorem Over.write {text : String} (h : Over p path) (hp : (d.makeDirectories p).2 ≠ none) :
    ∃ e, d.write path text = .error e := by
  cases hw : d.write path text with
  | error e => exact ⟨e, rfl⟩
  | ok d' =>
    obtain ⟨hn, ⟨q, hq⟩, -⟩ := write_ok_iff.1 ⟨d', hw⟩
    rw [h.enter hn.ends] at hq
    rw [makeDirectories_of_enter (fun hne => hn.routed.initial h.initial hne) hq] at hp
    exact absurd rfl hp

end GraphqlCodegen.Disk
