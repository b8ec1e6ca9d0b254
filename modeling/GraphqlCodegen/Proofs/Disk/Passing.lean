import GraphqlCodegen.Proofs.Disk.Refusal
import GraphqlCodegen.Proofs.Disk.Spellings

/-!
# The places that a path passes

A path passes the places where its first names lead, from where it begins to where it ends (`Passes`). If all its names can be
entered, directories stand at all these places, also where the path steps up (`get?_of_enter`). Creating the directories of a path
creates some of them and nothing else (`passes_of_changed`), and if that fails, there is no directory at the end of the path
(`makeDirectories_failed`).
-/

namespace GraphqlCodegen.Disk

variable {d d' : Disk} {path p : String} {place q : Place}

/-- The first names of the path lead to the place: none of them, some, or all. -/
def Passes (path : String) (place : Place) : Prop := ∃ ns, ns <+: namesOf path ∧ place = walk (startOf path) ns

theorem passes_of_steps {ns : List String} (h : ns <+: stepsOf path) : Passes path (walk (startOf path) ns) := by
  obtain ⟨rest, hrest⟩ := h
  obtain ⟨front, behind, hnames, hfront, -⟩ := List.filter_eq_append_iff.1 hrest.symm
  exact ⟨front, ⟨behind, hnames.symm⟩, by rw [← hfront, walk_filter]⟩

/-! ## Directories on the way -/

/-- Directories stand at the place and at all places above it. -/
def Whole (d : Disk) (place : Place) : Prop := ∀ q, q <+: place → d.get? q = some .directory

theorem whole_startOf (d : Disk) (path : String) : Whole d (startOf path) := by
  intro q hq
  unfold startOf at hq
  split at hq
  · rcases List.prefix_cons_iff.1 hq with rfl | ⟨t, rfl, ht⟩
    · rfl
    · rw [List.prefix_nil.1 ht]
      rfl
  · rw [List.prefix_nil.1 hq]
    rfl

theorem Whole.up (h : Whole d place) : Whole d place.up := by
  intro q hq
  unfold Place.up at hq
  split at hq
  · rename_i htop
    exact h q (htop ▸ hq)
  · exact h q (hq.trans (List.dropLast_prefix place))

theorem Whole.enter : ∀ {ns : List String} {place : Place}, Whole d place → d.enter place ns = .ok q → Whole d q
  | [], _, h, he => by
    cases he
    exact h
  | n :: ns, place, h, he => by
    rcases enter_cons_ok.1 he with ⟨-, he⟩ | ⟨-, -, he⟩ | ⟨-, -, -, hdir, he⟩
    · exact h.enter he
    · exact h.up.enter he
    · refine Whole.enter (fun r hr => ?_) he
      rcases List.prefix_concat_iff.1 hr with rfl | hr
      · exact hdir
      · exact h r hr

/-- Directories stand at all places that are passed, if the path can be walked to its end. -/
theorem get?_of_enter (he : d.enter (startOf path) (namesOf path) = .ok q) (h : Passes path place) :
    d.get? place = some .directory := by
  obtain ⟨ns, ⟨rest, hnames⟩, rfl⟩ := h
  rw [← hnames, enter_append] at he
  cases hns : d.enter (startOf path) ns with
  | error e => rw [hns] at he; cases he
  | ok r =>
    rw [← enter_ok hns]
    exact (whole_startOf d path).enter hns r (List.prefix_refl r)

/-! ## Directories that are created -/

/-- The ancestors of a path lead to places that it passes. -/
theorem steps_of_mem_ancestors : ∀ (k : Nat) {path : String}, (Path.segments path.toList).length ≤ k →
    ∀ a ∈ Path.ancestors path, startOf a = startOf path ∧ stepsOf a <+: stepsOf path
  | k, path, hk, a, ha => by
    cases hp : Path.parent path with
    | none =>
      rw [Path.ancestors, Path.ancestorsWithin, hp] at ha
      cases ha
    | some p =>
      have hover := over_of_parent hp
      rw [hover.ancestors] at ha
      rcases List.mem_cons.1 ha with rfl | ha
      · exact ⟨rfl, List.prefix_refl _⟩
      · have hfewer := hover.fewer
        obtain ⟨hstart, hsteps⟩ := steps_of_mem_ancestors (k - 1) (by omega) a ha
        rw [hover.steps] at hsteps
        exact ⟨hstart.trans hover.start, hsteps.trans (List.dropLast_prefix _)⟩

/-- What changes when the directories of a path are created is passed by it. -/
theorem passes_of_changed (h : (d.makeDirectories path).1.get? place ≠ d.get? place) : Passes path place := by
  refine Classical.byContradiction fun hnot => h (makeAll_other _ d fun a ha hplace => hnot ?_)
  obtain ⟨hstart, hsteps⟩ := steps_of_mem_ancestors _ (Nat.le_refl _) a ha
  rw [← hplace, placeOf_eq_walk, hstart]
  exact passes_of_steps hsteps

/-! ## Directories that could not be created -/

theorem attempt_failed {e : Error} (h : (d.attempt path).2 = some e) : (d.attempt path).1.isDirectory path = false := by
  cases hm : d.makeDirectory path with
  | ok d₁ => rw [attempt, hm] at h; cases h
  | error e =>
    cases hdir : d.isDirectory path with
    | true => rw [attempt_isDirectory hm hdir] at h; cases h
    | false => rwa [attempt_error hm hdir]

/-- Where the directories of a path could not be created, there is no directory at its end. -/
theorem makeDirectories_failed {e : Error} (h : (d.makeDirectories path).2 = some e) :
    (d.makeDirectories path).1.isDirectory path = false := by
  cases hp : Path.parent path with
  | none =>
    rw [makeDirectories, Path.ancestors, Path.ancestorsWithin, hp] at h
    cases h
  | some p =>
    have hover := over_of_parent hp
    rw [makeDirectories, hover.ancestors] at h ⊢
    by_cases hm : d.makeDirectory path = .error .notFound
    · rw [makeAll_notFound hm] at h ⊢
      cases hparents : d.makeDirectories p with
      | mk d₁ failure =>
        rw [show d.makeAll (Path.ancestors p) = (d₁, failure) from hparents] at h ⊢
        cases failure with
        | none => exact attempt_failed h
        | some e₁ =>
          -- creating the parents would fail again, but with a directory at the end of the path there would be nothing to create
          obtain ⟨e₂, hagain⟩ := makeDirectories_again _ (Nat.le_refl _) hover.ends hparents (Same.refl d₁).grows
          rw [← Bool.not_eq_true]
          intro hdir
          rw [hover.makeDirectories_of_isDirectory hdir] at hagain
          cases hagain
    · rw [makeAll_found hm] at h ⊢
      exact attempt_failed h

end GraphqlCodegen.Disk
