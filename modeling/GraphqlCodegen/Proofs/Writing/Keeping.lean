import GraphqlCodegen.Proofs.Disk.Overwriting
import GraphqlCodegen.Proofs.Writing.Logs

/-!
# What steps keep and what they bring about

What each step of all parties keeps is kept whatever their order (`Interleaves.kept`), and if a step brings it about when it
succeeds, it holds at the end if the party of that step has not failed (`Interleaves.established`). A party cannot fail
while something holds with which its steps succeed (`Interleaves.succeeds`).

For files that is: once written they are there whatever is done (`Step.take_held`), and as long as they are there, writing
them again succeeds (`Artifact.take_held`); if they have the same content already, nothing changes (`Artifact.take_stands`).
-/

namespace GraphqlCodegen

open Disk (Held IsName Same Stands placeOf)

variable {P : Disk → Prop} {d d' : Disk}

/-! ## What all steps keep -/

theorem Progress.finishWithin_kept : ∀ (n : Nat) {d : Disk} {p : Progress},
    (∀ s ∈ p.pending, ∀ d, P d → P (s.take d).1) → P d → P (finishWithin n d p).1
  | 0, _, _, _, hd => hd
  | n + 1, d, p, hstep, hd => by
    cases hp : p.pending with
    | nil => rwa [finishWithin_done hp]
    | cons s rest =>
      rw [hp] at hstep
      have hfirst : P (p.advance d).1 := by
        rw [advance_disk hp]
        exact hstep s List.mem_cons_self d hd
      exact finishWithin_kept n (fun t ht => hstep t (List.mem_cons_of_mem _ (mem_advance hp ht))) hfirst

section Parties

variable {ι : Type} [DecidableEq ι] {parties : List ι} {st st' : ι → Progress}

/-- Nobody gets more to do. -/
theorem mem_replace_advance {i j : ι} {t : Step} (ht : t ∈ (replace st i ((st i).advance d).2 j).pending) :
    t ∈ (st j).pending := by
  by_cases hji : j = i
  · subst hji
    rw [replace_self] at ht
    cases hp : (st j).pending with
    | nil => rwa [Progress.advance_done hp, hp] at ht
    | cons s rest => exact List.mem_cons_of_mem _ (Progress.mem_advance hp ht)
  · rwa [replace_ne hji] at ht

namespace Interleaves

theorem kept (h : Interleaves parties d st d' st') :
    (∀ i ∈ parties, ∀ s ∈ (st i).pending, ∀ d, P d → P (s.take d).1) → P d → P d' := by
  induction h with
  | done _ => exact fun _ hd => hd
  | @step d _ st _ i hi hne _ ih =>
    intro hstep hd
    obtain ⟨s, rest, hp⟩ := List.exists_cons_of_ne_nil hne
    refine ih (fun j hj t ht => hstep j hj t (mem_replace_advance ht)) ?_
    rw [Progress.advance_disk hp]
    exact hstep i hi s (by rw [hp]; exact List.mem_cons_self) d hd

/-! ## What one step brings about -/

/-- What a step brings about when it succeeds, and what all steps keep, holds at the end. -/
theorem established {i : ι} {s : Step} (h : Interleaves parties d st d' st') (hs : ∀ d, (s.take d).2 = none → P (s.take d).1) :
    (∀ j ∈ parties, ∀ t ∈ (st j).pending, ∀ d, P d → P (t.take d).1) → s ∈ (st i).pending → i ∈ parties →
      (st' i).failure = none → P d' := by
  induction h with
  | done hp => exact fun _ hm hi _ => by rw [hp i hi] at hm; cases hm
  | @step d _ st st' j hj hne hrest ih =>
    intro hkept hm hi hf
    obtain ⟨t, rest, hp⟩ := List.exists_cons_of_ne_nil hne
    have hkept' := fun k hk u hu => hkept k hk u (mem_replace_advance (i := j) (d := d) hu)
    by_cases hij : i = j
    · subst hij
      cases ht : (t.take d).2 with
      | some f =>
        -- a party that has failed stays so
        rw [hrest.same (by rw [replace_self, Progress.advance_failed hp ht]), replace_self, Progress.advance_failed hp ht] at hf
        cases hf
      | none =>
        rw [hp] at hm
        rcases List.mem_cons.1 hm with rfl | hm
        · refine hrest.kept hkept' ?_
          rw [Progress.advance_disk hp]
          exact hs d ht
        · exact ih hkept' (by rw [replace_self, Progress.advance_ok hp ht]; exact hm) hi hf
    · exact ih hkept' (by rwa [replace_ne hij]) hi hf

/-- A party does not fail as long as something holds with which its steps succeed. -/
theorem succeeds {i : ι} (h : Interleaves parties d st d' st') :
    (∀ j ∈ parties, ∀ t ∈ (st j).pending, ∀ d, P d → P (t.take d).1) →
      (∀ t ∈ (st i).pending, ∀ d, P d → (t.take d).2 = none) → P d → (st i).failure = none → (st' i).failure = none := by
  induction h with
  | done _ => exact fun _ _ _ hf => hf
  | @step d _ st st' j hj hne _ ih =>
    intro hkept hok hd hf
    obtain ⟨t, rest, hp⟩ := List.exists_cons_of_ne_nil hne
    have hmem : t ∈ (st j).pending := by rw [hp]; exact List.mem_cons_self
    refine ih (fun k hk u hu => hkept k hk u (mem_replace_advance hu)) (fun u hu => hok u (mem_replace_advance hu)) ?_ ?_
    · rw [Progress.advance_disk hp]
      exact hkept j hj t hmem d hd
    · by_cases hij : i = j
      · subst hij
        rw [replace_self, Progress.advance_ok hp (hok t hmem d hd)]
        exact hf
      · rwa [replace_ne hij]

end Interleaves
end Parties

/-! ## Files that are written again -/

/-- A file stays a file, and the way to it stays open. -/
theorem Step.take_held {path : String} (h : Held d path) (s : Step) : Held (s.take d).1 path :=
  ⟨fun d' hk => h.reaches d' ((take_keeps d s).trans hk), take_file (.inr h.file)⟩

/-- Writing one text to a file leaves it there or brings it there. -/
theorem Step.take_write_stands {path content : String} (h : Stands d path content) :
    Stands ((writeFile path content).take d).1 path content := by
  rw [take]
  cases hw : d.write path content with
  | error e => exact h
  | ok d' => exact Disk.write_stands hw

namespace Artifact

variable {a : Artifact} {s : Step}

theorem mem_steps_iff : s ∈ a.steps ↔ s = .makeDirectories a.destination.directory ∨ s = .writeFile a.path a.content := by
  simp [steps]

/-- A file that is there can be written again, whatever is in it. -/
theorem take_held (h : Held d a.path) (hn : IsName a.destination.filename) (hs : s ∈ a.steps) : (s.take d).2 = none := by
  rcases mem_steps_iff.1 hs with rfl | rfl
  · rw [Step.take, Held.makeDirectories h hn]
    rfl
  · obtain ⟨d', hw⟩ := h.write a.content
    rw [Step.take, hw]

/-- A file that has its content already is left as it is. -/
theorem take_stands (h : Stands d a.path a.content) (hn : IsName a.destination.filename) (hs : s ∈ a.steps) :
    Same d (s.take d).1 := by
  rcases mem_steps_iff.1 hs with rfl | rfl
  · rw [Step.take, Held.makeDirectories h.held hn]
    exact .refl d
  · obtain ⟨d', hw, hsame⟩ := h.write_same
    rw [Step.take, hw]
    exact hsame

end Artifact
end GraphqlCodegen
