import GraphqlCodegen.Proofs.Generator.Steps

/-!
# Logs of what was written

Parties that write side by side leave a log: the files that their steps created or overwrote, in order, each
with the party that did it (`Logs`). A log says all that has happened to files (`Logs.changed`, `Logs.stands`),
and what a party itself has kept account of is what the log has of it (`Logs.written`).

A party that has finished is behind all its steps, or at one that failed (`Reached`). One that writes files
one after the other and fails has written those in front of a file that it has not written
(`Reached.files`).
-/

namespace GraphqlCodegen

open Disk (placeOf)

/-! ## One step -/

namespace Step

/-- The place of the file that a step creates or overwrites. -/
def file? (d : Disk) : Step → Option Disk.Place
  | .makeDirectories _ => none
  | .writeFile path content => (d.write path content).toOption.map fun _ => placeOf path

variable {d : Disk} {s : Step} {place : Disk.Place}

theorem file?_ok (h : (s.take d).2 = none) : (s.file? d).toList = s.completed.map placeOf := by
  cases s with
  | makeDirectories path => rfl
  | writeFile path content =>
    rw [take] at h
    rw [file?]
    cases hw : d.write path content with
    | error e => rw [hw] at h; cases h
    | ok d' => rfl

theorem file?_failed {f : Failure} (h : (s.take d).2 = some f) : s.file? d = none := by
  cases s with
  | makeDirectories path => rfl
  | writeFile path content =>
    rw [take] at h
    rw [file?]
    cases hw : d.write path content with
    | error e => rfl
    | ok d' => rw [hw] at h; cases h

theorem file?_target (h : s.file? d = some place) : s.target = some place := by
  cases s with
  | makeDirectories path => cases h
  | writeFile path content =>
    obtain ⟨_, -, rfl⟩ := Option.map_eq_some_iff.1 h
    rfl

/-- A file that stands after a step stood there before, or the step has written it. -/
theorem take_changed {c : ByteArray} (h : (s.take d).1.get? place = some (.file c)) :
    d.get? place = some (.file c) ∨ s.file? d = some place := by
  cases s with
  | makeDirectories path =>
    exact .inl ((Disk.makeDirectories_opens d path).file_iff.1 h)
  | writeFile path content =>
    rw [take] at h
    rw [file?]
    cases hw : d.write path content with
    | error e => rw [hw] at h; exact .inl h
    | ok d' =>
      rw [hw] at h
      obtain ⟨-, -, hg⟩ := Disk.write_ok hw
      simp only [hg] at h
      split at h
      · rename_i hp; exact .inr (by rw [hp]; rfl)
      · exact .inl h

/-- Files stay files, whatever is written to them. -/
theorem take_file (h : s.file? d = some place ∨ ∃ c, d.get? place = some (.file c)) :
    ∃ c, (s.take d).1.get? place = some (.file c) := by
  cases s with
  | makeDirectories path =>
    rcases h with h | ⟨c, hc⟩
    · cases h
    · exact ⟨c, (Disk.makeDirectories_opens d path).file hc⟩
  | writeFile path content =>
    rw [take]
    rw [file?] at h
    cases hw : d.write path content with
    | error e =>
      rw [hw] at h
      rcases h with h | h
      · cases h
      · exact h
    | ok d' =>
      rw [hw] at h
      obtain ⟨-, -, hg⟩ := Disk.write_ok hw
      simp only [hg]
      split
      · exact ⟨_, rfl⟩
      · rename_i hp
        rcases h with h | h
        · cases h; exact absurd rfl hp
        · exact h

end Step

namespace Progress

variable {d : Disk} {p : Progress} {s : Step} {rest : List Step}

/-- A party keeps account of the files that it writes. -/
theorem advance_written (h : p.pending = s :: rest) :
    (p.advance d).2.written.map placeOf = p.written.map placeOf ++ (s.file? d).toList := by
  cases hs : (s.take d).2 with
  | none => rw [advance_ok h hs, Step.file?_ok hs, List.map_append]
  | some f => rw [advance_failed h hs, Step.file?_failed hs]; simp

theorem mem_advance (h : p.pending = s :: rest) {x : Step} (hx : x ∈ (p.advance d).2.pending) : x ∈ rest := by
  cases hs : (s.take d).2 with
  | none => rw [advance_ok h hs] at hx; exact hx
  | some f => rw [advance_failed h hs] at hx; cases hx

/-- A party that writes nothing to a place changes no file there. -/
theorem finishWithin_changed {place : Disk.Place} {c : ByteArray} : ∀ (n : Nat) {d : Disk} {p : Progress},
    (∀ s ∈ p.pending, s.target ≠ some place) → (finishWithin n d p).1.get? place = some (.file c) →
      d.get? place = some (.file c)
  | 0, _, _, _, h => h
  | n + 1, d, p, ht, h => by
    cases hp : p.pending with
    | nil => rw [finishWithin_done hp] at h; exact h
    | cons s rest =>
      rw [hp] at ht
      rw [finishWithin] at h
      have hn : (p.advance d).1.get? place = some (.file c) :=
        finishWithin_changed n (fun x hx => ht x (List.mem_cons_of_mem _ (mem_advance hp hx))) h
      rw [advance_disk hp] at hn
      rcases Step.take_changed hn with hd | hf
      · exact hd
      · exact absurd (Step.file?_target hf) (ht s List.mem_cons_self)

theorem mem_finishWithin : ∀ (n : Nat) {d : Disk} {p : Progress} {x : Step}, x ∈ (finishWithin n d p).2.pending → x ∈ p.pending
  | 0, _, _, _, h => h
  | n + 1, d, p, x, h => by
    cases hp : p.pending with
    | nil => rw [finishWithin_done hp, hp] at h; exact h
    | cons s rest =>
      rw [finishWithin] at h
      exact List.mem_cons_of_mem _ (mem_advance hp (mem_finishWithin n h))

end Progress

/-! ## Several parties -/

variable {ι : Type} [DecidableEq ι]

/-- The parties have finished, and the log lists the files that their steps created or overwrote. -/
inductive Logs (parties : List ι) : Disk → (ι → Progress) → List (ι × Disk.Place) → Disk → (ι → Progress) → Prop
  | done {d : Disk} {st : ι → Progress} : (∀ i ∈ parties, (st i).pending = []) → Logs parties d st [] d st
  | step {d d' : Disk} {st st' : ι → Progress} {log : List (ι × Disk.Place)} {s : Step} {rest : List Step} (i : ι) :
    i ∈ parties → (st i).pending = s :: rest →
      Logs parties ((st i).advance d).1 (replace st i ((st i).advance d).2) log d' st' →
        Logs parties d st ((s.file? d).toList.map (i, ·) ++ log) d' st'

/-- The places that a log has of a party. -/
def placesOf (i : ι) (log : List (ι × Disk.Place)) : List Disk.Place := (log.filter (·.1 = i)).map Prod.snd

variable {parties : List ι} {d d' : Disk} {st st' : ι → Progress} {log : List (ι × Disk.Place)} {i : ι} {place : Disk.Place}

@[simp] theorem mem_placesOf : place ∈ placesOf i log ↔ (i, place) ∈ log := by
  simp [placesOf]

theorem placesOf_append (i : ι) (log log' : List (ι × Disk.Place)) :
    placesOf i (log ++ log') = placesOf i log ++ placesOf i log' := by
  simp [placesOf]

theorem placesOf_self (i : ι) (places : List Disk.Place) : placesOf i (places.map (i, ·)) = places := by
  induction places with
  | nil => rfl
  | cons x xs ih => simpa [placesOf] using ih

theorem placesOf_other {j : ι} (h : i ≠ j) (places : List Disk.Place) : placesOf i (places.map (j, ·)) = [] := by
  simp only [placesOf, List.map_eq_nil_iff, List.filter_eq_nil_iff, List.mem_map]
  rintro _ ⟨x, -, rfl⟩
  simpa using h.symm

/-- Every interleaving leaves a log. -/
theorem Interleaves.logs (h : Interleaves parties d st d' st') : ∃ log, Logs parties d st log d' st' := by
  induction h with
  | done hp => exact ⟨[], .done hp⟩
  | step i hi hne _ ih =>
    obtain ⟨log, hlog⟩ := ih
    obtain ⟨s, rest, hp⟩ := List.exists_cons_of_ne_nil hne
    exact ⟨_, .step i hi hp hlog⟩

namespace Logs

theorem interleaves (h : Logs parties d st log d' st') : Interleaves parties d st d' st' := by
  induction h with
  | done hp => exact .done hp
  | step i hi hp _ ih => exact .step i hi (by rw [hp]; simp) ih

/-- What a party has kept account of is what the log has of it. -/
theorem written (h : Logs parties d st log d' st') (i : ι) :
    (st' i).written.map placeOf = (st i).written.map placeOf ++ placesOf i log := by
  induction h with
  | done hp => simp [placesOf]
  | @step d _ st _ _ s _ j hj hp _ ih =>
    rw [ih, placesOf_append]
    by_cases hij : i = j
    · subst hij
      rw [replace_self, Progress.advance_written hp, placesOf_self, List.append_assoc]
    · rw [replace_ne hij, placesOf_other hij, List.nil_append]

/-- A file that stands at the end stood there before, or it is in the log. -/
theorem changed {c : ByteArray} (h : Logs parties d st log d' st') : d'.get? place = some (.file c) →
    d.get? place = some (.file c) ∨ ∃ i, (i, place) ∈ log := by
  induction h with
  | done _ => exact fun hc => .inl hc
  | @step d _ st _ log s _ j hj hp _ ih =>
    intro hc
    rcases ih hc with hd | ⟨i, hi⟩
    · rw [Progress.advance_disk hp] at hd
      rcases Step.take_changed hd with hd | hf
      · exact .inl hd
      · exact .inr ⟨j, by simp [hf]⟩
    · exact .inr ⟨i, List.mem_append_right _ hi⟩

/-- What is in the log is a file at the end. -/
theorem stands (h : Logs parties d st log d' st') : ((∃ i, (i, place) ∈ log) ∨ ∃ c, d.get? place = some (.file c)) →
    ∃ c, d'.get? place = some (.file c) := by
  induction h with
  | done _ => simp
  | @step d _ st _ log s _ j hj hp _ ih =>
    intro hs
    apply ih
    rw [Progress.advance_disk hp]
    rcases hs with ⟨i, hi⟩ | hc
    · rcases List.mem_append.1 hi with hi | hi
      · obtain ⟨x, hx, he⟩ := List.mem_map.1 hi
        obtain ⟨-, rfl⟩ := Prod.mk.inj he
        exact .inr (Step.take_file (.inl (Option.mem_toList.1 hx)))
      · exact .inl ⟨i, hi⟩
    · exact .inr (Step.take_file (.inr hc))

/-- What is in the log of a party is the target of one of its steps. -/
theorem target (h : Logs parties d st log d' st') : (i, place) ∈ log → i ∈ parties ∧ ∃ s ∈ (st i).pending, s.target = some place := by
  induction h with
  | done _ => simp
  | @step d _ st _ log s rest j hj hp _ ih =>
    intro hi
    rcases List.mem_append.1 hi with hi | hi
    · obtain ⟨x, hx, he⟩ := List.mem_map.1 hi
      obtain ⟨rfl, rfl⟩ := Prod.mk.inj he
      exact ⟨hj, s, by rw [hp]; simp, Step.file?_target (Option.mem_toList.1 hx)⟩
    · obtain ⟨hi, x, hx, ht⟩ := ih hi
      refine ⟨hi, x, ?_, ht⟩
      by_cases hij : i = j
      · subst hij
        rw [replace_self] at hx
        rw [hp]
        exact List.mem_cons_of_mem _ (Progress.mem_advance hp hx)
      · rwa [replace_ne hij] at hx

end Logs

/-! ## Parties that fail -/

/-- How far a party is that began as `p₀`: behind all the steps that it has taken, or at one that failed. -/
inductive Reached (p₀ p : Progress) : Prop
  | behind (steps : List Step) : p.failure = p₀.failure → p₀.pending = steps ++ p.pending →
    p.written = p₀.written ++ steps.flatMap Step.completed → Reached p₀ p
  | failedAt (steps : List Step) (s : Step) (rest : List Step) : p.failure ≠ none → p.pending = [] →
    p₀.pending = steps ++ s :: rest → p.written = p₀.written ++ steps.flatMap Step.completed → Reached p₀ p

namespace Reached

variable {p₀ p : Progress} {s : Step} {rest : List Step}

theorem start (p : Progress) : Reached p p := .behind [] rfl rfl (by simp)

theorem advance (h : Reached p₀ p) (hp : p.pending = s :: rest) : Reached p₀ (p.advance d).2 := by
  cases h with
  | failedAt _ _ _ _ hnil _ _ => rw [hp] at hnil; cases hnil
  | behind steps hf h0 hw =>
    rw [hp] at h0
    cases hs : (s.take d).2 with
    | none =>
      rw [Progress.advance_ok hp hs]
      exact .behind (steps ++ [s]) hf (by simp [h0]) (by simp [hw])
    | some f =>
      rw [Progress.advance_failed hp hs]
      exact .failedAt steps s rest (by simp) rfl h0 hw

end Reached

/-- Every party of an interleaving has got somewhere. -/
theorem Interleaves.reached (h : Interleaves parties d st d' st') :
    ∀ i ∈ parties, Reached (st i) (st' i) ∧ (st' i).pending = [] := by
  have hinv := h.invariant (motive := fun _ st₁ => ∀ i, Reached (st i) (st₁ i)) ?_ fun i => Reached.start (st i)
  · exact fun i hi => ⟨hinv.1 i, hinv.2 i hi⟩
  · intro d st₁ i _ hne hr j
    obtain ⟨s, rest, hp⟩ := List.exists_cons_of_ne_nil hne
    by_cases hji : j = i
    · subst hji; rw [replace_self]; exact (hr j).advance hp
    · rw [replace_ne hji]; exact hr j

/-- The files that some steps of writing have completed stand in front of the one that is next. -/
theorem Artifact.completed_before {s : Step} : ∀ (as : List Artifact) {steps rest : List Step},
    as.flatMap Artifact.steps = steps ++ s :: rest →
      ∃ front a back, as = front ++ a :: back ∧ steps.flatMap Step.completed = front.map Artifact.path
  | [], steps, _, h => by simp at h
  | a :: as, [], _, _ => ⟨[], a, as, rfl, rfl⟩
  | a :: as, [_], _, h => by
    simp only [List.flatMap_cons, Artifact.steps, List.cons_append, List.nil_append, List.cons.injEq] at h
    exact ⟨[], a, as, rfl, by rw [← h.1]; rfl⟩
  | a :: as, _ :: _ :: steps, rest, h => by
    simp only [List.flatMap_cons, Artifact.steps, List.cons_append, List.nil_append, List.cons.injEq] at h
    obtain ⟨rfl, rfl, h⟩ := h
    obtain ⟨front, b, back, rfl, hc⟩ := completed_before as h
    exact ⟨a :: front, b, back, rfl, congrArg (a.path :: ·) hc⟩

/-- A party that has written its files without a failure has written all of them, and one that has failed
those in front of one that it has not written. -/
theorem Reached.files {as : List Artifact} {p : Progress} (h : Reached (Progress.start as) p) (hp : p.pending = []) :
    p.failure = none ∧ p.written = as.map Artifact.path ∨
      p.failure ≠ none ∧ ∃ front a back, as = front ++ a :: back ∧ p.written = front.map Artifact.path := by
  cases h with
  | behind steps hf h0 hw =>
    rw [hp, List.append_nil] at h0
    refine .inl ⟨hf, ?_⟩
    rw [hw, ← h0]
    exact Artifact.completed_steps as
  | failedAt steps s rest hf _ h0 hw =>
    obtain ⟨front, a, back, has, hc⟩ := Artifact.completed_before as h0
    exact .inr ⟨hf, front, a, back, has, by rw [hw, hc]; rfl⟩

end GraphqlCodegen
