import GraphqlCodegen.Proofs.Disk.Walking
import GraphqlCodegen.Run

/-!
# Writing side by side

Several parties write on one disk. Each takes its own steps in their order and stops at the first one
that fails; which party takes the next step is left open (`Interleaves`). Letting one party finish
after the other is one way to do so (`interleaves_finishAll`).

Whatever the order, a file that a party has written is there at the end with its content, if no other
step writes to its place (`Interleaves.stands`).
-/

namespace GraphqlCodegen

open Disk (Keeps Opens Stands placeOf)

/-! ## One step -/

namespace Step

/-- The place that a step writes a file to. -/
def target : Step → Option Disk.Place
  | .makeDirectories _ => none
  | .writeFile path _ => some (placeOf path)

theorem take_keeps (d : Disk) (s : Step) : Keeps d (s.take d).1 := by
  cases s with
  | makeDirectories path => exact (Disk.makeDirectories_opens d path).keeps
  | writeFile path content =>
    rw [take]
    cases h : d.write path content with
    | error e => exact Keeps.refl d
    | ok d' => exact Disk.write_keeps h

theorem take_other {d : Disk} {s : Step} {place : Disk.Place} {c : ByteArray} (hs : s.target ≠ some place)
    (hf : d.get? place = some (.file c)) : (s.take d).1.get? place = some (.file c) := by
  cases s with
  | makeDirectories path => exact (Disk.makeDirectories_opens d path).file hf
  | writeFile path content =>
    rw [take]
    cases h : d.write path content with
    | error e => exact hf
    | ok d' =>
      obtain ⟨-, -, hg⟩ := Disk.write_ok h
      have hne : place ≠ placeOf path := fun he => hs (by rw [target, he])
      simp only [hg, if_neg hne, hf]

theorem take_stands {d : Disk} {path content : String} (h : ((writeFile path content).take d).2 = none) :
    Stands ((writeFile path content).take d).1 path content := by
  rw [take] at h ⊢
  cases hw : d.write path content with
  | error e => rw [hw] at h; cases h
  | ok d' => exact Disk.write_stands hw

theorem take_other_stands {d : Disk} {s : Step} {path content : String} (hs : s.target ≠ some (placeOf path))
    (h : Stands d path content) : Stands (s.take d).1 path content :=
  h.mono (take_keeps d s) ((take_other hs h.file).trans h.file.symm)

end Step

namespace Progress

theorem advance_done {d : Disk} {p : Progress} (h : p.pending = []) : p.advance d = (d, p) := by
  rw [advance, h]

theorem advance_ok {d : Disk} {p : Progress} {s : Step} {rest : List Step} (h : p.pending = s :: rest)
    (hs : (s.take d).2 = none) :
    p.advance d = ((s.take d).1, ⟨rest, p.written ++ s.completed, p.failure⟩) := by
  rw [advance, h]
  simp only
  cases ht : s.take d with
  | mk d' failure => rw [ht] at hs; cases hs; rfl

theorem advance_failed {d : Disk} {p : Progress} {s : Step} {rest : List Step} {f : Failure} (h : p.pending = s :: rest)
    (hs : (s.take d).2 = some f) : p.advance d = ((s.take d).1, ⟨[], p.written, some f⟩) := by
  rw [advance, h]
  simp only
  cases ht : s.take d with
  | mk d' failure => rw [ht] at hs; cases hs; rfl

theorem advance_disk {d : Disk} {p : Progress} {s : Step} {rest : List Step} (h : p.pending = s :: rest) :
    (p.advance d).1 = (s.take d).1 := by
  cases hs : (s.take d).2 with
  | none => rw [advance_ok h hs]
  | some f => rw [advance_failed h hs]

theorem advance_pending {d : Disk} {p : Progress} {s : Step} {rest : List Step} (h : p.pending = s :: rest) :
    (p.advance d).2.pending.length ≤ rest.length := by
  cases hs : (s.take d).2 with
  | none => simp [advance_ok h hs]
  | some f => simp [advance_failed h hs]

theorem finishWithin_done {d : Disk} {p : Progress} (h : p.pending = []) (n : Nat) : finishWithin n d p = (d, p) := by
  induction n with
  | zero => rfl
  | succ n ih => rw [finishWithin, advance_done h]; exact ih

theorem finishWithin_eq : ∀ {m n : Nat} {d : Disk} {p : Progress}, p.pending.length ≤ m → p.pending.length ≤ n →
    finishWithin m d p = finishWithin n d p
  | m, n, d, p, hm, hn => by
    cases hp : p.pending with
    | nil => rw [finishWithin_done hp, finishWithin_done hp]
    | cons s rest =>
      rw [hp, List.length_cons] at hm hn
      obtain ⟨m, rfl⟩ : ∃ k, m = k + 1 := ⟨m - 1, by omega⟩
      obtain ⟨n, rfl⟩ : ∃ k, n = k + 1 := ⟨n - 1, by omega⟩
      have hle := @advance_pending d p s rest hp
      rw [finishWithin, finishWithin]
      exact finishWithin_eq (Nat.le_trans hle (by omega)) (Nat.le_trans hle (by omega))

theorem finish_done {d : Disk} {p : Progress} (h : p.pending = []) : p.finish d = (d, p) := finishWithin_done h _

theorem finish_advance {d : Disk} {p : Progress} (h : p.pending ≠ []) :
    p.finish d = (p.advance d).2.finish (p.advance d).1 := by
  cases hp : p.pending with
  | nil => exact absurd hp h
  | cons s rest =>
    have hle := @advance_pending d p s rest hp
    rw [finish, hp, List.length_cons, finishWithin]
    exact finishWithin_eq hle (Nat.le_refl _)

theorem finish_ok {d : Disk} {p : Progress} {s : Step} {rest : List Step} (h : p.pending = s :: rest)
    (hs : (s.take d).2 = none) :
    p.finish d = (⟨rest, p.written ++ s.completed, p.failure⟩ : Progress).finish (s.take d).1 := by
  rw [finish_advance (by rw [h]; simp), advance_ok h hs]

theorem finish_failed {d : Disk} {p : Progress} {s : Step} {rest : List Step} {f : Failure} (h : p.pending = s :: rest)
    (hs : (s.take d).2 = some f) : p.finish d = ((s.take d).1, ⟨[], p.written, some f⟩) := by
  rw [finish_advance (by rw [h]; simp), advance_failed h hs, finish_done rfl]

/-- What holds of a party and is kept by its steps holds when it has finished. -/
theorem finish_induction {motive : Disk → Progress → Prop}
    (hstep : ∀ d p, p.pending ≠ [] → motive d p → motive (p.advance d).1 (p.advance d).2) :
    ∀ (n : Nat) {d : Disk} {p : Progress}, p.pending.length ≤ n → motive d p →
      motive (p.finish d).1 (p.finish d).2 ∧ (p.finish d).2.pending = []
  | n, d, p, hn, h => by
    cases hp : p.pending with
    | nil => rw [finish_done hp]; exact ⟨h, hp⟩
    | cons s rest =>
      rw [hp, List.length_cons] at hn
      obtain ⟨n, rfl⟩ : ∃ k, n = k + 1 := ⟨n - 1, by omega⟩
      have hne : p.pending ≠ [] := by rw [hp]; simp
      have hle := @advance_pending d p s rest hp
      rw [finish_advance hne]
      exact finish_induction hstep n (by omega) (hstep d p hne h)

theorem finish_pending (d : Disk) (p : Progress) : (p.finish d).2.pending = [] :=
  (finish_induction (motive := fun _ _ => True) (fun _ _ _ _ => trivial) _ (Nat.le_refl _) trivial).2

end Progress

/-! ## Several parties -/

variable {ι : Type} [DecidableEq ι]

/-- What the parties have, after it has changed for one of them. -/
def replace {α : Type} (st : ι → α) (i : ι) (p : α) : ι → α := fun j => if j = i then p else st j

theorem replace_self {α : Type} (st : ι → α) (i : ι) (p : α) : replace st i p i = p := if_pos rfl

theorem replace_ne {α : Type} {st : ι → α} {i j : ι} {p : α} (h : j ≠ i) : replace st i p j = st j := if_neg h

/-- The parties have finished, each having taken its own steps in their order. -/
inductive Interleaves (parties : List ι) : Disk → (ι → Progress) → Disk → (ι → Progress) → Prop
  | done {d : Disk} {st : ι → Progress} : (∀ i ∈ parties, (st i).pending = []) → Interleaves parties d st d st
  | step {d d' : Disk} {st st' : ι → Progress} (i : ι) : i ∈ parties → (st i).pending ≠ [] →
    Interleaves parties ((st i).advance d).1 (replace st i ((st i).advance d).2) d' st' → Interleaves parties d st d' st'

namespace Interleaves

variable {parties : List ι} {d d' : Disk} {st st' : ι → Progress}

/-- What holds at the beginning and is kept by each step holds at the end. -/
theorem invariant {motive : Disk → (ι → Progress) → Prop}
    (hstep : ∀ d st i, i ∈ parties → (st i).pending ≠ [] → motive d st →
      motive ((st i).advance d).1 (replace st i ((st i).advance d).2))
    (h : Interleaves parties d st d' st') : motive d st → motive d' st' ∧ ∀ i ∈ parties, (st' i).pending = [] := by
  induction h with
  | done hp => exact fun hm => ⟨hm, hp⟩
  | step i hi hne _ ih => exact fun hm => ih (hstep _ _ i hi hne hm)

/-- A party that has finished stays as it is. -/
theorem same {i : ι} (h : Interleaves parties d st d' st') : (st i).pending = [] → st' i = st i := by
  induction h with
  | done _ => exact fun _ => rfl
  | @step d _ st _ j _ hne _ ih =>
    intro hp
    have hij : i ≠ j := by
      rintro rfl
      exact hne hp
    rw [replace_ne hij] at ih
    exact ih hp

/-- One party may finish before the others go on. -/
theorem of_finish {i : ι} (hi : i ∈ parties) : ∀ (n : Nat) {d : Disk} {st : ι → Progress}, (st i).pending.length ≤ n →
    Interleaves parties ((st i).finish d).1 (replace st i ((st i).finish d).2) d' st' → Interleaves parties d st d' st'
  | n, d, st, hn, h => by
    cases hp : (st i).pending with
    | nil =>
      rw [Progress.finish_done hp] at h
      have hst : replace st i (st i) = st := by
        funext j
        by_cases hj : j = i
        · rw [hj, replace_self]
        · rw [replace_ne hj]
      rwa [hst] at h
    | cons s rest =>
      rw [hp, List.length_cons] at hn
      obtain ⟨n, rfl⟩ : ∃ k, n = k + 1 := ⟨n - 1, by omega⟩
      have hne : (st i).pending ≠ [] := by rw [hp]; simp
      have hle := @Progress.advance_pending d (st i) s rest hp
      have hrr : ∀ p q : Progress, replace (replace st i p) i q = replace st i q := by
        intro p q
        funext j
        by_cases hj : j = i
        · rw [hj, replace_self, replace_self]
        · rw [replace_ne hj, replace_ne hj, replace_ne hj]
      refine .step i hi hne (of_finish hi n (by rw [replace_self]; omega) ?_)
      rw [replace_self, hrr, ← Progress.finish_advance hne]
      exact h

/-- Letting one party finish after the other is one way to let all of them write. -/
theorem of_finishAll : ∀ {is : List ι} {d : Disk} {st : ι → Progress}, (∀ i ∈ is, i ∈ parties) → is.Nodup →
    (∀ i ∈ parties, i ∉ is → (st i).pending = []) →
      ∃ st', Interleaves parties d st (finishAll d (is.map st)).1 st' ∧ is.map st' = (finishAll d (is.map st)).2 ∧
        ∀ i, i ∉ is → st' i = st i
  | [], d, st, _, _, hdone => ⟨st, .done fun i hi => hdone i hi (by simp), rfl, fun _ _ => rfl⟩
  | i :: is, d, st, hsub, hnd, hdone => by
    obtain ⟨hni, hnd⟩ := List.nodup_cons.1 hnd
    have hmap : is.map (replace st i ((st i).finish d).2) = is.map st := by
      refine List.map_congr_left fun j hj => replace_ne ?_
      rintro rfl
      exact hni hj
    have hpend := Progress.finish_pending d (st i)
    have hdone' : ∀ j ∈ parties, j ∉ is → (replace st i ((st i).finish d).2 j).pending = [] := by
      intro j hj hjs
      by_cases hji : j = i
      · rw [hji, replace_self]; exact hpend
      · rw [replace_ne hji]
        exact hdone j hj (by simp [hji, hjs])
    obtain ⟨st', hrun, hres, hsame⟩ := @of_finishAll is ((st i).finish d).1 _ (fun j hj => hsub j (by simp [hj])) hnd hdone'
    rw [hmap] at hrun hres
    refine ⟨st', of_finish (hsub i (by simp)) _ (Nat.le_refl _) hrun, ?_, fun j hj => ?_⟩
    · simp only [List.map_cons, finishAll, hres]
      rw [hsame i hni, replace_self]
    · simp only [List.mem_cons, not_or] at hj
      rw [hsame j hj.2, replace_ne hj.1]

/-- One party may write after another one and before all others. -/
theorem exists_second {g h : ι} (hg : g ∈ parties) (hh : h ∈ parties) (hne : g ≠ h) (hnd : parties.Nodup) (d : Disk)
    (st : ι → Progress) :
    ∃ d' st', Interleaves parties d st d' st' ∧ st' g = ((st g).finish ((st h).finish d).1).2 := by
  let d₁ := ((st h).finish d).1
  let st₁ := replace st h ((st h).finish d).2
  have hg₁ : st₁ g = st g := replace_ne hne
  let st₂ := replace st₁ g ((st₁ g).finish d₁).2
  have hg₂ : st₂ g = ((st g).finish d₁).2 := (replace_self _ _ _).trans (by rw [hg₁])
  obtain ⟨st', hrun, -, -⟩ := @of_finishAll ι _ parties parties ((st₁ g).finish d₁).1 st₂ (fun _ hi => hi) hnd
    fun i hi hni => absurd hi hni
  refine ⟨_, st', of_finish hh _ (Nat.le_refl _) (of_finish hg _ (Nat.le_refl _) hrun), ?_⟩
  rw [hrun.same (by rw [hg₂]; exact Progress.finish_pending _ _), hg₂]

end Interleaves

/-! ## Files that stay -/

/-- How far a party is that began as `p₀`: it has failed, or all the steps it has taken succeeded and the
files it wrote stand. -/
structure Sound (d : Disk) (p₀ p : Progress) : Prop where
  stopped : p.failure ≠ none → p.pending = []
  taken : p.failure = none → p₀.failure = none ∧ ∃ steps, p₀.pending = steps ++ p.pending ∧
    p.written = p₀.written ++ steps.flatMap Step.completed ∧
      ∀ path content, .writeFile path content ∈ steps → Stands d path content

/-- No two steps of the parties write to one place. -/
structure Apart (parties : List ι) (st : ι → Progress) : Prop where
  own : ∀ i ∈ parties, ((st i).pending.filterMap Step.target).Nodup
  others : ∀ i ∈ parties, ∀ j ∈ parties, i ≠ j → ∀ s ∈ (st i).pending, ∀ t ∈ (st j).pending,
    ∀ place, s.target = some place → t.target ≠ some place

theorem Sound.start {d : Disk} {p : Progress} (h : p.failure ≠ none → p.pending = []) : Sound d p p :=
  ⟨h, fun hf => ⟨hf, [], rfl, by simp, by simp⟩⟩

theorem Sound.other {d : Disk} {p₀ p : Progress} {s : Step} (h : Sound d p₀ p)
    (hs : ∀ t ∈ p₀.pending, ∀ place, t.target = some place → s.target ≠ some place) : Sound (s.take d).1 p₀ p := by
  refine ⟨h.stopped, fun hf => ?_⟩
  obtain ⟨h0, steps, hp, hw, hst⟩ := h.taken hf
  refine ⟨h0, steps, hp, hw, fun path content hm => Step.take_other_stands ?_ (hst path content hm)⟩
  exact hs _ (by rw [hp]; exact List.mem_append_left _ hm) _ rfl

theorem Sound.advance {d : Disk} {p₀ p : Progress} (h : Sound d p₀ p) (hne : p.pending ≠ [])
    (hnd : (p₀.pending.filterMap Step.target).Nodup) :
    ∃ s ∈ p₀.pending, (p.advance d).1 = (s.take d).1 ∧ Sound (p.advance d).1 p₀ (p.advance d).2 := by
  have hf : p.failure = none := Decidable.byContradiction fun hf => hne (h.stopped hf)
  obtain ⟨h0, steps, hp, hw, hst⟩ := h.taken hf
  cases hpend : p.pending with
  | nil => exact absurd hpend hne
  | cons s rest =>
    rw [hpend] at hp
    refine ⟨s, by rw [hp]; simp, ?_⟩
    cases hs : (s.take d).2 with
    | some f =>
      rw [Progress.advance_failed hpend hs]
      exact ⟨rfl, fun _ => rfl, fun hc => by cases hc⟩
    | none =>
      rw [Progress.advance_ok hpend hs]
      refine ⟨rfl, fun hc => absurd hf hc, fun _ => ⟨h0, steps ++ [s], by simp [hp], by simp [hw], fun path content hm => ?_⟩⟩
      rcases List.mem_append.1 hm with hm | hm
      · refine Step.take_other_stands (fun ht => ?_) (hst path content hm)
        rw [hp, List.filterMap_append, List.nodup_append] at hnd
        have h1 : placeOf path ∈ steps.filterMap Step.target := List.mem_filterMap.2 ⟨_, hm, rfl⟩
        have h2 : placeOf path ∈ (s :: rest).filterMap Step.target := List.mem_filterMap.2 ⟨s, by simp, ht⟩
        exact hnd.2.2 _ h1 _ h2 rfl
      · rw [List.mem_singleton] at hm
        subst hm
        exact Step.take_stands hs

theorem Sound.finishWithin {p₀ : Progress} (hnd : (p₀.pending.filterMap Step.target).Nodup) : ∀ (n : Nat) {d : Disk}
    {p : Progress}, Sound d p₀ p → Sound (Progress.finishWithin n d p).1 p₀ (Progress.finishWithin n d p).2
  | 0, _, _, h => h
  | n + 1, d, p, h => by
    by_cases hne : p.pending = []
    · rw [Progress.finishWithin_done hne]; exact h
    · obtain ⟨s, -, -, hs⟩ := h.advance hne hnd
      exact Sound.finishWithin hnd n hs

theorem Sound.mem_pending {d : Disk} {p₀ p : Progress} (h : Sound d p₀ p) {s : Step} (hs : s ∈ p.pending) : s ∈ p₀.pending := by
  by_cases hf : p.failure = none
  · obtain ⟨-, steps, hp, -, -⟩ := h.taken hf
    rw [hp]
    exact List.mem_append_right _ hs
  · rw [h.stopped hf] at hs; cases hs

theorem Sound.targets_nodup {d : Disk} {p₀ p : Progress} (h : Sound d p₀ p)
    (hnd : (p₀.pending.filterMap Step.target).Nodup) : (p.pending.filterMap Step.target).Nodup := by
  by_cases hf : p.failure = none
  · obtain ⟨-, steps, hp, -, -⟩ := h.taken hf
    rw [hp, List.filterMap_append, List.nodup_append] at hnd
    exact hnd.2.1
  · rw [h.stopped hf]; exact List.nodup_nil

/-- Parties whose steps write to different places stay sound until they have finished. -/
theorem Interleaves.sound {parties : List ι} {d d' : Disk} {st₀ st st' : ι → Progress} (h : Interleaves parties d st d' st')
    (hst : ∀ i ∈ parties, Sound d (st₀ i) (st i)) (hap : Apart parties st₀) :
    ∀ i ∈ parties, Sound d' (st₀ i) (st' i) ∧ (st' i).pending = [] := by
  have hinv := h.invariant (motive := fun d st₁ => ∀ i ∈ parties, Sound d (st₀ i) (st₁ i)) ?_ hst
  · exact fun i hi => ⟨hinv.1 i hi, hinv.2 i hi⟩
  · intro d st₁ i hi hne hsound j hj
    obtain ⟨s, hs, hd, hadv⟩ := (hsound i hi).advance hne (hap.own i hi)
    by_cases hji : j = i
    · subst hji; rw [replace_self]; exact hadv
    · rw [replace_ne hji, hd]
      exact (hsound j hj).other fun t ht place htp hsp => hap.others j hj i hi hji t ht s hs place htp hsp

/-- A sound party that has finished and not failed has taken all its steps, and every file that it wrote is there. -/
theorem Sound.finished {d : Disk} {p₀ p : Progress} (h : Sound d p₀ p) (hp : p.pending = []) (hf : p.failure = none) :
    p₀.failure = none ∧ p.written = p₀.written ++ p₀.pending.flatMap Step.completed ∧
      ∀ path content, .writeFile path content ∈ p₀.pending → Stands d path content := by
  obtain ⟨h0, steps, hsteps, hw, hs⟩ := h.taken hf
  rw [hp, List.append_nil] at hsteps
  rw [hsteps]
  exact ⟨h0, hw, hs⟩

/-- A party that has not failed has taken all its steps, and every file that it wrote is there. -/
theorem Interleaves.stands {parties : List ι} {d d' : Disk} {st st' : ι → Progress} (h : Interleaves parties d st d' st')
    (hst : ∀ i ∈ parties, (st i).failure ≠ none → (st i).pending = []) (hap : Apart parties st) :
    ∀ i ∈ parties, (st' i).failure = none → (st i).failure = none ∧
      (st' i).written = (st i).written ++ (st i).pending.flatMap Step.completed ∧
        ∀ path content, .writeFile path content ∈ (st i).pending → Stands d' path content := by
  intro i hi hf
  obtain ⟨hsound, hp⟩ := h.sound (fun i hi => Sound.start (hst i hi)) hap i hi
  exact hsound.finished hp hf

/-! ## Reports -/

theorem Report.written_ofResults (rs : List (Except Failure (List String))) :
    (ofResults rs).written = rs.flatMap fun r => r.toOption.getD [] := by
  induction rs with
  | nil => rfl
  | cons r rs ih => cases r <;> simp [ofResults, ih, Except.toOption]

/-- The failure of a result, if it is none of paths. -/
def failure? : Except Failure (List String) → Option Failure
  | .ok _ => none
  | .error f => some f

theorem Report.failures_ofResults (rs : List (Except Failure (List String))) :
    (ofResults rs).failures = rs.filterMap failure? := by
  induction rs with
  | nil => rfl
  | cons r rs ih => cases r <;> simp [ofResults, ih, failure?, List.filterMap_cons]

theorem Progress.failure?_result (p : Progress) : failure? p.result = p.failure := by
  rw [result]; cases p.failure <;> rfl

theorem Progress.result_ok {p : Progress} (h : p.failure = none) : p.result = .ok p.written := by
  rw [result, h]

end GraphqlCodegen
