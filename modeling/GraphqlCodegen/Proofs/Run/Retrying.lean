import GraphqlCodegen.Proofs.Disk.Refusal
import GraphqlCodegen.Proofs.Run.Saving

/-!
# Saving that is tried again

Saving the source takes two steps, and one that fails ends it. The settings go to a path whose directories could not be
created, or at which no file could be written with the directories there, and neither can be done later, whatever is written in
the meantime. So a run in which saving has failed leaves a disk on which another try changes nothing (`RunsSaving.futile`).
-/

namespace GraphqlCodegen

open Disk (Grows Keeps NamesFile)
open Settings (prepareSteps)

variable {d d' : Disk} {path text : String}

theorem Step.take_grows (d : Disk) (s : Step) : Grows d (s.take d).1 :=
  ⟨take_keeps d s, fun _ c hc => take_file (.inr ⟨c, hc⟩)⟩

/-- On this disk, and however it grows, saving to the path changes nothing. -/
def Futile (path : String) (d : Disk) : Prop :=
  ∀ d', Grows d d' → ∀ text, ∀ s ∈ prepareSteps path ++ [.writeFile path text], (s.take d').1 = d'

theorem Futile.grows (h : Futile path d) (hg : Grows d d') : Futile path d' := fun d₂ hg₂ => h d₂ (hg.trans hg₂)

/-- Nothing is left to create in front of the file of the settings. -/
structure Prepared (path : String) (d : Disk) : Prop where
  steps : ∀ d', Keeps d d' → ∀ s ∈ prepareSteps path, (s.take d').1 = d'
  entered : NamesFile path → ∃ dir, d.enter (Disk.startOf path) (Disk.namesOf path).dropLast = .ok dir

theorem Prepared.grows (h : Prepared path d) (hg : Grows d d') : Prepared path d' := by
  refine ⟨fun d₂ hk => h.steps d₂ (hg.keeps.trans hk), fun hn => ?_⟩
  obtain ⟨dir, he⟩ := h.entered hn
  exact ⟨dir, hg.keeps.enter he⟩

/-- The settings lie in the working directory or at the root, or a directory is to be created first. -/
theorem prepareSteps_cases (path : String) : (prepareSteps path = [] ∧ ∀ d, Prepared path d) ∨
    ∃ p, Disk.Path.parent path = some p ∧ prepareSteps path = [.makeDirectories p] := by
  unfold prepareSteps
  cases hp : Disk.Path.parent path with
  | none =>
    refine .inl ⟨rfl, fun d => ⟨?_, fun _ => Disk.enter_dropLast (Disk.enter_of_parent_none hp d)⟩⟩
    simp [prepareSteps, hp]
  | some p =>
    by_cases hne : p = ""
    · subst hne
      refine .inl ⟨rfl, fun d => ⟨?_, fun hn => ⟨_, (Disk.over_of_parent hp).enter hn.ends d⟩⟩⟩
      simp [prepareSteps, hp]
    · refine .inr ⟨p, rfl, ?_⟩
      simp

theorem Prepared.of_makeDirectories {p : String} (hp : Disk.Path.parent path = some p)
    (hs : prepareSteps path = [.makeDirectories p]) (h : (d.makeDirectories p).2 = none) :
    Prepared path (d.makeDirectories p).1 := by
  refine ⟨fun d' hk s hm => ?_, fun hn => ?_⟩
  · rw [hs, List.mem_singleton] at hm
    subst hm
    rw [Step.take, Disk.makeDirectories_done h hk]
  · rw [(Disk.over_of_parent hp).enter hn.ends]
    exact (Disk.enter_of_makeDirectories h).2

/-- A directory that could not be created makes saving futile. -/
theorem Futile.of_makeDirectories {p : String} {e : Disk.Error} (hp : Disk.Path.parent path = some p)
    (hs : prepareSteps path = [.makeDirectories p]) (h : (d.makeDirectories p).2 = some e) :
    Futile path (d.makeDirectories p).1 := by
  have hover := Disk.over_of_parent hp
  intro d' hg text s hm
  obtain ⟨e', he'⟩ := Disk.makeDirectories_again _ (Nat.le_refl _) hover.ends (Prod.ext rfl h) hg
  rw [hs, List.mem_append, List.mem_singleton, List.mem_singleton] at hm
  rcases hm with rfl | rfl
  · rw [Step.take, he']
  · have hp' : (d'.makeDirectories p).2 ≠ none := by rw [he']; simp
    obtain ⟨e₂, he₂⟩ : ∃ e₂, d'.write path text = .error e₂ := hover.write hp'
    rw [Step.take, he₂]

/-- A file that could not be written, with nothing left to create in front of it, makes saving futile. -/
theorem Futile.of_write {e : Disk.Error} (h : Prepared path d) (hw : d.write path text = .error e) : Futile path d := by
  intro d' hg text' s hm
  rcases List.mem_append.1 hm with hm | hm
  · exact h.steps d' hg.keeps s hm
  · rw [List.mem_singleton] at hm
    subst hm
    have hfails : ∃ e', d'.write path text' = .error e' := by
      cases hw' : d'.write path text' with
      | error e' => exact ⟨e', rfl⟩
      | ok d₂ =>
        obtain ⟨e', he'⟩ := Disk.write_again hw (h.entered (Disk.write_ok_iff.1 ⟨d₂, hw'⟩).1) hg text'
        rw [hw'] at he'
        cases he'
    obtain ⟨e', he'⟩ := hfails
    rw [Step.take, he']

/-! ## How far saving is -/

/-- Saving has failed for good, or it has not failed, and the file is written next unless directories are created first. -/
structure Underway (path text : String) (d : Disk) (p : Progress) : Prop where
  failed : p.failure ≠ none → Futile path d
  pending : p.pending ≠ [] → p.failure = none ∧
    (p.pending = prepareSteps path ++ [.writeFile path text] ∧ prepareSteps path ≠ [] ∨
      p.pending = [.writeFile path text] ∧ Prepared path d)

namespace Underway

variable {p : Progress}

theorem start (path text : String) (d : Disk) :
    Underway path text d ⟨prepareSteps path ++ [.writeFile path text], [], none⟩ := by
  refine ⟨fun hf => absurd rfl hf, fun _ => ⟨rfl, ?_⟩⟩
  rcases prepareSteps_cases path with ⟨hs, hprepared⟩ | ⟨p, -, hs⟩
  · rw [hs]
    exact .inr ⟨rfl, hprepared d⟩
  · rw [hs]
    exact .inl ⟨rfl, by simp⟩

theorem done (hp : p.pending = []) (hf : p.failure = none) : Underway path text d p :=
  ⟨fun h => absurd hf h, fun h => absurd hp h⟩

theorem grows (h : Underway path text d p) (hg : Grows d d') : Underway path text d' p :=
  ⟨fun hf => (h.failed hf).grows hg, fun hne => (h.pending hne).imp_right (.imp_right (.imp_right (·.grows hg)))⟩

theorem advance (h : Underway path text d p) (hne : p.pending ≠ []) : Underway path text (p.advance d).1 (p.advance d).2 := by
  obtain ⟨hf, ⟨hpending, hs⟩ | ⟨hpending, hprepared⟩⟩ := h.pending hne
  · obtain ⟨hnone, -⟩ | ⟨directory, hparent, hsteps⟩ := prepareSteps_cases path
    · exact absurd hnone hs
    · rw [hsteps, List.singleton_append] at hpending
      cases hmade : (d.makeDirectories directory).2 with
      | none =>
        have ht : ((Step.makeDirectories directory).take d).2 = none :=
          congrArg (Option.map (Failure.unwritable directory)) hmade
        rw [Progress.advance_ok hpending ht]
        exact ⟨fun h => absurd hf h, fun _ => ⟨hf, .inr ⟨rfl, .of_makeDirectories hparent hsteps hmade⟩⟩⟩
      | some e =>
        have ht : ((Step.makeDirectories directory).take d).2 = some (.unwritable directory e) :=
          congrArg (Option.map (Failure.unwritable directory)) hmade
        rw [Progress.advance_failed hpending ht]
        exact ⟨fun _ => .of_makeDirectories hparent hsteps hmade, fun h => absurd rfl h⟩
  · cases hw : d.write path text with
    | ok d' =>
      have ht : ((Step.writeFile path text).take d).2 = none := by rw [Step.take, hw]
      rw [Progress.advance_ok hpending ht]
      exact done rfl hf
    | error e =>
      have ht : (Step.writeFile path text).take d = (d, some (.unwritable path e)) := by rw [Step.take, hw]
      rw [Progress.advance_failed hpending (congrArg Prod.snd ht), ht]
      exact ⟨fun _ => .of_write hprepared hw, fun h => absurd rfl h⟩

theorem finishWithin : ∀ (n : Nat) {d : Disk} {p : Progress}, Underway path text d p →
    Underway path text (Progress.finishWithin n d p).1 (Progress.finishWithin n d p).2
  | 0, _, _, h => h
  | n + 1, d, p, h => by
    by_cases hne : p.pending = []
    · rw [Progress.finishWithin_done hne]
      exact h
    · exact finishWithin n (h.advance hne)

end Underway

variable {o : Options} {outcome : Outcome} {saving : Progress} {document : Toml.Document} {e : Http.Endpoint}

/-- When saving has failed in a run, another try changes nothing. -/
theorem RunsSaving.futile (h : RunsSaving o ⟨.file path document, d, e⟩ saving outcome) (hf : saving.failure ≠ none) :
    Futile path outcome.disk := by
  have hstart : ∀ (r : Resolved) (n : Nat), ∃ text, Underway path text (r.saved ⟨.file path document, d, e⟩ o n).1
      (r.saved ⟨.file path document, d, e⟩ o n).2 := by
    intro r n
    unfold Resolved.saved Resolved.saving
    split
    · exact ⟨_, (Underway.start path _ d).finishWithin n⟩
    · exact ⟨"", (Underway.done rfl rfl).finishWithin n⟩
  cases h with
  | unresolved _ => exact absurd rfl hf
  | @failed r _ n _ _ =>
    obtain ⟨text, hunderway⟩ := hstart r n
    exact (hunderway.finishWithin _).failed hf
  | @finished r input d' st n _ _ hrun =>
    obtain ⟨text, hunderway⟩ := hstart r n
    refine (hrun.invariant (motive := fun d st => Underway path text d (st none)) (fun d st i _ hne hst => ?_)
      hunderway).1.failed hf
    obtain ⟨s, rest, hp⟩ := List.exists_cons_of_ne_nil hne
    by_cases hi : none = i
    · subst hi
      rw [replace_self]
      exact hst.advance hne
    · rw [replace_ne hi, Progress.advance_disk hp]
      exact hst.grows (Step.take_grows d s)

end GraphqlCodegen
