import GraphqlCodegen.Proofs.Disk.Directories
import GraphqlCodegen.Proofs.Writing.Interleaving

/-!
# Writing as if alone

Several parties write their files on one disk that is a tree. They keep to themselves (`Separate`): all paths
are plain, no two files have one place, and no file is where another party needs a directory.

Then the disk is at any time what the parties would have made of it alone, laid over what was there
before (`Overlay`), and every party is as far as it would be alone (`Shared`). One thing is needed for it:
a directory behind a path that ends in a dot, which nobody creates for it, must not be found only because
another party has made it (`Found`). So in whatever order the steps are taken, all parties end as they
would alone (`Interleaves.as_alone`).
-/

namespace GraphqlCodegen

open Disk (Ahead Alike EndsInDot IsName IsTree Keeps OnTheWay Place Plain placeOf)

variable {ι : Type} {parties : List ι} {files : ι → List Artifact}

/-! ## Trees -/

theorem Step.take_tree {d : Disk} (h : IsTree d) (s : Step) : IsTree (s.take d).1 := by
  cases s with
  | makeDirectories path => exact Disk.IsTree.makeAll _ h
  | writeFile path content =>
    rw [take]
    cases hw : d.write path content with
    | error e => exact h
    | ok d' => exact h.write hw

/-- No step turns a file into a directory. -/
theorem Step.take_directory {d : Disk} {s : Step} {q : Place} (h : (s.take d).1.get? q = some .directory) (c : ByteArray) :
    d.get? q ≠ some (.file c) := by
  intro hf
  cases s with
  | makeDirectories path =>
    have hkept : ((makeDirectories path).take d).1.get? q = some (.file c) := (Disk.makeDirectories_opens d path).file hf
    rw [hkept] at h
    cases h
  | writeFile path content =>
    rw [take] at h
    cases hw : d.write path content with
    | error e => rw [hw] at h; simp only [hf] at h; cases h
    | ok d' =>
      obtain ⟨-, -, hg⟩ := Disk.write_ok hw
      rw [hw] at h
      simp only [hg] at h
      split at h
      · cases h
      · rw [hf] at h; cases h

theorem Progress.finish_tree {d : Disk} (h : IsTree d) (p : Progress) : IsTree (p.finish d).1 := by
  refine (finish_induction (motive := fun d _ => IsTree d) (fun d p hp ht => ?_) _ (Nat.le_refl _) h).1
  obtain ⟨s, rest, hs⟩ := List.exists_cons_of_ne_nil hp
  rw [advance_disk hs]
  exact Step.take_tree ht s

theorem Progress.finish_keeps (d : Disk) (p : Progress) : Keeps d (p.finish d).1 := by
  refine (finish_induction (motive := fun d' _ => Keeps d d') (fun d' p hp hk => ?_) _ (Nat.le_refl _) (Keeps.refl d)).1
  obtain ⟨s, rest, hs⟩ := List.exists_cons_of_ne_nil hp
  rw [advance_disk hs]
  exact hk.trans (Step.take_keeps d' s)

theorem Progress.advance_same {d d' : Disk} {p : Progress} {s : Step} {rest : List Step} (h : p.pending = s :: rest)
    (hs : (s.take d).2 = (s.take d').2) : (p.advance d).2 = (p.advance d').2 := by
  cases ho : (s.take d').2 with
  | none => rw [advance_ok h (hs.trans ho), advance_ok h ho]
  | some f => rw [advance_failed h (hs.trans ho), advance_failed h ho]

/-! ## What a party changes -/

/-- The directory that an artifact is in. -/
abbrev Artifact.directory (a : Artifact) : String := a.destination.directory

/-- Each party keeps to its own places. -/
structure Separate (parties : List ι) (files : ι → List Artifact) : Prop where
  plain : ∀ i ∈ parties, ∀ a ∈ files i, Plain a.directory
  named : ∀ i ∈ parties, ∀ a ∈ files i, IsName a.destination.filename
  places : ∀ i ∈ parties, ∀ j ∈ parties, i ≠ j → ∀ a ∈ files i, ∀ b ∈ files j, placeOf a.path ≠ placeOf b.path
  above : ∀ i ∈ parties, ∀ j ∈ parties, i ≠ j → ∀ a ∈ files i, ∀ b ∈ files j, ¬placeOf a.path <+: placeOf b.directory

/-- Behind a path that ends in a dot no directory is found that another party makes alone, unless it was
there before. -/
def Found (parties : List ι) (files : ι → List Artifact) (d : Disk) (st : ι → Progress) : Prop :=
  ∀ i ∈ parties, ∀ j ∈ parties, i ≠ j → ∀ a ∈ files i, EndsInDot a.directory →
    ((st j).finish d).1.isDirectory a.directory = true → d.isDirectory a.directory = true

/-- From the first disk to the second, only what the files need has changed. -/
def Footprint (d : Disk) (files : List Artifact) (d' : Disk) : Prop :=
  ∀ q, d'.get? q = d.get? q ∨
    (d.get? q = none ∧ d'.get? q = some .directory ∧ ∃ a ∈ files, OnTheWay Place.here (placeOf a.directory) q) ∨
      ∃ a ∈ files, q = placeOf a.path

/-- The disk is what the parties have made alone, laid over what was there before. -/
structure Overlay (parties : List ι) (d₀ : Disk) (alone : ι → Disk) (d : Disk) : Prop where
  changed : ∀ i ∈ parties, ∀ q, (alone i).get? q ≠ d₀.get? q → d.get? q = (alone i).get? q
  unchanged : ∀ q, (∀ i ∈ parties, (alone i).get? q = d₀.get? q) → d.get? q = d₀.get? q

theorem Overlay.unique {d₀ d d' : Disk} {alone : ι → Disk} (h : Overlay parties d₀ alone d) (h' : Overlay parties d₀ alone d') :
    ∀ q, d.get? q = d'.get? q := by
  intro q
  by_cases hc : ∃ i ∈ parties, (alone i).get? q ≠ d₀.get? q
  · obtain ⟨i, hi, hne⟩ := hc
    rw [h.changed i hi q hne, h'.changed i hi q hne]
  · have hu : ∀ i ∈ parties, (alone i).get? q = d₀.get? q :=
      fun i hi => Classical.byContradiction fun hne => hc ⟨i, hi, hne⟩
    rw [h.unchanged q hu, h'.unchanged q hu]

/-- What is on the disk is what a party has alone, or another party has changed it. -/
theorem Overlay.get? {d₀ d : Disk} {alone : ι → Disk} (h : Overlay parties d₀ alone d) {g : ι} (hg : g ∈ parties) (q : Place) :
    d.get? q = (alone g).get? q ∨ ∃ i ∈ parties, i ≠ g ∧ (alone i).get? q ≠ d₀.get? q ∧
      d.get? q = (alone i).get? q ∧ (alone g).get? q = d₀.get? q := by
  by_cases hgq : (alone g).get? q = d₀.get? q
  · by_cases hc : ∃ i ∈ parties, (alone i).get? q ≠ d₀.get? q
    · obtain ⟨i, hi, hne⟩ := hc
      have hig : i ≠ g := by
        rintro rfl
        exact hne hgq
      exact .inr ⟨i, hi, hig, hne, h.changed i hi q hne, hgq⟩
    · refine .inl ((h.unchanged q fun i hi => ?_).trans hgq.symm)
      exact Classical.byContradiction fun hne => hc ⟨i, hi, hne⟩
  · exact .inl (h.changed g hg q hgq)

/-- What one party changes alone and on the disk alike can be laid over, if the others agree with it. -/
theorem Overlay.step [DecidableEq ι] {d₀ d d' a' : Disk} {alone : ι → Disk} {g : ι} {changed : Place → Prop} (h : Overlay parties d₀ alone d)
    (hg : g ∈ parties) (hal : Alike (alone g) d a' d' changed)
    (hch : ∀ q, changed q → ∀ i ∈ parties, i ≠ g → (alone i).get? q ≠ d₀.get? q → (alone i).get? q = a'.get? q) :
    Overlay parties d₀ (replace alone g a') d' := by
  constructor
  · intro i hi q hne
    by_cases hig : i = g
    · subst hig
      rw [replace_self] at hne ⊢
      rcases hal q with ⟨h1, h2⟩ | ⟨-, he⟩
      · rw [h1] at hne ⊢
        rw [h2, h.changed i hi q hne]
      · exact he.symm
    · rw [replace_ne hig] at hne ⊢
      rcases hal q with ⟨-, h2⟩ | ⟨hc, he⟩
      · rw [h2, h.changed i hi q hne]
      · rw [← he, hch q hc i hi hig hne]
  · intro q hall
    have hgq := hall g hg
    rw [replace_self] at hgq
    rcases hal q with ⟨h1, h2⟩ | ⟨-, he⟩
    · rw [h2]
      refine h.unchanged q fun i hi => ?_
      by_cases hig : i = g
      · subst hig; rw [← h1, hgq]
      · have hiq := hall i hi
        rwa [replace_ne hig] at hiq
    · rw [← he, hgq]

/-! ## One step of one party -/

/-- A party stands between two files, or it has created the directory of a file that it writes next. -/
inductive Ready (files : List Artifact) (d : Disk) : List Step → Prop
  | between (as : List Artifact) : (∀ a ∈ as, a ∈ files) → Ready files d (as.flatMap Artifact.steps)
  | inside (a : Artifact) (as : List Artifact) : a ∈ files → (∀ b ∈ as, b ∈ files) →
    d.enter Place.here (placeOf a.directory) = .ok (placeOf a.directory) →
      Ready files d (.writeFile a.path a.content :: as.flatMap Artifact.steps)

/-- The places that a step for a file may change. -/
def Artifact.Needs (a : Artifact) (d : Disk) (q : Place) : Prop :=
  OnTheWay Place.here (placeOf a.directory) q ∧ d.get? q = some .directory ∨ q = placeOf a.path

/-- What the next step of a party comes to, on the disk it has alone and on the shared one. -/
structure Agrees (files : List Artifact) (alone d : Disk) (s : Step) (rest : List Step) : Prop where
  failure : (s.take alone).2 = (s.take d).2
  alike : ∃ a ∈ files, Alike alone d (s.take alone).1 (s.take d).1 (a.Needs (s.take alone).1)
  ready : (s.take alone).2 = none → Ready files (s.take alone).1 rest

variable {as : List Artifact} {alone d : Disk}

theorem Footprint.step {d₀ d' : Disk} {a : Artifact} {s : Step} (h : Footprint d₀ as alone) (ha : a ∈ as)
    (hal : Alike alone d (s.take alone).1 d' (a.Needs (s.take alone).1)) : Footprint d₀ as (s.take alone).1 := by
  intro q
  rcases hal q with ⟨hsame, -⟩ | ⟨⟨hway, hdir⟩ | hq, -⟩
  · rw [hsame]; exact h q
  · rcases h q with hq | ⟨hnone, -, hb⟩ | hq
    · cases h0 : d₀.get? q with
      | none => exact .inr (.inl ⟨rfl, hdir, a, ha, hway⟩)
      | some e =>
        cases e with
        | directory => exact .inl hdir
        | file c => exact absurd (hq.trans h0) (Step.take_directory hdir c)
    · exact .inr (.inl ⟨hnone, hdir, hb⟩)
    · exact .inr (.inr hq)
  · exact .inr (.inr ⟨a, ha, hq⟩)

theorem agrees_directory {a : Artifact} {rest : List Artifact} (ht : IsTree alone) (ht' : IsTree d) (ha : a ∈ as)
    (hrest : ∀ b ∈ rest, b ∈ as) (hp : Plain a.directory) (hahead : Ahead alone d Place.here (placeOf a.directory))
    (hdot : EndsInDot a.directory → d.isDirectory a.directory = true → alone.isDirectory a.directory = true) :
    Agrees as alone d (.makeDirectories a.directory) (.writeFile a.path a.content :: rest.flatMap Artifact.steps) := by
  obtain ⟨hf, hal⟩ := Disk.makeDirectories_ahead ht ht' hp hahead hdot
  refine ⟨?_, ⟨a, ha, fun q => ?_⟩, fun hok => ?_⟩
  · simp only [Step.take, hf]
  · rcases hal q with hq | ⟨hq, he⟩
    · exact .inl hq
    · exact .inr ⟨.inl hq, he⟩
  · refine .inside a rest ha hrest (Disk.makeDirectories_entered ht hp ?_)
    simpa [Step.take] using hok

theorem agrees_file {a : Artifact} {rest : List Artifact} (ha : a ∈ as) (hrest : ∀ b ∈ rest, b ∈ as) (hp : Plain a.directory)
    (hn : IsName a.destination.filename) (hahead : Ahead alone d Place.here (placeOf a.directory))
    (he : alone.enter Place.here (placeOf a.directory) = .ok (placeOf a.directory))
    (hg : d.get? (placeOf a.path) = alone.get? (placeOf a.path)) :
    Agrees as alone d (.writeFile a.path a.content) (rest.flatMap Artifact.steps) := by
  have hplace : placeOf a.path = placeOf a.directory ++ [a.destination.filename] := Disk.placeOf_join hn
  obtain ⟨hh, ht⟩ := @Disk.append_ne (placeOf a.directory) a.destination.filename fun h0 => hn.nonempty (by rw [h0]; rfl)
  rw [hplace] at hg
  have hw : (∃ e, alone.write a.path a.content = .error e ∧ d.write a.path a.content = .error e) ∨
      alone.write a.path a.content = .ok (alone.put (placeOf a.directory ++ [a.destination.filename]) (.file a.content.toUTF8)) ∧
      d.write a.path a.content = .ok (d.put (placeOf a.directory ++ [a.destination.filename]) (.file a.content.toUTF8)) :=
    Disk.write_ahead hp hn hahead he hg
  rw [← hplace] at hw hh ht
  rcases hw with ⟨e, h1, h2⟩ | ⟨h1, h2⟩
  · have h1' : (Step.writeFile a.path a.content).take alone = (alone, some (.unwritable a.path e)) := by rw [Step.take, h1]
    have h2' : (Step.writeFile a.path a.content).take d = (d, some (.unwritable a.path e)) := by rw [Step.take, h2]
    exact ⟨by rw [h1', h2'], ⟨a, ha, fun q => .inl ⟨by rw [h1'], by rw [h2']⟩⟩, fun _ => .between rest hrest⟩
  · have h1' : (Step.writeFile a.path a.content).take alone = (alone.put (placeOf a.path) (.file a.content.toUTF8), none) := by
      rw [Step.take, h1]
    have h2' : (Step.writeFile a.path a.content).take d = (d.put (placeOf a.path) (.file a.content.toUTF8), none) := by
      rw [Step.take, h2]
    refine ⟨by rw [h1', h2'], ⟨a, ha, fun q => ?_⟩, fun _ => .between rest hrest⟩
    rw [h1', h2']
    by_cases hq : q = placeOf a.path
    · exact .inr ⟨.inr hq, by rw [Disk.get?_put hh ht, Disk.get?_put hh ht, if_pos hq, if_pos hq]⟩
    · exact .inl ⟨by rw [Disk.get?_put hh ht, if_neg hq], by rw [Disk.get?_put hh ht, if_neg hq]⟩

/-! ## The shared disk -/

/-- A party that began on a disk and has come as far alone. -/
structure Alone (d₀ : Disk) (p₀ : Progress) (files : List Artifact) (d : Disk) (p : Progress) : Prop where
  tree : IsTree d
  ready : Ready files d p.pending
  footprint : Footprint d₀ files d
  finish : p.finish d = p₀.finish d₀

theorem Alone.advance {d₀ : Disk} {p₀ p : Progress} {s : Step} {rest : List Step} (h : Alone d₀ p₀ as alone p)
    (hp : p.pending = s :: rest) (hs : Agrees as alone d s rest) :
    Alone d₀ p₀ as (p.advance alone).1 (p.advance alone).2 := by
  obtain ⟨a, ha, halike⟩ := hs.alike
  refine ⟨?_, ?_, ?_, ?_⟩
  · rw [Progress.advance_disk hp]; exact Step.take_tree h.tree s
  · cases ho : (s.take alone).2 with
    | none => rw [Progress.advance_ok hp ho]; exact hs.ready ho
    | some f => rw [Progress.advance_failed hp ho]; exact .between [] (by simp)
  · rw [Progress.advance_disk hp]; exact h.footprint.step ha halike
  · rw [← Progress.finish_advance (by rw [hp]; simp)]; exact h.finish

/-- The parties write on the disk as they would alone. -/
structure Shared (parties : List ι) (files : ι → List Artifact) (d₀ : Disk) (st₀ : ι → Progress) (alone : ι → Disk)
    (d : Disk) (st : ι → Progress) : Prop where
  tree : IsTree d
  each : ∀ i ∈ parties, Alone d₀ (st₀ i) (files i) (alone i) (st i)
  overlay : Overlay parties d₀ alone d

namespace Shared

variable {d₀ d : Disk} {st₀ st : ι → Progress} {alone : ι → Disk} {g : ι} {a : Artifact}

theorem start (ht : IsTree d₀) (hp : ∀ i ∈ parties, (st₀ i).pending = (files i).flatMap Artifact.steps) :
    Shared parties files d₀ st₀ (fun _ => d₀) d₀ st₀ where
  tree := ht
  each i hi := ⟨ht, by rw [hp i hi]; exact .between _ fun _ ha => ha, fun _ => .inl rfl, rfl⟩
  overlay := ⟨fun _ _ _ hne => absurd rfl hne, fun _ _ => rfl⟩

/-- On the way to a party's directories, others have made directories at most. -/
theorem ahead (h : Shared parties files d₀ st₀ alone d st) (hs : Separate parties files) (hg : g ∈ parties) (ha : a ∈ files g) :
    Ahead (alone g) d Place.here (placeOf a.directory) := by
  intro ms _ hms
  rcases h.overlay.get? hg (Place.here ++ ms) with he | ⟨i, hi, hig, hne, he, hgq⟩
  · exact .inl he
  · rcases (h.each i hi).footprint (Place.here ++ ms) with hsame | ⟨hnone, hdir, -⟩ | ⟨b, hb, hq⟩
    · exact absurd hsame hne
    · exact .inr ⟨hgq.trans hnone, he.trans hdir⟩
    · -- no file of another party is on the way
      exact absurd (by rw [← hq]; exact hms) (hs.above i hi g hg hig b hb a ha)

/-- Where a party writes a file, nobody else changes anything. -/
theorem file (h : Shared parties files d₀ st₀ alone d st) (hs : Separate parties files) (hg : g ∈ parties) (ha : a ∈ files g) :
    d.get? (placeOf a.path) = (alone g).get? (placeOf a.path) := by
  rcases h.overlay.get? hg (placeOf a.path) with he | ⟨i, hi, hig, hne, -, -⟩
  · exact he
  · rcases (h.each i hi).footprint (placeOf a.path) with hsame | ⟨-, -, b, hb, ms, -, hms, hq⟩ | ⟨b, hb, hq⟩
    · exact absurd hsame hne
    · exact absurd (by rw [hq]; exact hms) (hs.above g hg i hi hig.symm a ha b hb)
    · exact absurd hq (hs.places g hg i hi hig.symm a ha b hb)

/-- A directory behind a dot that is there for all is there for its party alone. -/
theorem dot (h : Shared parties files d₀ st₀ alone d st) (hs : Separate parties files) (ht : IsTree d₀)
    (hf : Found parties files d₀ st₀) (hg : g ∈ parties) (ha : a ∈ files g) (hdot : EndsInDot a.directory)
    (hd : d.isDirectory a.directory = true) : (alone g).isDirectory a.directory = true := by
  have hp := hs.plain g hg a ha
  obtain ⟨hr, he⟩ := (Disk.isDirectory_iff hp).1 hd
  have hget : ∀ {d' : Disk}, d'.isDirectory a.directory = true → IsTree d' → d'.get? (placeOf a.directory) = some .directory :=
    fun hd' ht' => ht'.enter (Disk.get?_here _) ((Disk.isDirectory_iff hp).1 hd').2
  have hback : ∀ {d' : Disk}, IsTree d' → d'.get? (placeOf a.directory) = some .directory → d'.isDirectory a.directory = true :=
    fun ht' hg' => (Disk.isDirectory_iff hp).2 ⟨hr, ht'.enter_of_get? hp.areNames he hg'⟩
  refine hback (h.each g hg).tree ?_
  rcases h.overlay.get? hg (placeOf a.directory) with hq | ⟨i, hi, hig, -, hq, hgq⟩
  · rw [← hq, hget hd h.tree]
  · -- the party that has made it would have done so alone
    have hkeeps : ((st₀ i).finish d₀).1.get? (placeOf a.directory) = some .directory := by
      rw [← (h.each i hi).finish]
      exact Progress.finish_keeps _ _ _ (hq.symm.trans (hget hd h.tree))
    rw [hgq, hget (hf g hg i hi hig.symm a ha hdot (hback (Progress.finish_tree ht _) hkeeps)) ht]

/-- The next step of a party comes to the same alone and on the shared disk. -/
theorem agrees (h : Shared parties files d₀ st₀ alone d st) (hs : Separate parties files) (ht : IsTree d₀)
    (hf : Found parties files d₀ st₀) (hg : g ∈ parties) {s : Step} {rest : List Step} (hp : (st g).pending = s :: rest) :
    Agrees (files g) (alone g) d s rest := by
  have hr := (h.each g hg).ready
  rw [hp] at hr
  generalize hpend : s :: rest = pending at hr
  cases hr with
  | between as has =>
    cases as with
    | nil => cases hpend
    | cons a as =>
      have ha := has a List.mem_cons_self
      obtain ⟨rfl, rfl⟩ := List.cons.inj hpend
      exact agrees_directory (h.each g hg).tree h.tree ha (fun b hb => has b (List.mem_cons_of_mem _ hb)) (hs.plain g hg a ha)
        (h.ahead hs hg ha) (h.dot hs ht hf hg ha)
  | inside a as ha has he =>
    obtain ⟨rfl, rfl⟩ := List.cons.inj hpend
    exact agrees_file ha has (hs.plain g hg a ha) (hs.named g hg a ha) (h.ahead hs hg ha) he (h.file hs hg ha)

/-- What another party has changed agrees with what a step for a file changes. -/
theorem needs (h : Shared parties files d₀ st₀ alone d st) (hs : Separate parties files) (hg : g ∈ parties) (ha : a ∈ files g)
    {d' : Disk} {q : Place} (hq : a.Needs d' q) {i : ι} (hi : i ∈ parties) (hig : i ≠ g) (hne : (alone i).get? q ≠ d₀.get? q) :
    (alone i).get? q = d'.get? q := by
  rcases (h.each i hi).footprint q with hsame | ⟨-, hdir, b, hb, ms, -, hms, hqb⟩ | ⟨b, hb, hqb⟩
  · exact absurd hsame hne
  · rcases hq with ⟨-, hd'⟩ | hqa
    · rw [hdir, hd']
    · exact absurd (by rw [← hqa, hqb]; exact hms) (hs.above g hg i hi hig.symm a ha b hb)
  · rcases hq with ⟨⟨ms, -, hms, hqa⟩, -⟩ | hqa
    · exact absurd (by rw [← hqb, hqa]; exact hms) (hs.above i hi g hg hig b hb a ha)
    · exact absurd (hqb.symm.trans hqa) (hs.places i hi g hg hig b hb a ha)

/-- A step of one party leaves the parties writing as they would alone. -/
theorem advance [DecidableEq ι] (h : Shared parties files d₀ st₀ alone d st) (hs : Separate parties files) (ht : IsTree d₀)
    (hf : Found parties files d₀ st₀) (hg : g ∈ parties) (hne : (st g).pending ≠ []) :
    Shared parties files d₀ st₀ (replace alone g ((st g).advance (alone g)).1) ((st g).advance d).1
      (replace st g ((st g).advance d).2) := by
  obtain ⟨s, rest, hp⟩ := List.exists_cons_of_ne_nil hne
  have hagrees := h.agrees hs ht hf hg hp
  obtain ⟨a, ha, halike⟩ := hagrees.alike
  have hover := h.overlay.step hg halike fun q hq i hi hig hnq => h.needs hs hg ha hq hi hig hnq
  rw [← Progress.advance_disk hp, ← Progress.advance_disk hp] at hover
  refine ⟨by rw [Progress.advance_disk hp]; exact Step.take_tree h.tree s, fun i hi => ?_, hover⟩
  by_cases hig : i = g
  · subst hig
    rw [replace_self, replace_self, ← Progress.advance_same hp hagrees.failure]
    exact (h.each i hi).advance hp hagrees
  · rw [replace_ne hig, replace_ne hig]
    exact h.each i hi

end Shared

/-- In whatever order the steps are taken, every party ends as it would alone, and the disk is what the
parties would have made of it alone. -/
theorem Interleaves.as_alone [DecidableEq ι] {d d' : Disk} {st st' : ι → Progress} (h : Interleaves parties d st d' st') (ht : IsTree d)
    (hs : Separate parties files) (hp : ∀ i ∈ parties, (st i).pending = (files i).flatMap Artifact.steps)
    (hf : Found parties files d st) :
    (∀ i ∈ parties, st' i = ((st i).finish d).2) ∧ Overlay parties d (fun i => ((st i).finish d).1) d' := by
  obtain ⟨⟨alone, hshared⟩, hdone⟩ := h.invariant (motive := fun d₁ st₁ => ∃ alone, Shared parties files d st alone d₁ st₁)
    (fun d₁ st₁ g hg hne ⟨_, hsh⟩ => ⟨_, hsh.advance hs ht hf hg hne⟩) ⟨_, Shared.start ht hp⟩
  have hend : ∀ i ∈ parties, (alone i, st' i) = (st i).finish d := by
    intro i hi
    rw [← (hshared.each i hi).finish, Progress.finish_done (hdone i hi)]
  refine ⟨fun i hi => by rw [← hend i hi], fun i hi q hne => ?_, fun q hu => ?_⟩
  · rw [← hend i hi] at hne ⊢
    exact hshared.overlay.changed i hi q hne
  · refine hshared.overlay.unchanged q fun i hi => ?_
    have hui := hu i hi
    rwa [← hend i hi] at hui

end GraphqlCodegen
