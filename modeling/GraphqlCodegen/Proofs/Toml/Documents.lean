import GraphqlCodegen.Proofs.Entries
import GraphqlCodegen.Proofs.Toml.Order

/-!
# A document as it is written

The document that a text is written for, with its lines in the order of the text (`Document.written`): it has the same under
each key (`sameEntry_written`) and is consistent if the document is (`isConsistent_written`). So is a document in which a
string was set (`isConsistent_set`).
-/

namespace GraphqlCodegen.Toml

/-! ## Lines under a header -/

/-- A table that a path leads to is changed twice by changing it by both. -/
theorem inTable_comp (path : List String) (f g : Children → Option Children) (cs : Children) :
    (inTable path f cs).bind (inTable path g) = inTable path (fun cs => (f cs).bind g) cs := by
  induction path generalizing cs with
  | nil => rfl
  | cons k path ih =>
    -- both go through the same table, whatever kind of table it is
    have hthrough : ∀ (wrap : Children → Node) (step : Option Node → Option Node) (c : Children),
        (∀ c, step (some (wrap c)) = (inTable path g c).map wrap) →
          (((inTable path f c).map wrap).map fun n => put k n cs).bind (change k step) =
            ((inTable path (fun cs => (f cs).bind g) c).map wrap).map fun n => put k n cs := by
      intro wrap step c hstep
      rw [← ih]
      cases inTable path f c with
      | none => rfl
      | some c' =>
        simp only [Option.map_some, Option.bind_some, change_eq, at?_put_self, hstep, Option.map_map, Function.comp_def, put_put]
    simp only [inTable, change_eq k _ cs]
    cases at? k cs with
    | none => exact hthrough _ _ [] fun _ => rfl
    | some n =>
      cases n with
      | value => rfl
      | table origin c => exact hthrough _ _ c fun _ => rfl
      | array c => exact hthrough _ _ c fun _ => rfl

theorem inTable_mono {path : List String} {f g : Children → Option Children} (h : ∀ c c', f c = some c' → g c = some c') :
    ∀ {cs cs' : Children}, inTable path f cs = some cs' → inTable path g cs = some cs' := by
  induction path with
  | nil => exact fun h' => h _ _ h'
  | cons k path ih =>
    intro cs cs' hcs
    simp only [inTable, change_eq] at hcs ⊢
    obtain ⟨n, hn, rfl⟩ := Option.map_eq_some_iff.1 hcs
    rw [Option.map_eq_some_iff]
    refine ⟨n, ?_, rfl⟩
    split at hn
    · obtain ⟨c, hc, rfl⟩ := Option.map_eq_some_iff.1 hn
      rw [ih hc]; rfl
    · obtain ⟨c, hc, rfl⟩ := Option.map_eq_some_iff.1 hn
      rw [ih hc]; rfl
    · obtain ⟨c, hc, rfl⟩ := Option.map_eq_some_iff.1 hn
      rw [ih hc]; rfl
    · cases hn

/-- Lines under a header define what they define in its table. -/
theorem foldlM_inTable (path : List String) {ls : List Line} (hne : ls ≠ []) (cs : Children) :
    ls.foldlM (fun cs l => inTable path (assign l.path) cs) cs = inTable path (runs (ls.map Line.block)) cs := by
  induction ls generalizing cs with
  | nil => exact absurd rfl hne
  | cons l ls ih =>
    rw [List.foldlM_cons]
    by_cases hls : ls = []
    · subst hls
      have h1 : runs ([l].map Line.block) = assign l.path := funext fun cs => Option.bind_fun_some _
      rw [h1]
      exact Option.bind_fun_some _
    · have h1 : runs ((l :: ls).map Line.block) = fun cs => (assign l.path cs).bind (runs (ls.map Line.block)) := rfl
      rw [h1, ← inTable_comp]
      simp only [ih hls]
      rfl

/-! ## The written document -/

/-- The section with its lines in the order in which they are written. -/
def Section.written (s : Section) : Section := ⟨s.header, s.head, ordered s.lines⟩

/-- The document with its lines in the order in which they are written. -/
def Document.written (d : Document) : Document where
  keys := firsts (d.topLines.map (root ·.path) ++ d.sections.map (root ·.header.path))
  lines := d.topLines
  sections := d.sections.map Section.written
  tail := d.tail

theorem Section.define_written {s : Section} {cs cs' : Children} (h : s.define cs = some cs') : s.written.define cs = some cs' := by
  unfold Section.define at h ⊢
  obtain ⟨cs₁, h₁, hlines⟩ := Option.bind_eq_some_iff.1 h
  show (s.header.define cs).bind _ = _
  rw [h₁, Option.bind_some]
  by_cases hne : s.lines = []
  · have hord : ordered s.lines = [] := by rw [hne]; exact (ordered_perm []).eq_nil
    simp only [Section.written, hord]
    rw [hne] at hlines
    exact hlines
  · have hord : ordered s.lines ≠ [] := fun h0 => hne (by simpa [h0] using (ordered_perm s.lines).symm)
    rw [foldlM_inTable _ hne] at hlines
    show List.foldlM _ cs₁ (ordered s.lines) = _
    rw [foldlM_inTable _ hord]
    exact inTable_mono (fun c c' hc => runs_ordered hc) hlines

theorem runs_sections {ss : List Section} {cs cs' : Children} (h : runs (ss.map Section.block) cs = some cs') :
    runs ((ss.map Section.written).map Section.block) cs = some cs' := by
  induction ss generalizing cs with
  | nil => exact h
  | cons s ss ih =>
    rw [List.map_cons, runs_cons] at h
    obtain ⟨cs₁, h₁, hrest⟩ := Option.bind_eq_some_iff.1 h
    rw [List.map_cons, List.map_cons, runs_cons, show s.written.block.2 cs = some cs₁ from s.define_written h₁]
    exact ih hrest

/-! ## What stands under a key -/

namespace Document

/-- The lines under a key at the top. -/
def linesOf (d : Document) (key : String) : List Line := d.lines.filter fun l => root l.path == key

/-- The sections under a key at the top. -/
def sectionsOf (d : Document) (key : String) : List Section := d.sections.filter fun s => root s.header.path == key

end Document

theorem flatMap_single {α : Type} {key : String} {keys : List String} (hnd : keys.Nodup) {f : String → List α}
    (h : ∀ k, k ≠ key → f k = []) : keys.flatMap f = if key ∈ keys then f key else [] := by
  induction keys with
  | nil => rfl
  | cons k keys ih =>
    obtain ⟨hk, hnd⟩ := List.nodup_cons.1 hnd
    rw [List.flatMap_cons, ih hnd]
    by_cases he : k = key
    · subst he; simp [hk]
    · simp [h k he, Ne.symm he]

/-- The keys are named once each, and those of all lines are named. -/
structure Document.HasKeys (d : Document) : Prop where
  nodup : d.keys.Nodup
  root_mem : ∀ l ∈ d.lines, root l.path ∈ d.keys

theorem mem_ordered {ls : List Line} {l : Line} : l ∈ ordered ls ↔ l ∈ ls := (ordered_perm ls).mem_iff

namespace Document.HasKeys

variable {d : Document} (h : d.HasKeys)

include h

theorem linesOf_topLines (key : String) : d.topLines.filter (fun l => root l.path == key) = ordered (d.linesOf key) := by
  have hgroup : ∀ k, (ordered (d.lines.filter fun l => root l.path == k)).filter (fun l => root l.path == key) =
      if k = key then ordered (d.linesOf key) else [] := by
    intro k
    split
    · rename_i hk
      subst hk
      refine List.filter_eq_self.2 fun l hl => ?_
      exact (List.mem_filter.1 (mem_ordered.1 hl)).2
    · rename_i hk
      refine List.filter_eq_nil_iff.2 fun l hl hkey => hk ?_
      have hroot := (List.mem_filter.1 (mem_ordered.1 hl)).2
      rw [← eq_of_beq hroot, eq_of_beq hkey]
  rw [Document.topLines, List.filter_flatMap]
  simp only [hgroup]
  rw [flatMap_single h.nodup (fun k hk => if_neg hk), if_pos rfl]
  split
  · rfl
  · rename_i hkey
    have hnone : d.linesOf key = [] := List.filter_eq_nil_iff.2 fun l hl hr => hkey (eq_of_beq hr ▸ h.root_mem l hl)
    rw [hnone, (ordered_perm []).eq_nil]

theorem topLines_perm : d.topLines.Perm d.lines := by
  refine List.perm_iff_count.2 fun l => ?_
  have hcount : ∀ ls : List Line, ls.count l = (ls.filter fun m => root m.path == root l.path).count l := fun ls =>
    (List.count_filter (by simp)).symm
  rw [hcount, hcount d.lines, h.linesOf_topLines]
  exact (ordered_perm _).count_eq l

end Document.HasKeys

/-! ## Entries -/

/-- The sections are written alike, with the same lines in some order. -/
structure Section.Same (s s' : Section) : Prop where
  header : s.header = s'.header
  head : s.head = s'.head
  lines : s.lines.Perm s'.lines

/-- Under the key at the top both documents have the same lines in some order, and the same sections. -/
structure Document.SameEntry (key : String) (d d' : Document) : Prop where
  lines : (d.linesOf key).Perm (d'.linesOf key)
  sections : List.Forall₂ Section.Same (d.sectionsOf key) (d'.sectionsOf key)

theorem Section.Same.refl (s : Section) : s.Same s := ⟨rfl, rfl, .refl _⟩

theorem Section.Same.trans {s s' s'' : Section} (h : s.Same s') (h' : s'.Same s'') : s.Same s'' :=
  ⟨h.header.trans h'.header, h.head.trans h'.head, h.lines.trans h'.lines⟩

theorem forall₂_same_trans {as bs cs : List Section} (h : List.Forall₂ Section.Same as bs) (h' : List.Forall₂ Section.Same bs cs) :
    List.Forall₂ Section.Same as cs := by
  induction h generalizing cs with
  | nil => exact h'
  | cons hs _ ih =>
    cases h' with
    | cons hs' h' => exact .cons (hs.trans hs') (ih h')

theorem forall₂_same (ss : List Section) : List.Forall₂ Section.Same ss ss := by
  induction ss with
  | nil => exact .nil
  | cons s ss ih => exact .cons (.refl s) ih

theorem Document.SameEntry.refl (key : String) (d : Document) : SameEntry key d d := ⟨.refl _, forall₂_same _⟩

theorem Document.SameEntry.trans {key : String} {d d' d'' : Document} (h : SameEntry key d d') (h' : SameEntry key d' d'') :
    SameEntry key d d'' :=
  ⟨h.lines.trans h'.lines, forall₂_same_trans h.sections h'.sections⟩

namespace Document

theorem sectionsOf_written (d : Document) (key : String) : d.written.sectionsOf key = (d.sectionsOf key).map Section.written := by
  rw [sectionsOf, written, List.filter_map]
  rfl

theorem linesOf_written {d : Document} (h : d.HasKeys) (key : String) : d.written.linesOf key = ordered (d.linesOf key) :=
  h.linesOf_topLines key

/-- What is written has the same under each key. -/
theorem sameEntry_written {d : Document} (h : d.HasKeys) (key : String) : SameEntry key d d.written := by
  refine ⟨?_, ?_⟩
  · rw [linesOf_written h]
    exact (ordered_perm _).symm
  · rw [sectionsOf_written]
    induction d.sectionsOf key with
    | nil => exact .nil
    | cons s ss ih => exact .cons ⟨rfl, rfl, (ordered_perm s.lines).symm⟩ ih

/-- No statement of the document defines what another one has defined. -/
def IsConsistent (d : Document) : Prop := areConsistent d.statements = true

/-- The blocks under a key. -/
theorem blocks_filter (d : Document) (key : String) : d.blocks.filter (·.1 == key) =
    (d.linesOf key).map Line.block ++ (d.sectionsOf key).map Section.block := by
  rw [blocks, List.filter_append, List.filter_map, List.filter_map]
  rfl

theorem isConsistent_iff (d : Document) : d.IsConsistent ↔
    ∀ key, (runs ((d.linesOf key).map Line.block ++ (d.sectionsOf key).map Section.block) []).isSome = true := by
  rw [IsConsistent, areConsistent_statements, isSome_runs_iff d.act_blocks]
  simp only [blocks_filter]

theorem isConsistent_written {d : Document} (hk : d.HasKeys) (h : d.IsConsistent) : d.written.IsConsistent := by
  rw [isConsistent_iff] at h ⊢
  intro key
  obtain ⟨cs', hcs⟩ := Option.isSome_iff_exists.1 (h key)
  rw [runs_append] at hcs
  obtain ⟨cs, hl, hs⟩ := Option.bind_eq_some_iff.1 hcs
  rw [linesOf_written hk, sectionsOf_written, runs_append, runs_ordered hl, Option.bind_some, runs_sections hs]
  rfl

/-! ## Setting -/

section Set

variable (d : Document) (key value : String)

theorem linesOf_set_self : (d.set key value).linesOf key = [⟨[key], some value, writeEntry key value⟩] := by
  have hnone : (d.lines.filter fun l => root l.path != key).filter (fun l => root l.path == key) = [] := by
    refine List.filter_eq_nil_iff.2 fun l hl => ?_
    simpa using (List.mem_filter.1 hl).2
  rw [linesOf, set, List.filter_append, hnone]
  simp [root]

theorem linesOf_set_other {other : String} (h : other ≠ key) : (d.set key value).linesOf other = d.linesOf other := by
  rw [linesOf, set, List.filter_append, List.filter_filter, List.filter_cons_of_neg (by simpa [root] using h.symm)]
  rw [List.filter_nil, List.append_nil, linesOf]
  refine List.filter_congr fun l _ => ?_
  by_cases hl : root l.path = other <;> simp [hl, h]

theorem sectionsOf_set_self : (d.set key value).sectionsOf key = [] := by
  refine List.filter_eq_nil_iff.2 fun s hs => ?_
  simpa using (List.mem_filter.1 hs).2

theorem sectionsOf_set_other {other : String} (h : other ≠ key) : (d.set key value).sectionsOf other = d.sectionsOf other := by
  rw [sectionsOf, set, List.filter_filter, sectionsOf]
  refine List.filter_congr fun s _ => ?_
  by_cases hs : root s.header.path = other <;> simp [hs, h]

theorem sameEntry_set {other : String} (h : other ≠ key) : SameEntry other d (d.set key value) := by
  refine ⟨?_, ?_⟩
  · rw [linesOf_set_other d key value h]
  · rw [sectionsOf_set_other d key value h]
    exact forall₂_same _

variable {d}

theorem isConsistent_set (h : d.IsConsistent) : (d.set key value).IsConsistent := by
  rw [isConsistent_iff] at h ⊢
  intro other
  by_cases ho : other = key
  · subst ho
    rw [linesOf_set_self, sectionsOf_set_self]
    rfl
  · rw [linesOf_set_other d key value ho, sectionsOf_set_other d key value ho]
    exact h other

theorem HasKeys.set (h : d.HasKeys) : (d.set key value).HasKeys := by
  have hkeys : (d.set key value).keys = if d.keys.contains key then d.keys else d.keys ++ [key] := rfl
  refine ⟨?_, fun l hl => ?_⟩
  · rw [hkeys]
    split
    · exact h.nodup
    · rename_i hk
      rw [List.nodup_append]
      refine ⟨h.nodup, List.pairwise_singleton _ _, fun a ha b hb => ?_⟩
      obtain rfl := List.mem_singleton.1 hb
      rintro rfl
      exact hk (by simpa using ha)
  · rw [hkeys]
    rcases List.mem_append.1 hl with hl | hl
    · have hm := h.root_mem l (List.mem_filter.1 hl).1
      split
      · exact hm
      · exact List.mem_append_left _ hm
    · obtain rfl := List.mem_singleton.1 hl
      split
      · rename_i hk
        simpa [root] using hk
      · exact List.mem_append_right _ (by simp [root])

end Set

theorem HasKeys.written {d : Document} : d.written.HasKeys :=
  ⟨nodup_firsts _, fun _ hl => mem_firsts.2 (List.mem_append_left _ (List.mem_map_of_mem hl))⟩

/-! ## Looking up -/

theorem get?_eq (d : Document) (key : String) : d.get? key = ((d.linesOf key).find? (·.path == [key])).bind (·.value) := by
  rw [get?, linesOf, List.find?_filter]
  congr 2
  funext l
  by_cases hl : l.path = [key]
  · simp [hl, root]
  · simp [hl]

@[simp] theorem get?_set_self (d : Document) (key value : String) : (d.set key value).get? key = some value := by
  rw [get?_eq, linesOf_set_self]
  simp

theorem get?_set_other (d : Document) {key other : String} (h : other ≠ key) (value : String) :
    (d.set key value).get? other = d.get? other := by
  rw [get?_eq, linesOf_set_other d key value h, ← get?_eq]

/-- Where a line gives a key a value there is no other line under this key. -/
theorem linesOf_eq_single {d : Document} (h : d.IsConsistent) {l : Line} {key : String} (hl : l ∈ d.linesOf key)
    (hp : l.path = [key]) : d.linesOf key = [l] := by
  have hroot : ∀ m ∈ d.linesOf key, root m.path = key := fun m hm => eq_of_beq (List.mem_filter.1 hm).2
  have hruns := (isConsistent_iff d).1 h key
  rw [runs_append] at hruns
  obtain ⟨cs', hcs⟩ := Option.isSome_iff_exists.1 hruns
  obtain ⟨cs, hlines, -⟩ := Option.bind_eq_some_iff.1 hcs
  generalize d.linesOf key = ls at hl hroot hlines
  cases ls with
  | nil => cases hl
  | cons m ls =>
    have hrest : ∀ n ∈ ls, root n.path = key := fun n hn => hroot n (List.mem_cons_of_mem _ hn)
    rcases List.mem_cons.1 hl with rfl | hl
    · rw [@eq_single_of_runs _ _ _ Line.path _ _ hp hrest hlines]
    · rw [List.map_cons, runs_cons] at hlines
      obtain ⟨cs₁, h₁, hlines⟩ := Option.bind_eq_some_iff.1 hlines
      have hself := (assign_actsAt m.path).self h₁
      rw [hroot m List.mem_cons_self] at hself
      exact absurd hp (@ne_single_of_runs _ Line.path _ _ _ hself hrest hlines l hl)

/-- Documents that have the same under a key have the same string under it. -/
theorem SameEntry.get?_eq {key : String} {d d' : Document} (h : SameEntry key d d') (hd : d.IsConsistent) (hd' : d'.IsConsistent) :
    d.get? key = d'.get? key := by
  rw [Document.get?_eq, Document.get?_eq]
  by_cases hex : ∃ l ∈ d.linesOf key, l.path = [key]
  · obtain ⟨l, hl, hp⟩ := hex
    rw [linesOf_eq_single hd hl hp, linesOf_eq_single hd' (h.lines.mem_iff.1 hl) hp]
  · have hnone : ∀ {ls : List Line}, (∀ l ∈ ls, l.path ≠ [key]) → ls.find? (·.path == [key]) = none := fun hls =>
      List.find?_eq_none.2 fun l hl => by simpa using hls l hl
    have hno : ∀ l ∈ d.linesOf key, l.path ≠ [key] := fun l hl hp => hex ⟨l, hl, hp⟩
    rw [hnone hno, hnone fun l hl => hno l (h.lines.mem_iff.2 hl)]

/-- The string that a line gives to a key at the top. -/
def string? (l : Line) : Option (String × String) :=
  match l.path, l.value with
  | [key], some value => some (key, value)
  | _, _ => none

/-- The strings at the top with their keys. -/
def strings (d : Document) : List (String × String) := d.lines.filterMap string?

theorem string?_eq_some {l : Line} {p : String × String} (h : string? l = some p) : l.path = [p.1] ∧ l.value = some p.2 := by
  unfold string? at h
  split at h
  · rename_i hp hv
    cases h
    exact ⟨hp, hv⟩
  · cases h

theorem strings_filter (d : Document) (key : String) :
    d.strings.filter (·.1 = key) = ((d.linesOf key).filter (·.path == [key])).filterMap string? := by
  rw [strings, linesOf, List.filter_filter]
  induction d.lines with
  | nil => rfl
  | cons l ls ih =>
    by_cases hl : l.path = [key]
    · rw [List.filter_cons_of_pos (by simp [hl, root])]
      cases hs : string? l with
      | none => rw [List.filterMap_cons_none hs, List.filterMap_cons_none hs, ih]
      | some p =>
        obtain ⟨hp, -⟩ := string?_eq_some hs
        have hkey : p.1 = key := by simpa [hl] using hp.symm
        rw [List.filterMap_cons_some hs, List.filterMap_cons_some hs, List.filter_cons_of_pos (by simpa using hkey), ih]
    · rw [List.filter_cons_of_neg (by simp [hl])]
      cases hs : string? l with
      | none => rw [List.filterMap_cons_none hs, ih]
      | some p =>
        obtain ⟨hp, -⟩ := string?_eq_some hs
        rw [List.filterMap_cons_some hs, List.filter_cons_of_neg, ih]
        simp only [decide_eq_true_eq]
        rintro rfl
        exact hl hp

/-- The strings at the top are what is looked up. -/
theorem get?_strings {d : Document} (h : d.IsConsistent) (key : String) :
    Entries.get? key (Entries.ofList d.strings) = d.get? key := by
  rw [Entries.get?_ofList, strings_filter, get?_eq]
  by_cases hex : ∃ l ∈ d.linesOf key, l.path = [key]
  · obtain ⟨l, hl, hp⟩ := hex
    rw [linesOf_eq_single h hl hp, List.filter_cons_of_pos (by simp [hp])]
    cases hv : l.value <;> simp [string?, hp, hv]
  · have hno : ∀ l ∈ d.linesOf key, ¬(l.path == [key]) = true := fun l hl hp => hex ⟨l, hl, eq_of_beq hp⟩
    rw [List.filter_eq_nil_iff.2 hno, List.find?_eq_none.2 hno]
    rfl

end Document
end GraphqlCodegen.Toml
