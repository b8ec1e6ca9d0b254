import GraphqlCodegen.Proofs.Disk.Walking

/-!
# Paths and what is above them

The path in front of another one is cut behind the part that counts before the last one (`parent_cases`), and the ancestors of a
path are found by going up one by one (`over_of_parent`). A path may end in dots (`EndsInDot`), and these are dropped with the
last part: the path in front of `a/.` is the empty one. So no ancestor of a path ends in dots, unless it has dots only (`Ends`).

A path that begins in the working directory and never steps up is plain: its place is what is left of its names without the
dots (`Plain.placeOf_eq`). In front of a plain path is the one that leads to the place above (`Plain.exists_above`).
-/

namespace GraphqlCodegen.Disk

/-- The path begins in the working directory and does not step up. -/
structure Plain (path : String) : Prop where
  relative : Path.isAbsolute path.toList = false
  noUp : ".." ∉ namesOf path

/-- The last name on the path is a dot. -/
def EndsInDot (path : String) : Prop := (namesOf path).getLast? = some "."

/-- The path does not end in a dot behind a name. -/
def Direct (path : String) : Prop := EndsInDot path → placeOf path = []

theorem walk_eq : ∀ {ns : List String} {place : Place}, ".." ∉ ns → walk place ns = place ++ ns.filter (· != ".")
  | [], place, _ => by simp [walk]
  | n :: ns, place, h => by
    simp only [List.mem_cons, not_or] at h
    rw [walk]
    by_cases hn : n = "."
    · rw [if_pos hn, walk_eq h.2, List.filter_cons_of_neg (by simp [hn])]
    · rw [if_neg hn, if_neg (fun he => h.1 he.symm), walk_eq h.2, List.filter_cons_of_pos (by simp [hn])]
      simp

theorem Plain.placeOf_eq {path : String} (h : Plain path) : placeOf path = (namesOf path).filter (· != ".") := by
  rw [placeOf, walk_eq h.noUp, startOf, h.relative]
  rfl

/-- Names by which entries are created. -/
def AreNames (ns : List String) : Prop := ∀ n ∈ ns, n ≠ "" ∧ n ≠ "." ∧ n ≠ ".."

theorem AreNames.cons {n : String} {ns : List String} (h : AreNames (n :: ns)) :
    n ≠ "" ∧ n ≠ "." ∧ n ≠ ".." ∧ AreNames ns :=
  ⟨(h n List.mem_cons_self).1, (h n List.mem_cons_self).2.1, (h n List.mem_cons_self).2.2,
    fun m hm => h m (List.mem_cons_of_mem _ hm)⟩

theorem AreNames.walk_eq {ns : List String} (h : AreNames ns) (place : Place) : walk place ns = place ++ ns := by
  rw [Disk.walk_eq fun hm => (h _ hm).2.2 rfl, List.filter_eq_self.2 fun n hn => by simpa using (h n hn).2.1]

theorem Plain.areNames {path : String} (h : Plain path) : AreNames (placeOf path) := by
  intro n hn
  rw [h.placeOf_eq, List.mem_filter] at hn
  refine ⟨namesOf_ne_empty hn.1, by simpa using hn.2, ?_⟩
  rintro rfl
  exact h.noUp hn.1

theorem getLast?_placeOf {path : String} (h : Plain path) (hd : ¬EndsInDot path) :
    (namesOf path).getLast? = (placeOf path).getLast? := by
  rw [h.placeOf_eq]
  cases hl : (namesOf path).getLast? with
  | none => rw [List.getLast?_eq_none_iff.1 hl]; rfl
  | some n =>
    obtain ⟨init, hi⟩ := List.getLast?_eq_some_iff.1 hl
    have hn : n ≠ "." := by
      rintro rfl
      exact hd hl
    rw [hi, List.filter_append, List.filter_cons_of_pos (by simp [hn])]
    simp

namespace Path

/-! ## Cutting a path -/

theorem le_stop : ∀ {cs current : List Char} {n : Nat}, ∀ s ∈ split current n cs, n ≤ s.stop
  | [], current, n, s, hs => by
    rw [split, List.mem_singleton] at hs
    simp [hs]
  | c :: cs, current, n, s, hs => by
    by_cases hc : c = '/'
    · rw [split, if_pos hc, List.mem_cons] at hs
      rcases hs with rfl | hs
      · exact Nat.le_refl _
      · exact Nat.le_of_succ_le (le_stop s hs)
    · rw [split, if_neg hc] at hs
      exact Nat.le_of_succ_le (le_stop s hs)

/-- A path that is cut where a part ends has the parts up to this one. -/
theorem split_take : ∀ {cs current : List Char} {n : Nat} {before after : List Segment} {s : Segment},
    split current n cs = before ++ s :: after → split current n (cs.take (s.stop - n)) = before ++ [s]
  | [], current, n, before, after, s, h => by
    cases before with
    | nil => rw [split] at h; cases h; simp [split]
    | cons b before => rw [split] at h; simp at h
  | c :: cs, current, n, before, after, s, h => by
    by_cases hc : c = '/'
    · rw [split, if_pos hc] at h
      cases before with
      | nil => cases h; simp [split]
      | cons b before =>
        obtain ⟨rfl, ht⟩ := List.cons.inj h
        replace ht : split [] (n + 1) cs = before ++ s :: after := ht
        have hle := @le_stop cs [] (n + 1) s (by rw [ht]; simp)
        have ih := split_take ht
        rw [show s.stop - n = s.stop - (n + 1) + 1 by omega, List.take_succ_cons, split, if_pos hc, ih]
        rfl
    · rw [split, if_neg hc] at h
      have hle := @le_stop cs (current ++ [c]) (n + 1) s (by rw [h]; simp)
      have ih := split_take h
      rw [show s.stop - n = s.stop - (n + 1) + 1 by omega, List.take_succ_cons, split, if_neg hc, ih]

theorem split_head : ∀ (cs current : List Char) (n : Nat), ∃ s rest, split current n cs = s :: rest ∧ current <+: s.name
  | [], current, n => ⟨_, _, rfl, List.prefix_refl _⟩
  | c :: cs, current, n => by
    by_cases hc : c = '/'
    · exact ⟨_, _, by rw [split, if_pos hc], List.prefix_refl _⟩
    · obtain ⟨s, rest, h, hp⟩ := split_head cs (current ++ [c]) (n + 1)
      exact ⟨s, rest, by rw [split, if_neg hc, h], (List.prefix_append current [c]).trans hp⟩

/-- The first part of a path that begins in the working directory always counts. -/
theorem segments_relative {cs : List Char} (hr : isAbsolute cs = false) (hne : cs ≠ []) :
    ∃ first rest, split [] 0 cs = first :: rest ∧ first.name ≠ [] ∧ segments cs = first :: rest.filter isStep := by
  cases cs with
  | nil => exact absurd rfl hne
  | cons c cs =>
    have hc : c ≠ '/' := by simpa [isAbsolute] using hr
    obtain ⟨first, rest, h, hp⟩ := split_head cs [c] 1
    have hs : split [] 0 (c :: cs) = first :: rest := by rw [split, if_neg hc]; exact h
    have hn : first.name ≠ [] := by
      intro he
      rw [he] at hp
      simp at hp
    refine ⟨first, rest, hs, hn, ?_⟩
    rw [segments, hs]
    simp only
    rw [if_pos, List.singleton_append]
    by_cases hd : first.name = ['.'] <;> simp [isStep, hn, hd]

/-- The last part that counts, among parts. -/
theorem filter_step {rest counting : List Segment} {s : Segment} (h : rest.filter isStep = counting ++ [s]) :
    ∃ before after, rest = before ++ s :: after ∧ before.filter isStep = counting ∧ after.filter isStep = [] ∧
      isStep s = true := by
  obtain ⟨l₁, l₂, rfl, h1, h2⟩ := List.filter_eq_append_iff.1 h
  obtain ⟨l₃, l₄, rfl, h3, h4, h5⟩ := List.filter_eq_cons_iff.1 h2
  refine ⟨l₁ ++ l₃, l₄, by simp, ?_, h5, h4⟩
  rw [List.filter_append, h1, List.filter_eq_nil_iff.2 h3, List.append_nil]

theorem segments_eq {cs : List Char} {first : Segment} {rest : List Segment} (h : split [] 0 cs = first :: rest) :
    segments cs = (if isStep first || first.name = ['.'] then [first] else []) ++ rest.filter isStep := by
  rw [segments, h]

theorem IsStep.ne {s : Segment} (h : isStep s = true) : s.name ≠ [] := by
  intro he
  simp [isStep, he] at h

/-- The last two parts that count, among all parts; only the first part of all counts without a name. -/
theorem split_segments {cs : List Char} {pre : List Segment} {b s : Segment} (h : segments cs = pre ++ [b, s]) :
    ∃ front behind after, split [] 0 cs = front ++ b :: (behind ++ s :: after) ∧ b.name ≠ [] ∧
      (isStep b = true ∨ front = []) ∧ behind.filter isStep = [] ∧ isStep s = true ∧ after.filter isStep = [] := by
  obtain ⟨first, rest, hsplit, -⟩ := split_head cs [] 0
  rw [segments_eq hsplit] at h
  have hcases : (first = b ∧ first.name ≠ [] ∧ rest.filter isStep = [s]) ∨ ∃ pre', rest.filter isStep = pre' ++ [b, s] := by
    split at h
    · rename_i hcounts
      cases pre with
      | nil =>
        obtain ⟨hb, hs⟩ := List.cons.inj h
        refine .inl ⟨hb, fun he => ?_, hs⟩
        simp [isStep, he] at hcounts
      | cons x pre' => exact .inr ⟨pre', (List.cons.inj h).2⟩
    · exact .inr ⟨pre, h⟩
  rw [hsplit]
  rcases hcases with ⟨rfl, hne, hs⟩ | ⟨pre', hpre⟩
  · obtain ⟨behind, after, rfl, hbehind, hafter, hstep⟩ := filter_step (show _ = [] ++ [s] from hs)
    exact ⟨[], behind, after, rfl, hne, .inr rfl, hbehind, hstep, hafter⟩
  · rw [show pre' ++ [b, s] = (pre' ++ [b]) ++ [s] by simp] at hpre
    obtain ⟨before, after, rfl, hbefore, hafter, hs⟩ := filter_step hpre
    obtain ⟨front, behind, rfl, -, hbehind, hb⟩ := filter_step hbefore
    exact ⟨first :: front, behind, after, by simp, IsStep.ne hb, .inl hb, hbehind, hs, hafter⟩

/-- In front of the last part that counts nothing else counts, or the path is cut behind the part that counts before it. -/
theorem parent_cases {path p : String} (h : parent path = some p) :
    (p = (if isAbsolute path.toList then "/" else "") ∧ ∃ s, segments path.toList = [s]) ∨
    ∃ front b behind s after, split [] 0 path.toList = front ++ b :: (behind ++ s :: after) ∧
      p = String.ofList (path.toList.take b.stop) ∧ b.name ≠ [] ∧ (isStep b = true ∨ front = []) ∧
      behind.filter isStep = [] ∧ isStep s = true ∧ after.filter isStep = [] := by
  unfold parent at h
  split at h
  · cases h
  · rename_i s hrev
    exact .inl ⟨(Option.some.inj h).symm, s, by simpa using congrArg List.reverse hrev⟩
  · rename_i s b pre hrev
    have hseg : segments path.toList = pre.reverse ++ [b, s] := by simpa using congrArg List.reverse hrev
    obtain ⟨front, behind, after, hsplit, hcounts⟩ := split_segments hseg
    exact .inr ⟨front, b, behind, s, after, hsplit, (Option.some.inj h).symm, hcounts⟩

end Path

theorem ofList_eq_dot {n : List Char} : String.ofList n = "." ↔ n = ['.'] :=
  ⟨fun h => by simpa using congrArg String.toList h, fun h => by rw [h]⟩

/-! ## Going up -/

theorem ancestors_eq {p path : String} (hp : Path.parent path = some p)
    (hl : (Path.segments path.toList).length = (Path.segments p.toList).length + 1) :
    Path.ancestors path = path :: Path.ancestors p := by
  rw [Path.ancestors, Path.ancestorsWithin, hp, hl]
  rfl

variable {path p : String}

/-- The names of a path without dots. -/
def stepsOf (path : String) : List String := (namesOf path).filter (· != ".")

theorem stepsOf_split (path : String) :
    stepsOf path = ((Path.split [] 0 path.toList).filter Path.isStep).map fun s => String.ofList s.name := by
  rw [stepsOf, namesOf, Path.names, List.filter_map, List.filter_map, List.filter_filter, List.map_map]
  congr 1
  refine List.filter_congr fun s _ => ?_
  by_cases hn : s.name = ['.']
  · simp [Path.isStep, hn]
  · have hd : String.ofList s.name ≠ "." := fun hd => hn (ofList_eq_dot.1 hd)
    simp only [Function.comp_apply, Path.isStep, bne_iff_ne.2 hd, bne_iff_ne.2 hn, Bool.true_and, Bool.and_true]

theorem length_stepsOf_le (path : String) : (stepsOf path).length ≤ (Path.segments path.toList).length := by
  obtain ⟨first, rest, hsplit, -⟩ := Path.split_head path.toList [] 0
  rw [stepsOf_split, hsplit, List.length_map, Path.segments_eq hsplit, List.length_append, List.filter_cons]
  by_cases hf : Path.isStep first = true
  · rw [if_pos hf, hf, Bool.true_or, if_pos rfl, List.length_cons, List.length_singleton]
    omega
  · rw [if_neg hf]
    exact Nat.le_add_left _ _

/-- The path ends in a name or a step up, or has nothing but dots. -/
def Ends (path : String) : Prop := EndsInDot path → stepsOf path = []

/-- `p` is what is in front of the last part of `path`. -/
structure Over (p path : String) : Prop where
  start : startOf p = startOf path
  steps : stepsOf p = (stepsOf path).dropLast
  ends : Ends p
  ancestors : Path.ancestors path = path :: Path.ancestors p
  initial : p.toList <+: path.toList
  fewer : (Path.segments p.toList).length < (Path.segments path.toList).length

theorem Over.of_lone {s : Segment} (h : Path.parent path = some p) (hp : p = if Path.isAbsolute path.toList then "/" else "")
    (hs : Path.segments path.toList = [s]) : Over p path := by
  have hnone : Path.segments p.toList = [] ∧ stepsOf p = [] := by
    rw [hp]
    split <;> exact ⟨rfl, rfl⟩
  have hone := length_stepsOf_le path
  rw [hs] at hone
  refine ⟨?_, ?_, fun _ => hnone.2, ancestors_eq h (by rw [hs, hnone.1]; rfl), ?_, by rw [hs, hnone.1]; exact Nat.zero_lt_one⟩
  · rw [hp, startOf, startOf]
    split <;> rfl
  · rw [hnone.2, List.eq_nil_of_length_eq_zero (l := (stepsOf path).dropLast)]
    rw [List.length_dropLast]
    exact Nat.sub_eq_zero_of_le hone
  · rw [hp]
    split
    · rename_i habs
      cases hcs : path.toList with
      | nil => rw [hcs] at habs; cases habs
      | cons c cs =>
        rw [hcs] at habs
        obtain rfl : c = '/' := by simpa [Path.isAbsolute] using habs
        exact ⟨cs, rfl⟩
    · exact List.nil_prefix

theorem Over.of_cut {front behind after : List Segment} {b s : Segment} (h : Path.parent path = some p)
    (hparts : Path.split [] 0 path.toList = front ++ b :: (behind ++ s :: after))
    (hp : p = String.ofList (path.toList.take b.stop)) (hb : b.name ≠ [])
    (hstep : Path.isStep b = true ∨ front = []) (hbehind : behind.filter Path.isStep = []) (hs : Path.isStep s = true)
    (hafter : after.filter Path.isStep = []) : Over p path := by
  have hsplit : Path.split [] 0 p.toList = front ++ [b] := by
    rw [hp, String.toList_ofList]
    exact Path.split_take hparts
  have hinitial : p.toList <+: path.toList := by
    rw [hp, String.toList_ofList]
    exact List.take_prefix _ _
  have hne : p.toList ≠ [] := by
    intro he
    rw [he, Path.split] at hsplit
    have hmem : b ∈ [(⟨[], 0⟩ : Segment)] := by rw [hsplit]; simp
    exact hb (by rw [List.mem_singleton.1 hmem])
  have hsegments : Path.segments path.toList = Path.segments p.toList ++ [s] := by
    have hfilter : ∀ l : List Segment, (l ++ behind ++ s :: after).filter Path.isStep = l.filter Path.isStep ++ [s] := by
      intro l
      rw [List.filter_append, List.filter_append, hbehind, List.filter_cons_of_pos hs, hafter, List.append_nil]
    cases front with
    | nil =>
      rw [Path.segments_eq hparts, Path.segments_eq hsplit, ← List.nil_append behind, hfilter, List.append_assoc]
    | cons first front =>
      rw [Path.segments_eq hparts, Path.segments_eq hsplit, List.append_assoc, ← hfilter]
      simp
  refine ⟨?_, ?_, fun hdot => ?_, ancestors_eq h (by rw [hsegments]; simp), hinitial, by rw [hsegments]; simp⟩
  · rw [startOf, startOf, Path.isAbsolute, Path.isAbsolute]
    obtain ⟨tail, htail⟩ := hinitial
    rw [← htail]
    cases hcs : p.toList with
    | nil => exact absurd hcs hne
    | cons c cs => rfl
  · have hsplit' : Path.split [] 0 path.toList = (front ++ [b]) ++ (behind ++ s :: after) := by rw [hparts]; simp
    rw [stepsOf_split, stepsOf_split, hsplit, hsplit', List.filter_append (front ++ [b]), List.filter_append behind, hbehind,
      List.filter_cons_of_pos hs, hafter]
    simp
  · rw [EndsInDot, namesOf, Path.names, hsplit, List.filter_append, List.filter_cons_of_pos (by simpa using hb)] at hdot
    have hbdot : b.name = ['.'] := ofList_eq_dot.1 (by simpa using hdot)
    rcases hstep with hstep | rfl
    · simp [Path.isStep, hbdot] at hstep
    · rw [stepsOf_split, hsplit]
      simp [Path.isStep, hbdot]

theorem over_of_parent (h : Path.parent path = some p) : Over p path := by
  rcases Path.parent_cases h with ⟨hp, s, hs⟩ | ⟨front, b, behind, s, after, hparts, hp, hb, hstep, hbehind, hs, hafter⟩
  · exact .of_lone h hp hs
  · exact .of_cut h hparts hp hb hstep hbehind hs hafter

/-! ## Going up from a plain path -/

/-- `p` is in front of the last name of `path`. -/
structure Above (p path : String) : Prop where
  plain : Plain p
  direct : Direct p
  place : placeOf p = (placeOf path).dropLast
  ancestors : Path.ancestors path = path :: Path.ancestors p
  initial : p.toList <+: path.toList
  fewer : (Path.segments p.toList).length < (Path.segments path.toList).length

theorem placeOf_empty : placeOf "" = [] := rfl

theorem Plain.stepsOf_eq (h : Plain path) : stepsOf path = placeOf path := h.placeOf_eq.symm

theorem mem_stepsOf_up : ".." ∈ stepsOf path ↔ ".." ∈ namesOf path := by
  rw [stepsOf, List.mem_filter]
  exact and_iff_left (by decide)

/-- In front of a plain path is a plain path. -/
theorem Over.plain (h : Over p path) (hp : Plain path) : Plain p := by
  refine ⟨?_, fun hup => hp.noUp ?_⟩
  · have hstart := h.start
    rw [startOf, startOf, hp.relative] at hstart
    cases hp' : Path.isAbsolute p.toList with
    | false => rfl
    | true => rw [hp'] at hstart; cases hstart
  · rw [← mem_stepsOf_up] at hup ⊢
    rw [h.steps] at hup
    exact List.dropLast_subset _ hup

theorem Plain.exists_above (h : Plain path) (hne : path ≠ "") : ∃ p, Above p path := by
  have hcs : path.toList ≠ [] := fun he => hne (by simpa using congrArg String.ofList he)
  obtain ⟨first, rest, -, -, hseg⟩ := Path.segments_relative h.relative hcs
  have hparent : Path.parent path ≠ none := by
    intro hnone
    unfold Path.parent at hnone
    split at hnone
    · rename_i hrev
      rw [hseg, List.reverse_eq_nil_iff] at hrev
      cases hrev
    · cases hnone
    · cases hnone
  obtain ⟨p, hp⟩ := Option.ne_none_iff_exists'.1 hparent
  have hover := over_of_parent hp
  have hplain := hover.plain h
  refine ⟨p, hplain, fun hdot => ?_, ?_, hover.ancestors, hover.initial, hover.fewer⟩
  · rw [← hplain.stepsOf_eq]
    exact hover.ends hdot
  · rw [← hplain.stepsOf_eq, hover.steps, h.stepsOf_eq]

end GraphqlCodegen.Disk
