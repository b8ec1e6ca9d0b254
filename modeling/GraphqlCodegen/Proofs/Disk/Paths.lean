import GraphqlCodegen.Destination
import GraphqlCodegen.Disk.Basic

/-!
# Where paths lead

Without links, the place that a path leads to can be read off the path (`placeOf`): its names are
followed one by one, and `..` takes the last one back. A file name behind a directory ends the place
(`placeOf_join`), and the file name that a path is taken to have ends as the path does
(`getLast?_fileName`).
-/

namespace GraphqlCodegen.Disk

namespace Path

/-! ## Parts -/

theorem split_append (a b : List Char) : ∀ (current : List Char) (n : Nat),
    split current n (a ++ '/' :: b) = split current n a ++ split [] (n + a.length + 1) b := by
  induction a with
  | nil => intro current n; rfl
  | cons c a ih =>
    intro current n
    by_cases hc : c = '/'
    · simp only [List.cons_append, split, if_pos hc, ih, List.length_cons]
      rw [show n + 1 + a.length + 1 = n + (a.length + 1) + 1 by omega]
    · simp only [List.cons_append, split, if_neg hc, ih, List.length_cons]
      rw [show n + 1 + a.length + 1 = n + (a.length + 1) + 1 by omega]

theorem split_noSlash {f : List Char} (h : '/' ∉ f) : ∀ (current : List Char) (n : Nat),
    split current n f = [⟨current ++ f, n + f.length⟩] := by
  induction f with
  | nil => intro current n; simp [split]
  | cons c f ih =>
    intro current n
    have hc : c ≠ '/' := fun hc => h (by simp [hc])
    have hf : '/' ∉ f := fun hf => h (by simp [hf])
    rw [split, if_neg hc, ih hf]
    simp only [List.append_assoc, List.singleton_append, List.length_cons]
    rw [show n + 1 + f.length = n + (f.length + 1) by omega]

theorem noSlash_split : ∀ {cs current : List Char} {n : Nat}, '/' ∉ current →
    ∀ s ∈ split current n cs, '/' ∉ s.name
  | [], current, n, h, s, hs => by
    rw [split, List.mem_singleton] at hs
    rw [hs]; exact h
  | c :: cs, current, n, h, s, hs => by
    by_cases hc : c = '/'
    · rw [split, if_pos hc, List.mem_cons] at hs
      rcases hs with rfl | hs
      · exact h
      · exact noSlash_split (by simp) s hs
    · rw [split, if_neg hc] at hs
      refine noSlash_split ?_ s hs
      simp only [List.mem_append, List.mem_singleton, not_or]
      exact ⟨h, fun he => hc he.symm⟩

theorem map_name_split : ∀ (cs current : List Char) (m n : Nat),
    (split current m cs).map Segment.name = (split current n cs).map Segment.name
  | [], _, _, _ => rfl
  | c :: cs, current, m, n => by
    by_cases hc : c = '/'
    · simp only [split, if_pos hc, List.map_cons, map_name_split cs [] (m + 1) (n + 1)]
    · simp only [split, if_neg hc, map_name_split cs (current ++ [c]) (m + 1) (n + 1)]

theorem names_eq (cs : List Char) : names cs = ((split [] 0 cs).map Segment.name).filter fun n => !n.isEmpty := by
  rw [names, List.filter_map]; rfl

theorem names_append (a b : List Char) : names (a ++ '/' :: b) = names a ++ names b := by
  simp only [names_eq, split_append, List.map_append, List.filter_append]
  rw [map_name_split b [] _ 0]

theorem names_noSlash {f : List Char} (hf : '/' ∉ f) (hne : f ≠ []) : names f = [f] := by
  rw [names, split_noSlash hf]
  cases f with
  | nil => exact absurd rfl hne
  | cons c f => simp

theorem names_slash (a : List Char) : names (a ++ ['/']) = names a := by
  rw [names_append a []]
  simp [names, split]

theorem mem_names {cs n : List Char} (h : n ∈ names cs) : n ≠ [] ∧ '/' ∉ n := by
  obtain ⟨s, hs, rfl⟩ := List.mem_map.1 h
  rw [List.mem_filter] at hs
  exact ⟨by simpa using hs.2, noSlash_split (by simp) s hs.1⟩

theorem not_isAbsolute {cs : List Char} (h : '/' ∉ cs) : isAbsolute cs = false := by
  cases cs with
  | nil => rfl
  | cons c cs =>
    simp only [isAbsolute, List.head?_cons, decide_eq_false_iff_not, Option.some.injEq]
    exact fun hc => h (by simp [hc])

/-- A name behind a directory: as it is, behind the slash that is there, or behind another one. -/
theorem toList_join {directory name : String} (h : '/' ∉ name.toList) :
    directory.toList = [] ∧ (join directory name).toList = name.toList ∨
      (∃ a, directory.toList = a ++ ['/'] ∧ (join directory name).toList = a ++ '/' :: name.toList) ∨
      directory.toList ≠ [] ∧ (join directory name).toList = directory.toList ++ '/' :: name.toList := by
  simp only [join, not_isAbsolute h, Bool.false_eq_true, if_false]
  by_cases he : directory.toList = []
  · exact .inl ⟨he, by simp [he]⟩
  · by_cases hl : directory.toList.getLast? = some '/'
    · obtain ⟨a, ha⟩ := List.getLast?_eq_some_iff.1 hl
      exact .inr (.inl ⟨a, ha, by simp [ha]⟩)
    · exact .inr (.inr ⟨he, by simp [he, hl]⟩)

theorem names_join {directory name : String} (hs : '/' ∉ name.toList) (hn : name.toList ≠ []) :
    names (join directory name).toList = names directory.toList ++ [name.toList] := by
  rcases toList_join hs with ⟨hd, hj⟩ | ⟨a, hd, hj⟩ | ⟨-, hj⟩
  · rw [hj, hd, names_noSlash hs hn]; rfl
  · rw [hj, hd, names_append, names_slash, names_noSlash hs hn]
  · rw [hj, names_append, names_noSlash hs hn]

theorem isAbsolute_join {directory name : String} (h : '/' ∉ name.toList) :
    isAbsolute (join directory name).toList = isAbsolute directory.toList := by
  rcases toList_join h with ⟨hd, hj⟩ | ⟨a, hd, hj⟩ | ⟨hd, hj⟩
  · rw [hj, hd, not_isAbsolute h]; rfl
  · rw [hj, hd]
    cases a <;> rfl
  · rw [hj]
    cases hl : directory.toList with
    | nil => exact absurd hl hd
    | cons c cs => rfl

/-! ## File names -/

/-- Characters without a slash at the end of a path are in its last part. -/
theorem split_suffix {xs : List Char} (hxs : '/' ∉ xs) : ∀ (cs current : List Char) (n : Nat),
    ∃ init name stop, split current n (cs ++ xs) = init ++ [⟨name ++ xs, stop⟩]
  | [], current, n => ⟨[], current, n + xs.length, split_noSlash hxs current n⟩
  | d :: cs, current, n => by
    by_cases hd : d = '/'
    · obtain ⟨init, name, stop, h⟩ := split_suffix hxs cs [] (n + 1)
      exact ⟨⟨current, n⟩ :: init, name, stop, by rw [List.cons_append, split, if_pos hd, h]; rfl⟩
    · obtain ⟨init, name, stop, h⟩ := split_suffix hxs cs (current ++ [d]) (n + 1)
      exact ⟨init, name, stop, by rw [List.cons_append, split, if_neg hd, h]⟩

/-- A name that does not end in a dot is none of those that stand for directories. -/
theorem append_ne_dots {xs : List Char} {c : Char} (hl : xs.getLast? = some c) (hc : c ≠ '.') (name : List Char) :
    name ++ xs ≠ [] ∧ name ++ xs ≠ ['.'] ∧ name ++ xs ≠ ['.', '.'] := by
  have hlast : (name ++ xs).getLast? = some c := by rw [List.getLast?_append, hl]; rfl
  refine ⟨fun he => ?_, fun he => ?_, fun he => ?_⟩ <;> rw [he] at hlast
  · cases hlast
  · exact hc (Option.some.inj hlast).symm
  · exact hc (Option.some.inj hlast).symm

/-- That part counts, unless it ends in a dot. -/
theorem segments_suffix {xs : List Char} {c : Char} (hxs : '/' ∉ xs) (hl : xs.getLast? = some c) (hc : c ≠ '.')
    (cs : List Char) : ∃ init name stop, segments (cs ++ xs) = init ++ [⟨name ++ xs, stop⟩] := by
  obtain ⟨init, name, stop, hs⟩ := split_suffix hxs cs [] 0
  obtain ⟨hne, hdot, -⟩ := append_ne_dots hl hc name
  have hstep : isStep ⟨name ++ xs, stop⟩ = true := by simp only [isStep, List.isEmpty_eq_false_iff.2 hne, bne_iff_ne.2 hdot]; rfl
  rw [segments, hs]
  cases init with
  | nil => exact ⟨[], name, stop, by simp [hstep]⟩
  | cons first rest =>
    exact ⟨(if isStep first || decide (first.name = ['.']) then [first] else []) ++ rest.filter isStep, name, stop,
      by simp [List.filter_append, hstep]⟩

/-- The file name is the last part that counts. -/
theorem fileName_last {path f : String} (h : fileName path = some f) :
    ∃ init s, segments path.toList = init ++ [s] ∧ f.toList = s.name ∧ s.name ≠ ['.'] ∧ s.name ≠ ['.', '.'] := by
  unfold fileName at h
  cases hl : (segments path.toList).getLast? with
  | none => rw [hl] at h; cases h
  | some s =>
    rw [hl] at h
    simp only [Bool.or_eq_true, decide_eq_true_eq] at h
    obtain ⟨init, hinit⟩ := List.getLast?_eq_some_iff.1 hl
    split at h
    · cases h
    · rename_i hs
      cases h
      rw [not_or] at hs
      exact ⟨init, s, hinit, by simp, hs.1, hs.2⟩

theorem mem_segments {cs : List Char} {s : Segment} (h : s ∈ segments cs) : s ∈ split [] 0 cs ∧ s.name ≠ [] := by
  unfold segments at h
  cases hs : split [] 0 cs with
  | nil => rw [hs] at h; cases h
  | cons first rest =>
    rw [hs] at h
    simp only [List.mem_append, List.mem_filter] at h
    rcases h with h | ⟨h, hn⟩
    · by_cases hf : (isStep first || decide (first.name = ['.'])) = true
      · rw [if_pos hf, List.mem_singleton] at h
        rw [h]
        refine ⟨List.mem_cons_self, ?_⟩
        rintro he
        simp [isStep, he] at hf
      · rw [if_neg hf] at h; cases h
    · refine ⟨List.mem_cons_of_mem _ h, ?_⟩
      rintro he
      simp [isStep, he] at hn

/-- A file name is a single name, and none of the two that stand for directories. -/
theorem fileName_spec {path f : String} (h : fileName path = some f) :
    f.toList ≠ [] ∧ '/' ∉ f.toList ∧ f ≠ "." ∧ f ≠ ".." := by
  obtain ⟨init, s, hs, hf, h1, h2⟩ := fileName_last h
  obtain ⟨hm, hn⟩ := @mem_segments path.toList s (by rw [hs]; simp)
  refine ⟨by rw [hf]; exact hn, by rw [hf]; exact noSlash_split (by simp) s hm, ?_, ?_⟩
  · rintro rfl; exact h1 hf.symm
  · rintro rfl; exact h2 hf.symm

/-- The file name ends as the path does, unless that ends in a slash or a dot. -/
theorem getLast?_fileName {path f : String} {c : Char} (hp : path.toList.getLast? = some c) (hc : c ≠ '/')
    (hd : c ≠ '.') (h : fileName path = some f) : f.toList.getLast? = some c := by
  obtain ⟨pre, hpre⟩ := List.getLast?_eq_some_iff.1 hp
  obtain ⟨init, name, stop, hs⟩ := @segments_suffix [c] c (by simpa using hc.symm) rfl hd pre
  have hlast : (segments path.toList).getLast? = some ⟨name ++ [c], stop⟩ := by rw [hpre, hs, List.getLast?_concat]
  unfold fileName at h
  rw [hlast] at h
  simp only at h
  split at h
  · cases h
  · cases h; simp

end Path

/-! ## Places -/

/-- Where names lead from a place. -/
def walk (place : Place) : List String → Place
  | [] => place
  | name :: rest => if name = "." then walk place rest else if name = ".." then walk place.up rest else walk (place ++ [name]) rest

theorem walk_append (place : Place) : ∀ ns ms : List String, walk place (ns ++ ms) = walk (walk place ns) ms
  | [], _ => rfl
  | n :: ns, ms => by
    simp only [List.cons_append, walk]
    split
    · exact walk_append place ns ms
    · split
      · exact walk_append place.up ns ms
      · exact walk_append (place ++ [n]) ns ms

theorem walk_name (place : Place) {name : String} (h : name ≠ ".") (h' : name ≠ "..") : walk place [name] = place ++ [name] := by
  simp [walk, h, h']

/-- Where a path begins. -/
def startOf (path : String) : Place := if Path.isAbsolute path.toList then Place.top else Place.here

def namesOf (path : String) : List String := (Path.names path.toList).map String.ofList

/-- The place that a path leads to. -/
def placeOf (path : String) : Place := walk (startOf path) (namesOf path)

/-- A single name that an entry of a directory can have. -/
structure IsName (n : String) : Prop where
  nonempty : n.toList ≠ []
  noSlash : '/' ∉ n.toList
  not_here : n ≠ "."
  not_up : n ≠ ".."

theorem isName_iff (n : String) :
    IsName n ↔ n.toList ≠ [] ∧ '/' ∉ n.toList ∧ n ≠ "." ∧ n ≠ ".." :=
  ⟨fun h => ⟨h.nonempty, h.noSlash, h.not_here, h.not_up⟩, fun ⟨h1, h2, h3, h4⟩ => ⟨h1, h2, h3, h4⟩⟩

instance (n : String) : Decidable (IsName n) := decidable_of_iff _ (isName_iff n).symm

theorem namesOf_join {directory name : String} (h : IsName name) :
    namesOf (Path.join directory name) = namesOf directory ++ [name] := by
  simp [namesOf, Path.names_join h.noSlash h.nonempty]

theorem startOf_join {directory name : String} (h : IsName name) : startOf (Path.join directory name) = startOf directory := by
  rw [startOf, Path.isAbsolute_join h.noSlash]
  rfl

theorem placeOf_join {directory name : String} (h : IsName name) :
    placeOf (Path.join directory name) = placeOf directory ++ [name] := by
  rw [placeOf, namesOf_join h, walk_append, walk_name _ h.not_here h.not_up, startOf_join h]
  rfl

/-- A path ends as the name does that stands last. -/
theorem getLast?_join {directory name : String} (h : IsName name) :
    (Path.join directory name).toList.getLast? = name.toList.getLast? := by
  obtain ⟨c, hc⟩ : ∃ c, name.toList.getLast? = some c := by
    cases hl : name.toList.getLast? with
    | none => exact absurd (List.getLast?_eq_none_iff.1 hl) h.nonempty
    | some c => exact ⟨c, rfl⟩
  rcases @Path.toList_join directory name h.noSlash with ⟨-, hj⟩ | ⟨a, -, hj⟩ | ⟨-, hj⟩
  · rw [hj]
  · rw [hj, List.getLast?_append, List.getLast?_cons, hc]; rfl
  · rw [hj, List.getLast?_append, List.getLast?_cons, hc]; rfl

end GraphqlCodegen.Disk
