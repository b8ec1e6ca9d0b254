import GraphqlCodegen.Proofs.Disk.Directories

/-!
# Paths that are spelled differently

Two paths differ in dots and slashes only if they begin alike and have the same names without the dots (`SameWay`). They lead to the
same place then, and where both can be walked the same is found there (`SameWay.find_eq`). The directory and the file name that a path
is taken to have give the path back but for dots and slashes (`sameWay_join_parent`).
-/

namespace GraphqlCodegen.Disk

variable {d : Disk} {p q path : String}

/-! ## Dots and slashes -/

/-- The paths differ in dots and slashes only. -/
structure SameWay (p q : String) : Prop where
  start : startOf p = startOf q
  steps : stepsOf p = stepsOf q

/-- Dots lead nowhere. -/
theorem walk_filter : ∀ (ns : List String) (place : Place), walk place (ns.filter (· != ".")) = walk place ns
  | [], _ => rfl
  | n :: ns, place => by
    by_cases hn : n = "."
    · rw [List.filter_cons_of_neg (by simp [hn]), walk, if_pos hn, walk_filter]
    · rw [List.filter_cons_of_pos (by simp [hn]), walk, walk, if_neg hn, if_neg hn, walk_filter, walk_filter]

theorem placeOf_eq_walk (path : String) : placeOf path = walk (startOf path) (stepsOf path) := (walk_filter _ _).symm

theorem SameWay.placeOf_eq (h : SameWay p q) : placeOf p = placeOf q := by
  rw [placeOf_eq_walk, placeOf_eq_walk, h.start, h.steps]

/-- The path ends in the name of an entry, behind the others. -/
structure EndsInName (path : String) (init : List String) (name : String) : Prop where
  names : namesOf path = init ++ [name]
  not_here : name ≠ "."
  not_up : name ≠ ".."
  noSlash : path.toList.getLast? ≠ some '/'

theorem EndsInName.steps {init : List String} {name : String} (h : EndsInName path init name) :
    stepsOf path = init.filter (· != ".") ++ [name] := by
  rw [stepsOf, h.names, List.filter_append, List.filter_cons_of_pos (by simpa using h.not_here), List.filter_nil]

/-- What is found at the end of such a path is what has the name in the directory. -/
theorem EndsInName.find_eq {init : List String} {name : String} (h : EndsInName path init name) (hr : Routed path) :
    d.find path = (d.enter (startOf path) init).bind fun dir =>
      if name.utf8ByteSize > nameLimit then .error .nameTooLong else .ok (dir ++ [name], d.get? (dir ++ [name])) := by
  obtain ⟨r, hr⟩ := hr
  obtain ⟨hs, hns, hslash⟩ := route_ok hr
  have hlast : r.last? = some name := by
    rw [Route.last?, hns, h.names, List.getLast?_concat]
    simp [h.not_here, h.not_up]
  have hends : r.endsInSlash = false := by
    rw [← Bool.not_eq_true, hslash]
    exact h.noSlash
  rw [find, hr]
  simp only [bind, Except.bind, hlast, hends, hs, hns, h.names, List.dropLast_concat]
  rfl

/-- The same is found at the ends of both paths. -/
theorem SameWay.find_eq (h : SameWay p q) {init init' : List String} {name name' : String} (hp : EndsInName p init name)
    (hq : EndsInName q init' name') (hrp : Routed p) (hrq : Routed q) : d.find p = d.find q := by
  have hsteps := h.steps
  rw [hp.steps, hq.steps] at hsteps
  obtain ⟨hinit, hname⟩ := List.append_inj' hsteps rfl
  obtain rfl := (List.cons.inj hname).1
  rw [hp.find_eq hrp, hq.find_eq hrq, h.start, ← enter_filter, hinit, enter_filter]

/-! ## Names behind directories -/

variable {directory name : String}

theorem endsInName_join (h : IsName name) : EndsInName (Path.join directory name) (namesOf directory) name := by
  refine ⟨namesOf_join h, h.not_here, h.not_up, ?_⟩
  rw [getLast?_join h]
  exact fun hl => h.noSlash (List.mem_of_getLast? hl)

theorem stepsOf_join (h : IsName name) : stepsOf (Path.join directory name) = stepsOf directory ++ [name] :=
  (endsInName_join h).steps

theorem sameWay_join {directory' : String} (h : IsName name) (hd : SameWay directory directory') :
    SameWay (Path.join directory name) (Path.join directory' name) :=
  ⟨by rw [startOf_join h, startOf_join h, hd.start], by rw [stepsOf_join h, stepsOf_join h, hd.steps]⟩

/-! ## File names -/

namespace Path

theorem parent_isSome {init : List Segment} {s : Segment} (h : segments path.toList = init ++ [s]) :
    ∃ p, parent path = some p := by
  rw [parent, h, List.reverse_concat]
  cases init.reverse <;> exact ⟨_, rfl⟩

end Path

/-- The parts that count give the names without the dots. -/
theorem stepsOf_segments (path : String) :
    stepsOf path = ((Path.segments path.toList).filter Path.isStep).map fun s => String.ofList s.name := by
  obtain ⟨first, rest, hsplit, -⟩ := Path.split_head path.toList [] 0
  rw [stepsOf_split, Path.segments_eq hsplit, hsplit, List.filter_append, List.filter_filter]
  by_cases hf : Path.isStep first = true
  · simp [hf]
  · by_cases hd : first.name = ['.'] <;> simp [hf, hd]

/-- In front of the file name is the parent. -/
theorem stepsOf_fileName {f : String} (h : Path.fileName path = some f) :
    ∃ p, Path.parent path = some p ∧ Over p path ∧ stepsOf path = stepsOf p ++ [f] := by
  obtain ⟨init, s, hseg, hf, hdot, -⟩ := Path.fileName_last h
  have hne := (@Path.mem_segments path.toList s (by rw [hseg]; simp)).2
  have hstep : Path.isStep s = true := by simp [Path.isStep, hne, hdot]
  obtain ⟨p, hp⟩ := Path.parent_isSome hseg
  have hover := over_of_parent hp
  refine ⟨p, hp, hover, ?_⟩
  rw [hover.steps, stepsOf_segments, hseg, List.filter_append, List.filter_cons_of_pos hstep, ← String.ofList_toList (s := f), hf]
  simp

/-- The file name behind the parent is the path again. -/
theorem sameWay_join_parent {f : String} (h : Path.fileName path = some f) :
    ∃ p, Path.parent path = some p ∧ SameWay (Path.join p f) path := by
  obtain ⟨p, hp, hover, hsteps⟩ := stepsOf_fileName h
  obtain ⟨hne, hslash, hhere, hup⟩ := Path.fileName_spec h
  have hname : IsName f := ⟨hne, hslash, hhere, hup⟩
  exact ⟨p, hp, by rw [startOf_join hname, hover.start], by rw [stepsOf_join hname, hsteps]⟩

/-! ## Extensions -/

/-- What a file name can end in. -/
structure IsExtension (x : String) : Prop where
  noSlash : '/' ∉ x.toList
  ends : ∃ c, x.toList.getLast? = some c ∧ c ≠ '.'

/-- A path that ends in an extension ends in a name. -/
theorem IsExtension.endsInName {x : String} (hx : IsExtension x) (h : x.toList <:+ path.toList) :
    ∃ init name, EndsInName path init name := by
  obtain ⟨c, hc, hdot⟩ := hx.ends
  obtain ⟨pre, hpre⟩ := h
  obtain ⟨init, name, stop, hsplit⟩ := Path.split_suffix hx.noSlash pre [] 0
  obtain ⟨hne, hhere, hup⟩ := Path.append_ne_dots hc hdot name
  refine ⟨((init.filter fun s => !s.name.isEmpty).map Segment.name).map String.ofList, String.ofList (name ++ x.toList), ?_,
    fun he => hhere (String.ofList_injective he), fun he => hup (String.ofList_injective he), ?_⟩
  · rw [namesOf, Path.names, ← hpre, hsplit, List.filter_append, List.filter_cons_of_pos (by simpa using hne)]
    simp
  · rw [← hpre, List.getLast?_append, hc]
    rintro he
    exact hx.noSlash (List.mem_of_getLast? (hc.trans he))

/-- A path that ends in an extension has a file name, with the same end. -/
theorem IsExtension.fileName {x : String} (hx : IsExtension x) (h : x.toList <:+ path.toList) :
    ∃ f, Path.fileName path = some f ∧ x.toList <:+ f.toList := by
  obtain ⟨c, hc, hdot⟩ := hx.ends
  obtain ⟨pre, hpre⟩ := h
  obtain ⟨init, name, stop, hsegments⟩ := Path.segments_suffix hx.noSlash hc hdot pre
  obtain ⟨-, hhere, hup⟩ := Path.append_ne_dots hc hdot name
  refine ⟨String.ofList (name ++ x.toList), ?_, name, by simp⟩
  rw [Path.fileName, ← hpre, hsegments, List.getLast?_concat]
  simp [hhere, hup]

end GraphqlCodegen.Disk
