import GraphqlCodegen.Proofs.Disk.Parents

/-!
# Trees of directories

On a disk that is a tree, whatever stands somewhere stands in a directory (`IsTree`), and all that is done
to the disk keeps it so. Along names, directories can be opened one after the other (`openAll`), up to the
first name that is too long or names a file. That comes to the same on a disk that only has more
directories on the way (`openAll_ahead`).
-/

namespace GraphqlCodegen.Disk

variable {d d' : Disk}

/-! ## Trees -/

/-- What stands behind a place stands in a directory. -/
def IsTree (d : Disk) : Prop := ∀ place name, d.get? (place ++ [name]) ≠ none → d.get? place = some .directory

theorem IsTree.above (h : IsTree d) : ∀ {ns : List String} {p : Place}, ns ≠ [] → d.get? (p ++ ns) ≠ none →
    d.get? p = some .directory
  | [n], p, _, hg => h p n hg
  | n :: m :: ns, p, _, hg => by
    have hd : d.get? (p ++ [n]) = some .directory := h.above (List.cons_ne_nil m ns) (by simpa using hg)
    exact h p n (by rw [hd]; simp)

theorem IsTree.put (h : IsTree d) {p : Place} {n : String} (e : Entry) (hn : n ≠ "") (hp : d.get? p = some .directory)
    (hd : d.get? (p ++ [n]) ≠ some .directory) : IsTree (d.put (p ++ [n]) e) := by
  obtain ⟨hh, ht⟩ := @append_ne p n hn
  intro q m hq
  rw [get?_put hh ht] at hq ⊢
  by_cases hqm : q ++ [m] = p ++ [n]
  · obtain ⟨rfl, -⟩ := List.append_inj' hqm rfl
    rw [if_neg (by simp), hp]
  · rw [if_neg hqm] at hq
    have hdir := h q m hq
    by_cases hqp : q = p ++ [n]
    · rw [hqp] at hdir
      exact absurd hdir hd
    · rw [if_neg hqp, hdir]

/-- A disk is a tree if each of its entries is in a directory. -/
theorem isTree_of_entries (h : ∀ e ∈ d.entries, d.get? e.1.dropLast = some .directory) : IsTree d := by
  intro place name hg
  unfold get? at hg
  split at hg
  · rename_i htop
    have hnil : place = [] := by
      cases place with
      | nil => rfl
      | cons n ns => simp [Place.here, Place.top] at htop
    rw [hnil]
    rfl
  · obtain ⟨e, he⟩ := Option.ne_none_iff_exists'.1 hg
    obtain ⟨x, hx, -⟩ := Option.map_eq_some_iff.1 he
    have hplace : x.1 = place ++ [name] := by simpa using List.find?_some hx
    have hdir := h x (List.mem_of_find?_eq_some hx)
    rwa [hplace, List.dropLast_concat] at hdir

theorem IsTree.up (h : IsTree d) {p : Place} (hp : d.get? p = some .directory) : d.get? p.up = some .directory := by
  unfold Place.up
  split
  · rfl
  · rcases List.eq_nil_or_concat p with rfl | ⟨q, n, rfl⟩
    · rfl
    · rw [List.concat_eq_append] at hp ⊢
      rw [List.dropLast_concat]
      exact h q n (by rw [hp]; simp)

theorem IsTree.enter (h : IsTree d) : ∀ {ns : List String} {p q : Place}, d.get? p = some .directory →
    d.enter p ns = .ok q → d.get? q = some .directory
  | [], _, _, hp, he => by cases he; exact hp
  | n :: ns, p, q, hp, he => by
    rcases enter_cons_ok.1 he with ⟨-, he⟩ | ⟨-, -, he⟩ | ⟨-, -, -, hd, he⟩
    · exact h.enter hp he
    · exact h.enter (h.up hp) he
    · exact h.enter hd he

theorem get?_startOf (d : Disk) (path : String) : d.get? (startOf path) = some .directory := by
  unfold startOf
  split <;> rfl

theorem IsTree.makeDirectory (h : IsTree d) {path : String} (hm : d.makeDirectory path = .ok d') : IsTree d' := by
  obtain ⟨dir, name, hname, he, -, hn, rfl⟩ := makeDirectory_ok hm
  exact h.put .directory hname (h.enter (get?_startOf d path) he) (by rw [hn]; simp)

theorem IsTree.makeAll : ∀ (paths : List String) {d : Disk}, IsTree d → IsTree (d.makeAll paths).1
  | [], _, h => h
  | path :: parents, d, h => by
    have ih := IsTree.makeAll parents h
    rw [Disk.makeAll]
    cases hm : d.makeDirectory path with
    | ok d₁ => exact h.makeDirectory hm
    | error e =>
      cases e with
      | notFound =>
        simp only
        cases hp : d.makeAll parents with
        | mk d₁ failure =>
          rw [hp] at ih
          cases failure with
          | some e => exact ih
          | none =>
            simp only
            cases hm' : d₁.makeDirectory path with
            | ok d₂ => exact IsTree.makeDirectory ih hm'
            | error e => exact ih
      | _ => exact h

theorem IsTree.write (h : IsTree d) {path text : String} (hw : d.write path text = .ok d') : IsTree d' := by
  obtain ⟨dir, name, hname, he, -, hg, -, rfl⟩ := write_put hw
  exact h.put _ hname (h.enter (get?_startOf d path) he) hg

/-! ## Names -/

theorem enter_name {n : String} {ns : List String} {p : Place} (h : n ≠ ".") (h' : n ≠ "..") :
    d.enter p (n :: ns) = if n.utf8ByteSize > nameLimit then .error .nameTooLong
      else match d.get? (p ++ [n]) with
        | none => .error .notFound
        | some (.file _) => .error .notDirectory
        | some .directory => d.enter (p ++ [n]) ns :=
  (if_neg h).trans (if_neg h')

theorem enter_append : ∀ {ns ms : List String} {p : Place},
    d.enter p (ns ++ ms) = (d.enter p ns).bind fun q => d.enter q ms
  | [], ms, p => rfl
  | n :: ns, ms, p => by
    rw [List.cons_append, enter, enter]
    split
    · exact enter_append
    · split
      · exact enter_append
      · split
        · rfl
        · split
          · rfl
          · rfl
          · exact enter_append

theorem AreNames.enter_eq {ns : List String} {p q : Place} (h : AreNames ns) (he : d.enter p ns = .ok q) : q = p ++ ns := by
  rw [enter_ok he, h.walk_eq]

/-- Dots are passed by. -/
theorem enter_filter : ∀ {ns : List String} {p : Place}, d.enter p (ns.filter (· != ".")) = d.enter p ns
  | [], _ => rfl
  | n :: ns, p => by
    by_cases h1 : n = "."
    · rw [List.filter_cons_of_neg (by simp [h1]), enter, if_pos h1, enter_filter]
    · rw [List.filter_cons_of_pos (by simp [h1]), enter, enter, if_neg h1, if_neg h1, enter_filter, enter_filter]

/-- Where a directory stands in a tree, the names that lead to it can be entered, if none is too long. -/
theorem IsTree.enter_of_get? (h : IsTree d) : ∀ {ns : List String} {p q : Place}, AreNames ns → d'.enter p ns = .ok q →
    d.get? (p ++ ns) = some .directory → d.enter p ns = .ok (p ++ ns)
  | [], p, q, _, _, _ => by simp [Disk.enter]
  | n :: ns, p, q, hns, he, hg => by
    obtain ⟨-, h1, h2, hns⟩ := hns.cons
    rw [enter_name h1 h2]
    rcases enter_cons_ok.1 he with ⟨hc, -⟩ | ⟨-, hc, -⟩ | ⟨-, -, h3, -, he⟩
    · exact absurd hc h1
    · exact absurd hc h2
    · have hpn : d.get? (p ++ [n]) = some .directory := by
        cases ns with
        | nil => exact hg
        | cons m ns => exact h.above (List.cons_ne_nil m ns) (by simp [hg])
      rw [if_neg h3, hpn]
      simp only
      rw [h.enter_of_get? hns he (by simpa using hg)]
      simp

/-- In a tree, names that lead to something are all there. -/
theorem IsTree.enter_ne_notFound (h : IsTree d) : ∀ {ns : List String} {p : Place}, AreNames ns → d.get? (p ++ ns) ≠ none →
    d.enter p ns ≠ .error .notFound
  | [], p, _, _ => by simp [Disk.enter]
  | n :: ns, p, hns, hg => by
    obtain ⟨-, h1, h2, hns⟩ := hns.cons
    rw [enter_name h1 h2]
    split
    · simp
    · cases hpn : d.get? (p ++ [n]) with
      | none =>
        cases ns with
        | nil => exact absurd hpn hg
        | cons m ns => rw [h.above (List.cons_ne_nil m ns) (by simpa using hg)] at hpn; cases hpn
      | some e =>
        cases e with
        | file c => simp
        | directory => exact h.enter_ne_notFound hns (by simpa using hg)

/-! ## Opening names one by one -/

/-- Directories are created along names, up to the first name that is too long or names a file. `last` is
the error for a file at the last name. -/
def openAll (last : Error) (d : Disk) (place : Place) : List String → Disk × Option Error
  | [] => (d, none)
  | name :: rest =>
    if name.utf8ByteSize > nameLimit then (d, some .nameTooLong)
    else match d.get? (place ++ [name]) with
      | none => openAll last (d.put (place ++ [name]) .directory) (place ++ [name]) rest
      | some (.file _) => (d, some (if rest.isEmpty then last else .notDirectory))
      | some .directory => openAll last d (place ++ [name]) rest

variable {last : Error}

/-- Names that can be entered are there. -/
theorem openAll_entered : ∀ {ns ms : List String} {p q : Place}, AreNames ns → d.enter p ns = .ok q →
    openAll last d p (ns ++ ms) = openAll last d (p ++ ns) ms
  | [], ms, p, q, _, _ => by simp
  | n :: ns, ms, p, q, hns, he => by
    obtain ⟨-, h1, h2, hns⟩ := hns.cons
    rcases enter_cons_ok.1 he with ⟨hc, -⟩ | ⟨-, hc, -⟩ | ⟨-, -, h3, hd, he⟩
    · exact absurd hc h1
    · exact absurd hc h2
    · rw [List.cons_append, openAll, if_neg h3, hd]
      simp only
      rw [openAll_entered hns he]
      simp

/-- Behind a name that is too long or names a file nothing is created. -/
theorem openAll_blocked : ∀ {ns ms : List String} {p : Place} {e : Error}, AreNames ns → d.enter p ns = .error e →
    e ≠ .notFound → ms ≠ [] ∨ last = .notDirectory → openAll last d p (ns ++ ms) = (d, some e)
  | [], ms, p, e, _, he, _, _ => by cases he
  | n :: ns, ms, p, e, hns, he, hne, hl => by
    obtain ⟨-, h1, h2, hns⟩ := hns.cons
    rw [enter_name h1 h2] at he
    rw [List.cons_append, openAll]
    split at he
    · rename_i h3
      cases he
      rw [if_pos h3]
    · rename_i h3
      rw [if_neg h3]
      cases hg : d.get? (p ++ [n]) with
      | none => rw [hg] at he; cases he; exact absurd rfl hne
      | some entry =>
        rw [hg] at he
        cases entry with
        | file c =>
          cases he
          simp only
          congr 2
          rcases hl with hl | hl
          · rw [if_neg (by simp [hl])]
          · rw [hl]; exact ite_self _
        | directory => exact openAll_blocked hns he hne hl

/-- What comes of opening more names. -/
def openMore (last : Error) (place : Place) (ns : List String) : Disk × Option Error → Disk × Option Error
  | (d, some e) => (d, some e)
  | (d, none) => openAll last d place ns

theorem fresh_put {p : Place} {n : String} (hn : n ≠ "") (h : ∀ q, q ≠ [] → d.get? (p ++ [n] ++ q) = none) (e : Entry) :
    ∀ q, q ≠ [] → (d.put (p ++ [n]) e).get? (p ++ [n] ++ q) = none := by
  intro q hq
  obtain ⟨hh, ht⟩ := @append_ne p n hn
  rw [get?_put hh ht, if_neg (by simpa using hq), h q hq]

/-- Where nothing stands, no file is met. -/
theorem openAll_fresh {last' : Error} {ms : List String} : ∀ {ns : List String} {d : Disk} {p : Place}, AreNames ns →
    (∀ q, q ≠ [] → d.get? (p ++ q) = none) →
      openAll last d p (ns ++ ms) = openMore last (p ++ ns) ms (openAll last' d p ns)
  | [], d, p, _, _ => by simp [openAll, openMore]
  | n :: ns, d, p, hns, hf => by
    obtain ⟨h0, -, -, hns⟩ := hns.cons
    rw [List.cons_append, openAll, openAll, hf [n] (by simp)]
    split
    · rfl
    · simp only
      rw [@openAll_fresh last' ms ns _ _ hns (fresh_put h0 (fun q hq => by simpa using hf (n :: q) (by simp)) _)]
      simp

/-- Behind the first name that is missing nothing stands in a tree. -/
theorem openAll_notFound {last' : Error} {ms : List String} (h : IsTree d) : ∀ {ns : List String} {p : Place}, AreNames ns →
    d.enter p ns = .error .notFound → openAll last d p (ns ++ ms) = openMore last (p ++ ns) ms (openAll last' d p ns)
  | [], p, _, he => by cases he
  | n :: ns, p, hns, he => by
    obtain ⟨h0, h1, h2, hns⟩ := hns.cons
    rw [enter_name h1 h2] at he
    rw [List.cons_append, openAll, openAll]
    split at he
    · cases he
    · rename_i h3
      rw [if_neg h3, if_neg h3]
      cases hg : d.get? (p ++ [n]) with
      | none =>
        simp only
        have hfresh : ∀ q, q ≠ [] → d.get? (p ++ [n] ++ q) = none := by
          intro q hq
          refine Classical.byContradiction fun hne => ?_
          rw [h.above hq hne] at hg
          cases hg
        rw [@openAll_fresh last last' ms ns _ _ hns (fresh_put h0 hfresh _)]
        simp
      | some entry =>
        rw [hg] at he
        cases entry with
        | file c => cases he
        | directory =>
          simp only
          rw [@openAll_notFound last' ms h ns _ hns he]
          simp

theorem openAll_opens : ∀ {ns : List String} {d : Disk} {p : Place}, AreNames ns → Opens d (openAll last d p ns).1
  | [], d, p, _ => Opens.refl d
  | n :: ns, d, p, hns => by
    obtain ⟨h0, -, -, hns⟩ := hns.cons
    obtain ⟨hh, ht⟩ := @append_ne p n h0
    rw [openAll]
    split
    · exact Opens.refl d
    · cases hg : d.get? (p ++ [n]) with
      | none =>
        have hput : Opens d (d.put (p ++ [n]) .directory) := by
          intro q
          rw [get?_put hh ht]
          by_cases hq : q = p ++ [n]
          · subst hq; exact .inr ⟨hg, by simp⟩
          · exact .inl (by simp [hq])
        exact hput.trans (openAll_opens hns)
      | some entry =>
        cases entry with
        | file c => exact Opens.refl d
        | directory => exact openAll_opens hns

/-- After all names were opened they can be entered. -/
theorem enter_openAll : ∀ {ns : List String} {d : Disk} {p : Place}, AreNames ns → (openAll last d p ns).2 = none →
    (openAll last d p ns).1.enter p ns = .ok (p ++ ns)
  | [], d, p, _, _ => by simp [enter]
  | n :: ns, d, p, hns, ho => by
    obtain ⟨h0, h1, h2, hns⟩ := hns.cons
    obtain ⟨hh, ht⟩ := @append_ne p n h0
    rw [openAll] at ho ⊢
    rw [enter_name h1 h2]
    split at ho
    · cases ho
    · rename_i h3
      rw [if_neg h3, if_neg h3]
      cases hg : d.get? (p ++ [n]) with
      | none =>
        rw [hg] at ho
        simp only at ho ⊢
        have hdir := (@openAll_opens last ns (d.put (p ++ [n]) .directory) (p ++ [n]) hns).keeps (p ++ [n])
          (by rw [get?_put hh ht, if_pos rfl])
        rw [hdir]
        simp only
        rw [enter_openAll hns ho]
        simp
      | some entry =>
        rw [hg] at ho
        cases entry with
        | file c => cases ho
        | directory =>
          simp only at ho ⊢
          rw [(@openAll_opens last ns d (p ++ [n]) hns).keeps _ hg]
          simp only
          rw [enter_openAll hns ho]
          simp

/-! ## Two disks -/

/-- Along names, the second disk has what the first has, and more directories. -/
def Ahead (d d' : Disk) (place : Place) (ns : List String) : Prop :=
  ∀ ms, ms ≠ [] → ms <+: ns → d'.get? (place ++ ms) = d.get? (place ++ ms) ∨
    d.get? (place ++ ms) = none ∧ d'.get? (place ++ ms) = some .directory

theorem Ahead.refl (d : Disk) (p : Place) (ns : List String) : Ahead d d p ns := fun _ _ _ => .inl rfl

theorem Ahead.head {p : Place} {n : String} {ns : List String} (h : Ahead d d' p (n :: ns)) :
    d'.get? (p ++ [n]) = d.get? (p ++ [n]) ∨ d.get? (p ++ [n]) = none ∧ d'.get? (p ++ [n]) = some .directory :=
  h [n] (by simp) (List.prefix_append [n] ns)

theorem Ahead.tail {p : Place} {n : String} {ns : List String} (h : Ahead d d' p (n :: ns)) : Ahead d d' (p ++ [n]) ns := by
  intro ms _ hms
  simpa using h (n :: ms) (by simp) ((List.prefix_cons_inj n).2 hms)

/-- What is put at the front changes nothing behind it. -/
theorem Ahead.put {p : Place} {n : String} {ns : List String} {d₁ d₁' : Disk} (h : Ahead d d' (p ++ [n]) ns)
    (hd : ∀ q, q ≠ p ++ [n] → d₁.get? q = d.get? q) (hd' : ∀ q, q ≠ p ++ [n] → d₁'.get? q = d'.get? q) :
    Ahead d₁ d₁' (p ++ [n]) ns := by
  intro ms hne hms
  have hq : p ++ [n] ++ ms ≠ p ++ [n] := by simpa using hne
  rw [hd _ hq, hd' _ hq]
  exact h ms hne hms

theorem Ahead.enter : ∀ {ns : List String} {p q : Place}, Ahead d d' p ns → AreNames ns → d.enter p ns = .ok q →
    d'.enter p ns = .ok q
  | [], _, _, _, _, he => he
  | n :: ns, p, q, h, hns, he => by
    obtain ⟨-, h1, h2, hns⟩ := hns.cons
    rcases enter_cons_ok.1 he with ⟨hc, -⟩ | ⟨-, hc, -⟩ | ⟨-, -, h3, hd, he⟩
    · exact absurd hc h1
    · exact absurd hc h2
    · have hd' : d'.get? (p ++ [n]) = some .directory := by
        rcases h.head with hh | ⟨hh, -⟩
        · rw [hh, hd]
        · rw [hd] at hh; cases hh
      exact enter_cons_ok.2 (.inr (.inr ⟨h1, h2, h3, hd', h.tail.enter hns he⟩))

/-- A change that both disks have made, or that neither has made. -/
def Alike (d d' d₁ d₁' : Disk) (changed : Place → Prop) : Prop :=
  ∀ q, d₁.get? q = d.get? q ∧ d₁'.get? q = d'.get? q ∨ changed q ∧ d₁.get? q = d₁'.get? q

/-- Some of the names lead to the place from where they start. -/
def OnTheWay (place : Place) (ns : List String) (q : Place) : Prop := ∃ ms, ms ≠ [] ∧ ms <+: ns ∧ q = place ++ ms

theorem OnTheWay.first (p : Place) (n : String) (ns : List String) : OnTheWay p (n :: ns) (p ++ [n]) :=
  ⟨[n], by simp, List.prefix_append [n] ns, rfl⟩

theorem OnTheWay.behind {p q : Place} {n : String} {ns : List String} (h : OnTheWay (p ++ [n]) ns q) : OnTheWay p (n :: ns) q := by
  obtain ⟨ms, -, hms, rfl⟩ := h
  exact ⟨n :: ms, by simp, (List.prefix_cons_inj n).2 hms, by simp⟩

theorem not_onTheWay_concat (p : Place) (ns : List String) (n : String) : ¬OnTheWay p ns (p ++ (ns ++ [n])) := by
  rintro ⟨ms, -, hms, hq⟩
  have hlen := hms.length_le
  rw [← List.append_cancel_left hq, List.length_append, List.length_singleton] at hlen
  omega

/-- Opening names comes to the same on both disks. -/
theorem openAll_ahead : ∀ {ns : List String} {d d' : Disk} {p : Place}, AreNames ns → Ahead d d' p ns →
    (openAll last d p ns).2 = (openAll last d' p ns).2 ∧
      Alike d d' (openAll last d p ns).1 (openAll last d' p ns).1 fun q =>
        OnTheWay p ns q ∧ (openAll last d p ns).1.get? q = some .directory
  | [], d, d', p, _, _ => ⟨rfl, fun q => .inl ⟨rfl, rfl⟩⟩
  | n :: ns, d, d', p, hns, h => by
    obtain ⟨h0, -, -, hns⟩ := hns.cons
    obtain ⟨hh, ht⟩ := @append_ne p n h0
    -- the first name is a directory by now
    have key : ∀ d₁ d₁' : Disk, (∀ q, q ≠ p ++ [n] → d₁.get? q = d.get? q) → (∀ q, q ≠ p ++ [n] → d₁'.get? q = d'.get? q) →
        d₁.get? (p ++ [n]) = some .directory → d₁'.get? (p ++ [n]) = some .directory →
          (openAll last d₁ (p ++ [n]) ns).2 = (openAll last d₁' (p ++ [n]) ns).2 ∧
            Alike d d' (openAll last d₁ (p ++ [n]) ns).1 (openAll last d₁' (p ++ [n]) ns).1 fun q =>
              OnTheWay p (n :: ns) q ∧ (openAll last d₁ (p ++ [n]) ns).1.get? q = some .directory := by
      intro d₁ d₁' hd hd' hg hg'
      obtain ⟨hf, ha⟩ := openAll_ahead hns (h.tail.put hd hd')
      refine ⟨hf, fun q => ?_⟩
      rcases ha q with ⟨h1, h1'⟩ | ⟨⟨hw, hdir⟩, he⟩
      · by_cases hq : q = p ++ [n]
        · subst hq
          exact .inr ⟨⟨OnTheWay.first p n ns, h1.trans hg⟩, (h1.trans hg).trans (h1'.trans hg').symm⟩
        · exact .inl ⟨h1.trans (hd q hq), h1'.trans (hd' q hq)⟩
      · exact .inr ⟨⟨hw.behind, hdir⟩, he⟩
    have hput : ∀ d : Disk, (∀ q, q ≠ p ++ [n] → (d.put (p ++ [n]) .directory).get? q = d.get? q) ∧
        (d.put (p ++ [n]) .directory).get? (p ++ [n]) = some .directory := by
      intro d
      exact ⟨fun q hq => by rw [get?_put hh ht, if_neg hq], by rw [get?_put hh ht, if_pos rfl]⟩
    rw [openAll, openAll]
    split
    · exact ⟨rfl, fun q => .inl ⟨rfl, rfl⟩⟩
    · rcases h.head with hg | ⟨hg, hg'⟩
      · rw [hg]
        cases hg₀ : d.get? (p ++ [n]) with
        | none => exact key _ _ (hput d).1 (hput d').1 (hput d).2 (hput d').2
        | some entry =>
          cases entry with
          | file c => exact ⟨rfl, fun q => .inl ⟨rfl, rfl⟩⟩
          | directory => exact key d d' (fun _ _ => rfl) (fun _ _ => rfl) hg₀ (hg.trans hg₀)
      · rw [hg, hg']
        exact key _ d' (hput d).1 (fun _ _ => rfl) (hput d).2 hg'

theorem openAll_other {ns : List String} {p q : Place} (hns : AreNames ns) (hq : ¬OnTheWay p ns q) :
    (openAll last d p ns).1.get? q = d.get? q := by
  rcases (@openAll_ahead last _ _ _ _ hns (Ahead.refl d p ns)).2 q with ⟨h, -⟩ | ⟨⟨h, -⟩, -⟩
  · exact h
  · exact absurd h hq

end GraphqlCodegen.Disk
