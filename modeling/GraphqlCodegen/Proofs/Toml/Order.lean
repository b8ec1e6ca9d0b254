import GraphqlCodegen.Proofs.Toml.Consistency

/-!
# Lines in the order in which they are written

Lines whose keys begin alike are written together. They are the same lines (`ordered_perm`), and they define the same
(`runs_ordered`): what a group of lines defines is a table that no line outside the group looks at.
-/

namespace GraphqlCodegen.Toml

/-! ## Groups -/

section Groups

variable {α : Type} (f : α → String) (g : List α → List α)

/-- The groups of what has one name each, where the first of a group stands. -/
def gather (as : List α) : List α := (firsts (as.map f)).flatMap fun k => g (as.filter fun a => f a == k)

theorem firsts_filter (ns : List String) (n : String) : (firsts ns).filter (· != n) = firsts (ns.filter (· != n)) := by
  induction ns with
  | nil => rfl
  | cons m ns ih =>
    by_cases h : m = n
    · subst h
      rw [firsts, List.filter_cons_of_neg (by simp), List.filter_filter, List.filter_cons_of_neg (by simp), ← ih]
      simp
    · rw [firsts, List.filter_cons_of_pos (by simpa using h), List.filter_cons_of_pos (by simpa using h), firsts, ← ih,
        List.filter_filter, List.filter_filter]
      congr 2
      funext x
      exact Bool.and_comm _ _

theorem mem_firsts {ns : List String} {n : String} : n ∈ firsts ns ↔ n ∈ ns := by
  induction ns with
  | nil => rfl
  | cons m ns ih =>
    rw [firsts, List.mem_cons, List.mem_filter, List.mem_cons, ih]
    by_cases h : n = m <;> simp [h]

theorem nodup_firsts (ns : List String) : (firsts ns).Nodup := by
  induction ns with
  | nil => exact List.nodup_nil
  | cons m ns ih =>
    rw [firsts, List.nodup_cons]
    exact ⟨by simp, ih.filter _⟩

theorem gather_cons (a : α) (as : List α) :
    gather f g (a :: as) = g (a :: as.filter fun b => f b == f a) ++ gather f g (as.filter fun b => f b != f a) := by
  have hmap : (as.filter fun b => f b != f a).map f = (as.map f).filter (· != f a) := by rw [List.filter_map]; rfl
  rw [gather, List.map_cons, firsts, List.flatMap_cons, List.filter_cons_of_pos (by simp), gather, hmap, ← firsts_filter]
  congr 1
  refine List.flatMap_congr fun k hk => ?_
  have hne : f a ≠ k := fun h => by simp [h] at hk
  rw [List.filter_cons_of_neg (by simpa using hne), List.filter_filter]
  congr 2
  funext b
  by_cases h : f b = k
  · simp [h, hne.symm]
  · simp [h]

/-- From group to group. -/
theorem gather_induction {motive : List α → Prop} (nil : motive [])
    (cons : ∀ a as, motive (as.filter fun b => f b != f a) → motive (a :: as)) : ∀ as, motive as
  | [] => nil
  | a :: as => cons a as (gather_induction nil cons _)
  termination_by as => as.length
  decreasing_by
    simp only [List.length_cons]
    exact Nat.lt_succ_of_le (List.length_filter_le _ _)

theorem gather_perm (h : ∀ as, (g as).Perm as) (as : List α) : (gather f g as).Perm as := by
  induction as using gather_induction f with
  | nil => exact .nil
  | cons a as ih =>
    rw [gather_cons]
    refine ((h _).append ih).trans ?_
    rw [List.cons_append]
    refine .cons a ?_
    have := List.filter_append_perm (fun b => f b == f a) as
    simpa only [bne] using this

end Groups

theorem grouped_succ (n : Nat) (ls : List Line) (path : Line → List String) :
    grouped (n + 1) ls path = gather (fun l => root (path l)) (fun ls => grouped n ls fun l => (path l).tail) ls := rfl

/-- The lines of a group are the same. -/
theorem grouped_perm : ∀ (n : Nat) (ls : List Line) (path : Line → List String), (grouped n ls path).Perm ls
  | 0, _, _ => .refl _
  | n + 1, ls, path => by
    rw [grouped_succ]
    exact gather_perm _ _ (fun as => grouped_perm n as _) ls

theorem ordered_perm (ls : List Line) : (ordered ls).Perm ls := grouped_perm _ _ _

/-! ## What grouped lines define -/

/-- The lines as steps, with what counts as their paths. -/
def lineBlocks (path : Line → List String) (ls : List Line) : List Block := ls.map fun l => (root (path l), assign (path l))

theorem lineBlocks_cons (path : Line → List String) (l : Line) (ls : List Line) :
    lineBlocks path (l :: ls) = (root (path l), assign (path l)) :: lineBlocks path ls := rfl

theorem lineBlocks_append (path : Line → List String) (ls ms : List Line) :
    lineBlocks path (ls ++ ms) = lineBlocks path ls ++ lineBlocks path ms := List.map_append

theorem act_lineBlocks (path : Line → List String) (ls : List Line) : Act (lineBlocks path ls) := by
  intro b hb
  obtain ⟨l, -, rfl⟩ := List.mem_map.1 hb
  exact assign_actsAt (path l)

/-- The steps of lines in groups do what they do one after the other. -/
theorem runs_gather {path : Line → List String} {g : List Line → List Line}
    (hg : ∀ key ls, (∀ l ∈ ls, root (path l) = key) → ∀ cs cs', runs (lineBlocks path ls) cs = some cs' →
      runs (lineBlocks path (g ls)) cs = some cs') (ls : List Line) :
    ∀ cs cs', runs (lineBlocks path ls) cs = some cs' → runs (lineBlocks path (gather (fun l => root (path l)) g ls)) cs = some cs' := by
  induction ls using gather_induction (fun l => root (path l)) with
  | nil => exact fun _ _ h => h
  | cons l ls ih =>
    intro cs cs' h
    have hfilter : ∀ p : String → Bool, (lineBlocks path ls).filter (fun b => p b.1) =
        lineBlocks path (ls.filter fun m => p (root (path m))) := fun p => by rw [lineBlocks, List.filter_map]; rfl
    rw [lineBlocks_cons, runs_cons] at h
    obtain ⟨cs₁, h₁, hrest⟩ := Option.bind_eq_some_iff.1 h
    have hpull := runs_pull (act_lineBlocks path ls) ((assign_actsAt (path l)).self h₁)
    rw [hpull, hfilter (· == root (path l)), hfilter (· != root (path l))] at hrest
    obtain ⟨cs₂, h₂, hothers⟩ := Option.bind_eq_some_iff.1 hrest
    rw [gather_cons, lineBlocks_append, runs_append]
    have hgroup : runs (lineBlocks path (l :: ls.filter fun m => root (path m) == root (path l))) cs = some cs₂ := by
      rw [lineBlocks_cons, runs_cons, h₁]
      exact h₂
    have hfirst := hg (root (path l)) _ (fun m hm => ?_) cs cs₂ hgroup
    · rw [hfirst]
      exact ih cs₂ cs' hothers
    · rcases List.mem_cons.1 hm with rfl | hm
      · rfl
      · simpa using (List.mem_filter.1 hm).2

/-- The tables that a key with dots leads into. -/
inductive Wrapper where
  | dotted
  | implied
  | array

def Wrapper.node : Wrapper → Children → Node
  | .dotted => .table .dotted
  | .implied => .table .implied
  | .array => .array

theorem Wrapper.node_injective {w w' : Wrapper} {c c' : Children} (h : w.node c = w'.node c') : w = w' ∧ c = c' := by
  cases w <;> cases w' <;> cases h <;> exact ⟨rfl, rfl⟩

/-- The rest of a key with dots leads into such a table; the last part of one only into a table that was made by keys with
dots. -/
def Wrapper.Opens (w : Wrapper) (t : List String) : Prop := t ≠ [] ∧ (w = .dotted ∨ 2 ≤ t.length)

section Group

variable {key : String} {w : Wrapper} {t : List String} {c cs cs' : Children}

theorem assign_opens (h : w.Opens t) (hat : at? key cs = some (w.node c)) :
    assign (key :: t) cs = (assign t c).map fun c' => put key (w.node c') cs := by
  obtain ⟨hne, hw⟩ := h
  cases t with
  | nil => exact absurd rfl hne
  | cons j t =>
    cases t with
    | nil =>
      obtain rfl : w = .dotted := hw.resolve_right (by simp)
      show change key _ cs = _
      rw [change_eq, hat]
      simp only [Wrapper.node, Option.map_map]
      rfl
    | cons i t =>
      rw [assign, change_eq, hat]
      · cases w <;> simp only [Wrapper.node, Option.map_map] <;> rfl
      · simp

theorem assign_fresh (hne : t ≠ []) (hat : at? key cs = none) :
    assign (key :: t) cs = (assign t []).map fun c' => put key (Wrapper.dotted.node c') cs := by
  cases t with
  | nil => exact absurd rfl hne
  | cons j t =>
    cases t with
    | nil =>
      show change key _ cs = _
      rw [change_eq, hat]
      simp only [Wrapper.node, Option.map_map]
      rfl
    | cons i t =>
      rw [assign, change_eq, hat]
      · simp only [Wrapper.node, Option.map_map]
        rfl
      · simp

/-- A key that is there can only be led through. -/
theorem opens_of_assign {n : Node} (hat : at? key cs = some n) (h : assign (key :: t) cs = some cs') :
    ∃ w : Wrapper, ∃ c, n = w.node c ∧ w.Opens t := by
  cases t with
  | nil => rw [assign, change_eq, hat] at h; cases h
  | cons j t =>
    cases t with
    | nil =>
      rw [assign, change_eq, hat] at h
      cases n with
      | value => cases h
      | array last => cases h
      | table origin c =>
        cases origin with
        | dotted => exact ⟨.dotted, c, rfl, by simp, .inl rfl⟩
        | header => cases h
        | implied => cases h
    | cons i t =>
      rw [assign, change_eq, hat] at h
      · cases n with
        | value => cases h
        | array last => exact ⟨.array, last, rfl, by simp, .inr (by simp)⟩
        | table origin c =>
          cases origin with
          | dotted => exact ⟨.dotted, c, rfl, by simp, .inl rfl⟩
          | header => cases h
          | implied => exact ⟨.implied, c, rfl, by simp, .inr (by simp)⟩
      · simp

variable {path : Line → List String}

/-- Lines that lead into the same table define something in it. -/
theorem runs_inside : ∀ {ls : List Line} {c cs : Children}, at? key cs = some (w.node c) →
    (∀ l ∈ ls, ∃ t, path l = key :: t ∧ w.Opens t) → runs (lineBlocks path ls) cs =
      (runs (lineBlocks (fun l => (path l).tail) ls) c).map fun c' => put key (w.node c') cs
  | [], c, cs, hat, _ => by rw [show lineBlocks path [] = [] from rfl]; simp [runs, lineBlocks, put_same hat]
  | l :: ls, c, cs, hat, hall => by
    obtain ⟨t, hp, ho⟩ := hall l List.mem_cons_self
    rw [lineBlocks_cons, lineBlocks_cons, runs_cons, runs_cons, hp]
    simp only [List.tail_cons]
    rw [assign_opens ho hat]
    cases assign t c with
    | none => rfl
    | some c₁ =>
      simp only [Option.map_some, Option.bind_some]
      rw [runs_inside (at?_put_self key (w.node c₁) cs) fun m hm => hall m (List.mem_cons_of_mem _ hm)]
      simp

theorem opens_of_runs : ∀ {ls : List Line} {c cs cs' : Children}, at? key cs = some (w.node c) →
    (∀ l ∈ ls, root (path l) = key) → runs (lineBlocks path ls) cs = some cs' → ∀ l ∈ ls, ∃ t, path l = key :: t ∧ w.Opens t
  | [], _, _, _, _, _, _ => by simp
  | l :: ls, c, cs, cs', hat, hroot, h => by
    rw [lineBlocks_cons, runs_cons] at h
    obtain ⟨cs₁, h₁, hrest⟩ := Option.bind_eq_some_iff.1 h
    have hl : ∃ t, path l = key :: t ∧ w.Opens t := by
      have hkey := hroot l List.mem_cons_self
      cases hp : path l with
      | nil => simp only [hp, assign] at h₁; cases h₁
      | cons k t =>
        rw [hp] at hkey h₁
        obtain rfl : k = key := hkey
        obtain ⟨w', c', hn, ho⟩ := opens_of_assign hat h₁
        obtain ⟨rfl, -⟩ := Wrapper.node_injective hn
        exact ⟨t, rfl, ho⟩
    obtain ⟨t, hp, ho⟩ := hl
    simp only [hp, assign_opens ho hat] at h₁
    obtain ⟨c₁, -, rfl⟩ := Option.map_eq_some_iff.1 h₁
    intro m hm
    rcases List.mem_cons.1 hm with rfl | hm
    · exact ⟨t, hp, ho⟩
    · exact opens_of_runs (at?_put_self key (w.node c₁) cs) (fun m hm => hroot m (List.mem_cons_of_mem _ hm)) hrest m hm

theorem runs_fresh {ls : List Line} (hne : ls ≠ []) (hat : at? key cs = none)
    (hall : ∀ l ∈ ls, ∃ t, path l = key :: t ∧ Wrapper.dotted.Opens t) : runs (lineBlocks path ls) cs =
      (runs (lineBlocks (fun l => (path l).tail) ls) []).map fun c' => put key (Wrapper.dotted.node c') cs := by
  cases ls with
  | nil => exact absurd rfl hne
  | cons l ls =>
    obtain ⟨t, hp, ho⟩ := hall l List.mem_cons_self
    rw [lineBlocks_cons, lineBlocks_cons, runs_cons, runs_cons, hp]
    simp only [List.tail_cons]
    rw [assign_fresh ho.1 hat]
    cases assign t [] with
    | none => rfl
    | some c₁ =>
      simp only [Option.map_some, Option.bind_some]
      rw [runs_inside (at?_put_self key (Wrapper.dotted.node c₁) cs) fun m hm => hall m (List.mem_cons_of_mem _ hm)]
      simp

/-- A line that gives the key a value is the only one with this key in front. -/
theorem eq_single_of_runs {l : Line} {ls : List Line} (hl : path l = [key]) (hroot : ∀ m ∈ ls, root (path m) = key)
    (h : runs (lineBlocks path (l :: ls)) cs = some cs') : ls = [] := by
  rw [lineBlocks_cons, runs_cons, hl] at h
  obtain ⟨cs₁, h₁, hrest⟩ := Option.bind_eq_some_iff.1 h
  have hat : at? key cs₁ = some .value := by
    simp only [assign, change_eq] at h₁
    obtain ⟨n, hn, rfl⟩ := Option.map_eq_some_iff.1 h₁
    split at hn <;> cases hn
    exact at?_put_self _ _ _
  cases ls with
  | nil => rfl
  | cons m ls =>
    rw [lineBlocks_cons, runs_cons] at hrest
    obtain ⟨cs₂, h₂, -⟩ := Option.bind_eq_some_iff.1 hrest
    have hkey := hroot m List.mem_cons_self
    cases hp : path m with
    | nil => simp only [hp, assign] at h₂; cases h₂
    | cons k t =>
      rw [hp] at hkey h₂
      obtain rfl : k = key := hkey
      obtain ⟨w, c, hn, -⟩ := opens_of_assign hat h₂
      cases w <;> cases hn

/-- A key that is there is given no value. -/
theorem ne_single_of_runs : ∀ {ls : List Line} {cs cs' : Children}, at? key cs ≠ none → (∀ l ∈ ls, root (path l) = key) →
    runs (lineBlocks path ls) cs = some cs' → ∀ l ∈ ls, path l ≠ [key]
  | [], _, _, _, _, _ => by simp
  | l :: ls, cs, cs', hat, hroot, h => by
    rw [lineBlocks_cons, runs_cons] at h
    obtain ⟨cs₁, h₁, hrest⟩ := Option.bind_eq_some_iff.1 h
    have hkey := hroot l List.mem_cons_self
    have hself := (assign_actsAt (path l)).self h₁
    rw [hkey] at hself
    intro m hm
    rcases List.mem_cons.1 hm with rfl | hm
    · intro hp
      obtain ⟨n, hn⟩ := Option.ne_none_iff_exists'.1 hat
      simp only [hp] at h₁
      obtain ⟨_, _, _, ho⟩ := opens_of_assign hn h₁
      exact ho.1 rfl
    · exact ne_single_of_runs hself (fun m hm => hroot m (List.mem_cons_of_mem _ hm)) hrest m hm

/-- In a group, another order that does not matter inside of the table does not matter. -/
theorem runs_group {ls ms : List Line} (hperm : ms.Perm ls) (hroot : ∀ l ∈ ls, root (path l) = key)
    (hin : ∀ c c', runs (lineBlocks (fun l => (path l).tail) ls) c = some c' →
      runs (lineBlocks (fun l => (path l).tail) ms) c = some c')
    (h : runs (lineBlocks path ls) cs = some cs') : runs (lineBlocks path ms) cs = some cs' := by
  cases ls with
  | nil => rwa [hperm.eq_nil]
  | cons l ls =>
    -- either way the lines lead into one table, and what they define there is the same
    have hthrough : ∀ (F : Children → Children) c, (∀ ns : List Line, ns ≠ [] → (∀ n ∈ ns, n ∈ l :: ls) →
        runs (lineBlocks path ns) cs = (runs (lineBlocks (fun l => (path l).tail) ns) c).map F) →
          runs (lineBlocks path ms) cs = some cs' := by
      intro F c hF
      rw [hF _ (by simp) fun _ hn => hn] at h
      obtain ⟨c', hc, rfl⟩ := Option.map_eq_some_iff.1 h
      rw [hF ms (fun h0 => by simpa [h0] using hperm.length_eq) fun n hn => hperm.mem_iff.1 hn, hin c c' hc]
      rfl
    have hkey := hroot l List.mem_cons_self
    have hcons := h
    rw [lineBlocks_cons, runs_cons] at hcons
    obtain ⟨cs₁, h₁, hrest⟩ := Option.bind_eq_some_iff.1 hcons
    cases hp : path l with
    | nil => simp only [hp, assign] at h₁; cases h₁
    | cons k t =>
      rw [hp] at hkey
      obtain rfl : k = key := hkey
      simp only [hp] at h₁
      cases hat : at? k cs with
      | some n =>
        obtain ⟨w, c, rfl, -⟩ := opens_of_assign hat h₁
        have hopens := opens_of_runs hat hroot h
        exact hthrough _ c fun ns _ hns => runs_inside hat fun n hn => hopens n (hns n hn)
      | none =>
        by_cases ht : t = []
        · subst ht
          obtain rfl := eq_single_of_runs hp (fun m hm => hroot m (List.mem_cons_of_mem _ hm)) h
          rwa [List.perm_singleton.1 hperm]
        · rw [assign_fresh ht hat] at h₁
          obtain ⟨c₁, -, rfl⟩ := Option.map_eq_some_iff.1 h₁
          have hopens := opens_of_runs (at?_put_self k (Wrapper.dotted.node c₁) cs)
            (fun m hm => hroot m (List.mem_cons_of_mem _ hm)) hrest
          refine hthrough _ [] fun ns hne hns => runs_fresh hne hat fun n hn => ?_
          rcases List.mem_cons.1 (hns n hn) with rfl | hm
          · exact ⟨t, hp, ht, .inl rfl⟩
          · exact hopens n hm

end Group

/-- Lines in groups define what they define one after the other. -/
theorem runs_grouped : ∀ (n : Nat) (ls : List Line) (path : Line → List String) (cs cs' : Children),
    runs (lineBlocks path ls) cs = some cs' → runs (lineBlocks path (grouped n ls path)) cs = some cs'
  | 0, _, _, _, _, h => h
  | n + 1, ls, path, cs, cs', h => by
    rw [grouped_succ]
    refine runs_gather (fun key ms hroot cs cs' hms => ?_) ls cs cs' h
    exact runs_group (grouped_perm n ms _) hroot (fun c c' => runs_grouped n ms _ c c') hms

theorem runs_ordered {ls : List Line} {cs cs' : Children} (h : runs (ls.map Line.block) cs = some cs') :
    runs ((ordered ls).map Line.block) cs = some cs' := runs_grouped _ ls Line.path cs cs' h

end GraphqlCodegen.Toml
