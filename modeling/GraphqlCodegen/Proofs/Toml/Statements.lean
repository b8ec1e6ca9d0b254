import GraphqlCodegen.Proofs.Toml.Atoms

/-!
# Values and statements are read locally

The readers of values look no further than the end of the line, and a statement ends its own: the text that a statement is
written as reads as this statement in front of any other text.
-/

namespace GraphqlCodegen.Toml

/-! ## Words -/

/-- A word and what stands behind it make a date with a time. -/
def Joins (word rest : List Char) : Prop := date word = some [] ∧ ∃ c more, rest = ' ' :: c :: more ∧ c.isDigit = true

theorem splitWord_joined {cs more : List Char} {c : Char} (hd : date (cs.takeWhile isWordChar) = some [])
    (hr : cs.dropWhile isWordChar = ' ' :: c :: more) (hc : c.isDigit = true) : splitWord cs =
      (cs.takeWhile isWordChar ++ ' ' :: (c :: more).takeWhile isWordChar, (c :: more).dropWhile isWordChar) := by
  simp only [splitWord, hd, hr, hc, if_true]

theorem splitWord_single {cs : List Char} (h : ¬Joins (cs.takeWhile isWordChar) (cs.dropWhile isWordChar)) :
    splitWord cs = (cs.takeWhile isWordChar, cs.dropWhile isWordChar) := by
  unfold splitWord
  simp only
  split
  · rename_i c more hd hr
    split
    · exact absurd ⟨hd, c, more, hr, ‹_›⟩ h
    · rw [hr]
  · rfl

theorem isWordChar_lineFeed : isWordChar '\n' = false := by decide

theorem SameLine.joins {word a b : List Char} (h : SameLine a b) (ha : Joins word a) : Joins word b := by
  obtain ⟨hd, c, more, rfl, hc⟩ := ha
  obtain ⟨b₁, rfl, h₁⟩ := h.of_cons (by decide)
  obtain ⟨b₂, rfl, -⟩ := h₁.of_cons (by rintro rfl; revert hc; decide)
  exact ⟨hd, c, b₂, rfl, hc⟩

/-- The word in front and what is left of the text; the same word is in front of all that goes on alike. -/
theorem splitWord_take (cs : List Char) : cs = (splitWord cs).1 ++ (splitWord cs).2 ∧ '\n' ∉ (splitWord cs).1 ∧
    ∀ rest', SameLine (splitWord cs).2 rest' → splitWord ((splitWord cs).1 ++ rest') = ((splitWord cs).1, rest') := by
  have hline : ∀ cs : List Char, '\n' ∉ cs.takeWhile isWordChar := fun cs h => by
    have := List.mem_takeWhile_imp h
    rw [isWordChar_lineFeed] at this
    cases this
  by_cases hj : Joins (cs.takeWhile isWordChar) (cs.dropWhile isWordChar)
  · obtain ⟨hd, c, more, hr, hc⟩ := hj
    have hword : isWordChar c = true := by
      unfold isWordChar Char.isAlphanum
      simp [hc]
    rw [splitWord_joined hd hr hc]
    refine ⟨?_, ?_, fun rest' hs => ?_⟩
    · rw [List.append_assoc, List.cons_append, List.takeWhile_append_dropWhile, ← hr, List.takeWhile_append_dropWhile]
    · simpa using ⟨hline cs, hline (c :: more)⟩
    · obtain ⟨ht, hdrop⟩ := hs.split isWordChar_lineFeed
      have hfront : SameLine (cs.dropWhile isWordChar) (' ' :: ((c :: more).takeWhile isWordChar ++ rest')) := by
        have := hs.append (' ' :: (c :: more).takeWhile isWordChar)
        rwa [List.cons_append, List.takeWhile_append_dropWhile, ← hr] at this
      obtain ⟨ht', hdrop'⟩ := hfront.split isWordChar_lineFeed
      obtain ⟨more', hmore⟩ : ∃ more', (c :: more).takeWhile isWordChar ++ rest' = c :: more' :=
        ⟨more.takeWhile isWordChar ++ rest', by rw [List.takeWhile_cons_of_pos hword]; rfl⟩
      rw [hmore] at ht hdrop ht' hdrop'
      rw [List.append_assoc, List.cons_append, hmore, splitWord_joined (by rw [ht']; exact hd) hdrop' hc, ht, hdrop, ht']
  · rw [splitWord_single hj]
    refine ⟨List.takeWhile_append_dropWhile.symm, hline cs, fun rest' hs => ?_⟩
    obtain ⟨ht, hdrop⟩ := hs.split isWordChar_lineFeed
    rw [splitWord_single, ht, hdrop]
    rw [ht, hdrop]
    exact fun h => hj (hs.symm.joins h)

/-! ## Values -/

section Equations

variable (n : Nat)

theorem value_string {q : Char} (hq : q = '"' ∨ q = '\'') (cs : List Char) :
    value (n + 1) (q :: cs) = (string (q :: cs)).map fun r => (some (String.ofList r.1), r.2) := by
  rcases hq with rfl | rfl <;> rw [value]

theorem value_array (cs : List Char) : value (n + 1) ('[' :: cs) = (items n (skipTrivia cs)).map fun rest => (none, rest) := by
  rw [value]

theorem value_table (cs : List Char) : value (n + 1) ('\x7b' :: cs) =
    (pairs n (skipTrivia cs)).bind fun r => if areDistinct r.1 then some (none, r.2) else none := by
  rw [value]
  rfl

/-- A value that begins with none of these is a word. -/
def isOpening (c : Char) : Bool := c = '"' || c = '\'' || c = '[' || c = '\x7b'

theorem value_word {cs : List Char} (h : ∀ c, cs.head? = some c → isOpening c = false) :
    value (n + 1) cs = if isScalar (splitWord cs).1 then some (none, (splitWord cs).2) else none := by
  rw [value]
  all_goals
    rintro rest rfl
    exact absurd (h _ rfl) (by decide)

theorem items_close (cs : List Char) : items (n + 1) (']' :: cs) = some cs := by rw [items]

theorem items_more {cs : List Char} (h : cs.head? ≠ some ']') : items (n + 1) cs = (value n cs).bind fun r =>
    match skipTrivia r.2 with
    | ',' :: rest => items n (skipTrivia rest)
    | ']' :: rest => some rest
    | _ => none := by
  rw [items]
  · rfl
  · rintro rest rfl
    exact h rfl

theorem pairs_close (cs : List Char) : pairs (n + 1) ('\x7d' :: cs) = some ([], cs) := by rw [pairs]

theorem pairs_more {cs : List Char} (h : cs.head? ≠ some '\x7d') : pairs (n + 1) cs = (pair n cs).bind fun r =>
    match skipTrivia r.2.2 with
    | ',' :: rest => (pairs n (skipTrivia rest)).map fun s => (r.1 :: s.1, s.2)
    | '\x7d' :: rest => some ([r.1], rest)
    | _ => none := by
  rw [pairs]
  · simp only [Option.bind_eq_bind]
    congr 1
    funext r
    obtain ⟨path, _, rest⟩ := r
    simp only
    generalize skipTrivia rest = cs'
    split
    · rename_i rest
      exact Option.map_eq_bind.symm
    · rfl
    · simp_all
  · rintro rest rfl
    exact h rfl

theorem pair_eq (cs : List Char) : pair (n + 1) cs = (key (cs.length + 1) cs).bind fun k =>
    match skipSpace k.2 with
    | '=' :: rest => (value n (skipSpace rest)).map fun v => (k.1, v.1, v.2)
    | _ => none := by
  rw [pair]
  simp only [Option.bind_eq_bind]
  congr 1
  funext r
  obtain ⟨path, rest⟩ := r
  simp only
  generalize skipSpace rest = cs'
  split
  · rename_i rest
    exact Option.map_eq_bind.symm
  · simp_all

end Equations

/-! ## Locality -/

/-- What stands behind the items of an array, read as nothing. -/
def readItems (n : Nat) : Reader Unit := fun cs => (items n cs).map ((), ·)

/-- A key with its value, read as both. -/
def readPair (n : Nat) : Reader (List String × Value) := fun cs => (pair n cs).map fun r => ((r.1, r.2.1), r.2.2)

/-- The readers of values take what they read as `u`, up to the given number of steps. -/
structure AreLocal (n : Nat) : Prop where
  value : ∀ cs x rest, '\r' ∉ cs → value n cs = some (x, rest) → ∃ u, cs = u ++ rest ∧ Takes value u x rest
  items : ∀ cs x rest, '\r' ∉ cs → readItems n cs = some (x, rest) → ∃ u, cs = u ++ rest ∧ Takes readItems u x rest
  pairs : ∀ cs x rest, '\r' ∉ cs → pairs n cs = some (x, rest) → ∃ u, cs = u ++ rest ∧ Takes pairs u x rest
  pair : ∀ cs x rest, '\r' ∉ cs → readPair n cs = some (x, rest) → ∃ u, cs = u ++ rest ∧ Takes readPair u x rest

theorem notMem_skipTrivia {cs : List Char} (hr : '\r' ∉ cs) : '\r' ∉ skipTrivia cs := by
  cases h : skipTrivia cs with
  | nil => simp
  | cons c rest =>
    obtain ⟨t, rfl, -⟩ := skipTrivia_take hr h
    exact fun hm => hr (List.mem_append_right _ hm)

theorem head?_append_congr {u : List Char} (hu : u ≠ []) (a b : List Char) : (u ++ a).head? = (u ++ b).head? := by
  cases u with
  | nil => exact absurd rfl hu
  | cons c u => rfl

theorem exists_succ {n k : Nat} (h : k + 1 ≤ n) : ∃ m, n = m + 1 := ⟨n - 1, by omega⟩

section Values

variable {n : Nat} {cs rest : List Char} {x : Value}

theorem value_take_string {q : Char} (hq : q = '"' ∨ q = '\'') (hr : '\r' ∉ q :: cs) (h : value (n + 1) (q :: cs) = some (x, rest)) :
    ∃ u, q :: cs = u ++ rest ∧ Takes value u x rest := by
  rw [value_string n hq] at h
  obtain ⟨⟨text, rest⟩, hs, h⟩ := Option.map_eq_some_iff.1 h
  cases h
  obtain ⟨u, he, hu⟩ := string_local 0 _ _ _ hr hs
  cases u with
  | nil => exact absurd rfl hu.ends.ne_nil
  | cons d u =>
    obtain ⟨rfl, rfl⟩ := List.cons.inj he
    refine ⟨q :: u, rfl, hu.ends, fun m hm rest' hrest => ?_⟩
    obtain ⟨m, rfl⟩ := exists_succ hm
    have hstring := hu.reads _ (Nat.le_refl _) rest' hrest
    rw [List.cons_append] at hstring ⊢
    rw [value_string m hq, hstring]
    rfl

theorem value_take_array (hn : AreLocal n) (hr : '\r' ∉ cs) (h : value (n + 1) ('[' :: cs) = some (x, rest)) :
    ∃ u, '[' :: cs = u ++ rest ∧ Takes value u x rest := by
  rw [value_array] at h
  obtain ⟨rest, hi, h⟩ := Option.map_eq_some_iff.1 h
  cases h
  obtain ⟨u, hu', hu⟩ := hn.items _ () rest (notMem_skipTrivia hr) (by rw [readItems, hi]; rfl)
  obtain ⟨t, rfl, ht⟩ := skipTrivia_front hr hu.ends.ne_nil hu'
  refine ⟨'[' :: (t ++ u), by simp, (hu.ends.append t).cons _, fun m hm rest' hs => ?_⟩
  obtain ⟨m, rfl⟩ := exists_succ hm
  obtain ⟨_, hread, he⟩ := Option.map_eq_some_iff.1 (hu.reads m (by simp at hm; omega) rest' hs)
  cases he
  rw [List.cons_append, List.append_assoc, value_array, ht, hread]
  rfl

theorem value_take_table (hn : AreLocal n) (hr : '\r' ∉ cs) (h : value (n + 1) ('\x7b' :: cs) = some (x, rest)) :
    ∃ u, '\x7b' :: cs = u ++ rest ∧ Takes value u x rest := by
  rw [value_table] at h
  obtain ⟨⟨paths, rest⟩, hp, h⟩ := Option.bind_eq_some_iff.1 h
  simp only at h
  split at h
  · rename_i hd
    cases h
    obtain ⟨u, hu', hu⟩ := hn.pairs _ _ _ (notMem_skipTrivia hr) hp
    obtain ⟨t, rfl, ht⟩ := skipTrivia_front hr hu.ends.ne_nil hu'
    refine ⟨'\x7b' :: (t ++ u), by simp, (hu.ends.append t).cons _, fun m hm rest' hs => ?_⟩
    obtain ⟨m, rfl⟩ := exists_succ hm
    rw [List.cons_append, List.append_assoc, value_table, ht, hu.reads m (by simp at hm; omega) rest' hs]
    exact if_pos hd
  · cases h

theorem value_take_word (ho : ∀ c, cs.head? = some c → isOpening c = false) (h : value (n + 1) cs = some (x, rest)) :
    ∃ u, cs = u ++ rest ∧ Takes value u x rest := by
  rw [value_word n ho] at h
  split at h
  · rename_i hs
    cases h
    obtain ⟨he, hline, hword⟩ := splitWord_take cs
    have hne : (splitWord cs).1 ≠ [] := fun h0 => by
      rw [h0] at hs
      revert hs
      decide
    refine ⟨_, he, .of_forall hne fun c hc hn => hline (hn ▸ hc), fun m hm rest' hrest => ?_⟩
    have hlen := List.length_pos_iff.2 hne
    obtain ⟨m, rfl⟩ := exists_succ (Nat.le_trans hlen hm)
    have hhead := head?_append_congr hne rest' (splitWord cs).2
    rw [← he] at hhead
    rw [value_word m (by rw [hhead]; exact ho), hword rest' hrest, if_pos hs]
  · cases h

theorem value_take (hn : AreLocal n) (hr : '\r' ∉ cs) (h : value (n + 1) cs = some (x, rest)) :
    ∃ u, cs = u ++ rest ∧ Takes value u x rest := by
  by_cases ho : ∀ c, cs.head? = some c → isOpening c = false
  · exact value_take_word ho h
  · obtain ⟨c, hc, hopen⟩ : ∃ c, cs.head? = some c ∧ isOpening c = true := by simpa using ho
    cases cs with
    | nil => cases hc
    | cons d cs =>
      cases hc
      have hrc : '\r' ∉ cs := fun hm => hr (List.mem_cons_of_mem _ hm)
      simp only [isOpening, Bool.or_eq_true, decide_eq_true_eq] at hopen
      rcases hopen with (hq | rfl) | rfl
      · exact value_take_string hq hr h
      · exact value_take_array hn hrc h
      · exact value_take_table hn hrc h

theorem items_take (hn : AreLocal n) (hr : '\r' ∉ cs) (h : readItems (n + 1) cs = some ((), rest)) :
    ∃ u, cs = u ++ rest ∧ Takes readItems u () rest := by
  obtain ⟨_, h, he⟩ := Option.map_eq_some_iff.1 h
  cases he
  by_cases hc : cs.head? = some ']'
  · cases cs with
    | nil => cases hc
    | cons c cs =>
      cases hc
      rw [items_close] at h
      cases h
      refine ⟨[']'], rfl, .single (by decide), fun m hm rest' _ => ?_⟩
      obtain ⟨m, rfl⟩ := exists_succ hm
      simp only [readItems, List.cons_append, List.nil_append, items_close, Option.map_some]
  · rw [items_more n hc] at h
    obtain ⟨⟨x, rest₁⟩, hx, hmatch⟩ := Option.bind_eq_some_iff.1 h
    obtain ⟨u, rfl, hu⟩ := hn.value _ _ _ hr hx
    have hr₁ : '\r' ∉ rest₁ := fun hm => hr (List.mem_append_right _ hm)
    cases hd : skipTrivia rest₁ with
    | nil => simp only [hd] at hmatch; cases hmatch
    | cons d next =>
      obtain ⟨t, rfl, hdn, ht⟩ := hu.delimiter hr₁ hd
      have hstart : ∀ next', (u ++ (t ++ d :: next')).head? ≠ some ']' := fun next' => by
        rwa [head?_append_congr hu.ends.ne_nil _ (t ++ d :: next)]
      simp only [hd] at hmatch
      split at hmatch
      · rename_i he
        obtain ⟨rfl, rfl⟩ := List.cons.inj he
        have hrn : '\r' ∉ next := fun hm => hr₁ (by simp [hm])
        obtain ⟨v, hv', hv⟩ := hn.items _ () rest (notMem_skipTrivia hrn) (by rw [readItems, hmatch]; rfl)
        obtain ⟨s, rfl, hs⟩ := skipTrivia_front hrn hv.ends.ne_nil hv'
        refine ⟨u ++ (t ++ ',' :: (s ++ v)), by simp, (((hv.ends.append s).cons _).append t).append u, fun m hm rest' hrest => ?_⟩
        obtain ⟨m, rfl⟩ := exists_succ (n := m) (k := 0) (by have := hu.ends.length_pos; simp at hm; omega)
        obtain ⟨hread, hskip⟩ := ht m (by simp at hm; omega) (s ++ (v ++ rest')) (by simpa using hrest.append (s ++ v))
        obtain ⟨_, hlast, he⟩ := Option.map_eq_some_iff.1 (hv.reads m (by simp at hm; omega) rest' hrest)
        cases he
        simp only [List.append_assoc, List.cons_append, readItems]
        rw [items_more m (hstart _), hread]
        simp only [Option.bind_some, hskip, hs, hlast, Option.map_some]
      · rename_i he
        obtain ⟨rfl, rfl⟩ := List.cons.inj he
        cases hmatch
        refine ⟨u ++ (t ++ [']']), by simp, ((EndsInLine.single (by decide)).append t).append u, fun m hm rest' hrest => ?_⟩
        obtain ⟨m, rfl⟩ := exists_succ (n := m) (k := 0) (by have := hu.ends.length_pos; simp at hm; omega)
        obtain ⟨hread, hskip⟩ := ht m (by simp at hm; omega) rest' hrest
        simp only [List.append_assoc, List.cons_append, List.nil_append, readItems]
        rw [items_more m (hstart _), hread]
        simp only [Option.bind_some, hskip, Option.map_some]
      · cases hmatch

theorem pairs_take (hn : AreLocal n) {x : List (List String)} (hr : '\r' ∉ cs) (h : pairs (n + 1) cs = some (x, rest)) :
    ∃ u, cs = u ++ rest ∧ Takes pairs u x rest := by
  by_cases hc : cs.head? = some '\x7d'
  · cases cs with
    | nil => cases hc
    | cons c cs =>
      cases hc
      rw [pairs_close] at h
      cases h
      refine ⟨['\x7d'], rfl, .single (by decide), fun m hm rest' _ => ?_⟩
      obtain ⟨m, rfl⟩ := exists_succ hm
      rw [List.cons_append, List.nil_append, pairs_close]
  · rw [pairs_more n hc] at h
    obtain ⟨⟨path, v, rest₁⟩, hv, hmatch⟩ := Option.bind_eq_some_iff.1 h
    obtain ⟨u, rfl, hu⟩ := hn.pair cs (path, v) rest₁ hr (by rw [readPair, hv]; rfl)
    have hr₁ : '\r' ∉ rest₁ := fun hm => hr (List.mem_append_right _ hm)
    cases hd : skipTrivia rest₁ with
    | nil => simp only [hd] at hmatch; cases hmatch
    | cons d next =>
      obtain ⟨t, rfl, hdn, ht⟩ := hu.delimiter hr₁ hd
      have hstart : ∀ next', (u ++ (t ++ d :: next')).head? ≠ some '\x7d' := fun next' => by
        rwa [head?_append_congr hu.ends.ne_nil _ (t ++ d :: next)]
      -- the pair itself, from what is read of it
      have hpair : ∀ {m next'}, readPair m (u ++ (t ++ d :: next')) = some ((path, v), t ++ d :: next') →
          pair m (u ++ (t ++ d :: next')) = some (path, v, t ++ d :: next') := by
        intro m next' hread
        obtain ⟨⟨path', v', rest'⟩, hp, he⟩ := Option.map_eq_some_iff.1 hread
        cases he
        exact hp
      simp only [hd] at hmatch
      split at hmatch
      · rename_i he
        obtain ⟨rfl, rfl⟩ := List.cons.inj he
        obtain ⟨⟨more, rest⟩, hm, hmap⟩ := Option.map_eq_some_iff.1 hmatch
        cases hmap
        have hrn : '\r' ∉ next := fun hm => hr₁ (by simp [hm])
        obtain ⟨w, hw', hw⟩ := hn.pairs _ _ _ (notMem_skipTrivia hrn) hm
        obtain ⟨s, rfl, hs⟩ := skipTrivia_front hrn hw.ends.ne_nil hw'
        refine ⟨u ++ (t ++ ',' :: (s ++ w)), by simp, (((hw.ends.append s).cons _).append t).append u, fun m hm rest' hrest => ?_⟩
        obtain ⟨m, rfl⟩ := exists_succ (n := m) (k := 0) (by have := hu.ends.length_pos; simp at hm; omega)
        obtain ⟨hread, hskip⟩ := ht m (by simp at hm; omega) (s ++ (w ++ rest')) (by simpa using hrest.append (s ++ w))
        simp only [List.append_assoc, List.cons_append]
        rw [pairs_more m (hstart _), hpair hread]
        simp only [Option.bind_some, hskip, hs]
        rw [hw.reads m (by simp at hm; omega) rest' hrest]
        rfl
      · rename_i he
        obtain ⟨rfl, rfl⟩ := List.cons.inj he
        cases hmatch
        refine ⟨u ++ (t ++ ['\x7d']), by simp, ((EndsInLine.single (by decide)).append t).append u, fun m hm rest' hrest => ?_⟩
        obtain ⟨m, rfl⟩ := exists_succ (n := m) (k := 0) (by have := hu.ends.length_pos; simp at hm; omega)
        obtain ⟨hread, hskip⟩ := ht m (by simp at hm; omega) rest' hrest
        simp only [List.append_assoc, List.cons_append, List.nil_append]
        rw [pairs_more m (hstart _), hpair hread]
        simp only [Option.bind_some, hskip]
      · cases hmatch

theorem pair_take (hn : AreLocal n) {x : List String × Value} (hr : '\r' ∉ cs) (h : readPair (n + 1) cs = some (x, rest)) :
    ∃ u, cs = u ++ rest ∧ Takes readPair u x rest := by
  obtain ⟨⟨path, v, rest⟩, hpair, he⟩ := Option.map_eq_some_iff.1 h
  cases he
  rw [pair_eq] at hpair
  obtain ⟨⟨path, rest₁⟩, hk, hmatch⟩ := Option.bind_eq_some_iff.1 hpair
  obtain ⟨u, rfl, hu⟩ := key_local _ _ _ _ hr hk
  simp only at hmatch
  split at hmatch
  · rename_i next hd
    obtain ⟨⟨v, rest⟩, hv, hmap⟩ := Option.map_eq_some_iff.1 hmatch
    cases hmap
    obtain ⟨s, rfl, -, hs⟩ := skipSpace_take hd
    obtain ⟨t', -, ht'⟩ := skipSpace_split next
    obtain ⟨w, hw', hw⟩ := hn.value _ _ _ (fun hm => hr (by rw [ht']; simp [hm])) hv
    obtain ⟨t, rfl, ht⟩ := skipSpace_front hw.ends.ne_nil hw'
    refine ⟨u ++ (s ++ '=' :: (t ++ w)), by simp, (((hw.ends.append t).cons _).append s).append u, fun m hm rest' hrest => ?_⟩
    obtain ⟨m, rfl⟩ := exists_succ (n := m) (k := 0) (by have := hu.ends.length_pos; simp at hm; omega)
    have hkey := hu.reads ((u ++ (s ++ '=' :: (t ++ (w ++ rest')))).length + 1) (by simp; omega) (s ++ '=' :: (t ++ (w ++ rest')))
      (by simpa using hrest.append (s ++ '=' :: (t ++ w)))
    simp only [List.append_assoc, List.cons_append, readPair]
    rw [pair_eq, hkey]
    simp only [Option.bind_some, hs, ht]
    rw [hw.reads m (by simp at hm; omega) rest' hrest]
    rfl
  · cases hmatch

theorem areLocal (n : Nat) : AreLocal n := by
  induction n with
  | zero => constructor <;> exact fun _ _ _ _ h => by cases h
  | succ n ih =>
    exact ⟨fun _ _ _ => value_take ih, fun _ _ _ => items_take ih, fun _ _ _ => pairs_take ih, fun _ _ _ => pair_take ih⟩

end Values

/-! ## Headers -/

theorem bracketedKey_local : IsLocal fun _ => bracketedKey := by
  intro n cs x rest hr h
  obtain ⟨⟨path, rest₁⟩, hk, hmatch⟩ := Option.bind_eq_some_iff.1 (show Option.bind _ _ = _ from h)
  obtain ⟨s, -, hs⟩ := skipSpace_split cs
  obtain ⟨u, hu', hu⟩ := key_local _ _ _ _ (fun hm => hr (by rw [hs]; exact List.mem_append_right _ hm)) hk
  obtain ⟨s, rfl, hskip⟩ := skipSpace_front hu.ends.ne_nil hu'
  simp only at hmatch
  split at hmatch
  · rename_i next hd
    cases hmatch
    obtain ⟨t, rfl, -, ht⟩ := skipSpace_take hd
    refine ⟨s ++ (u ++ (t ++ [']'])), by simp, (((EndsInLine.single (by decide)).append t).append u).append s, fun m _ rest' hrest => ?_⟩
    have hkey := hu.reads ((s ++ (u ++ (t ++ ']' :: rest'))).length + 1) (by simp; omega) (t ++ ']' :: rest')
      (by simpa using hrest.append (t ++ [']']))
    simp only [List.append_assoc, List.cons_append, List.nil_append, bracketedKey, hskip, hkey, Option.bind_eq_bind,
      Option.bind_some, ht]
  · cases hmatch

theorem header_element (cs : List Char) : header ('[' :: '[' :: cs) = (bracketedKey cs).bind fun r =>
    match r.2 with
    | ']' :: rest => some (⟨r.1, true⟩, rest)
    | _ => none := rfl

theorem header_table {cs : List Char} (h : cs.head? ≠ some '[') :
    header ('[' :: cs) = (bracketedKey cs).bind fun r => some (⟨r.1, false⟩, r.2) := by
  unfold header
  split
  · rename_i he
    obtain ⟨-, rfl⟩ := List.cons.inj he
    exact absurd rfl h
  · rename_i he
    obtain ⟨-, rfl⟩ := List.cons.inj he
    rfl
  · rename_i he
    exact absurd rfl (he cs)

theorem header_local : IsLocal fun _ => header := by
  intro n cs x rest hr h
  cases cs with
  | nil => cases h
  | cons c cs =>
    obtain rfl : c = '[' := by
      simp only [header] at h
      split at h
      · rename_i he; cases he; rfl
      · rename_i he; cases he; rfl
      · cases h
    by_cases hc : cs.head? = some '['
    · cases cs with
      | nil => cases hc
      | cons c cs =>
        cases hc
        simp only [header_element] at h
        obtain ⟨⟨path, rest₁⟩, hb, hmatch⟩ := Option.bind_eq_some_iff.1 h
        obtain ⟨u, rfl, hu⟩ := bracketedKey_local 0 _ _ _ (fun hm => hr (by simp [hm])) hb
        simp only at hmatch
        split at hmatch
        · cases hmatch
          refine ⟨'[' :: '[' :: (u ++ [']']), by simp, (((EndsInLine.single (by decide)).append u).cons _).cons _,
            fun m _ rest' hrest => ?_⟩
          have hread := hu.reads _ (Nat.le_refl _) (']' :: rest') (hrest.append [']'])
          simp only [List.append_assoc, List.cons_append, List.nil_append, header_element, hread, Option.bind_some]
        · cases hmatch
    · simp only [header_table hc] at h
      obtain ⟨⟨path, rest₁⟩, hb, he⟩ := Option.bind_eq_some_iff.1 h
      cases he
      obtain ⟨u, rfl, hu⟩ := bracketedKey_local 0 _ _ _ (fun hm => hr (by simp [hm])) hb
      refine ⟨'[' :: u, rfl, hu.ends.cons _, fun m _ rest' hrest => ?_⟩
      have hhead : (u ++ rest').head? ≠ some '[' := fun he => hc ((head?_append_congr hu.ends.ne_nil _ _).trans he)
      have hread := hu.reads _ (Nat.le_refl _) rest' hrest
      simp only [List.cons_append, header_table hhead, hread, Option.bind_some]

/-! ## Statements -/

namespace Statement

/-- What a statement is written as. -/
def text : Statement → String
  | .header _ text => text
  | .line l => l.text

/-- What a statement says, without the text that it is written as. -/
def front : Reader (String → Statement)
  | '[' :: body => (Toml.header ('[' :: body)).map fun r => (.header r.1, r.2)
  | body => (pair (body.length + 1) body).map fun r => ((fun text => .line ⟨r.1, r.2.1, text⟩), r.2.2)

theorem front_header (cs : List Char) :
    front ('[' :: cs) = (Toml.header ('[' :: cs)).map fun r => (.header r.1, r.2) := rfl

theorem front_pair {cs : List Char} (h : cs.head? ≠ some '[') :
    front cs = (readPair (cs.length + 1) cs).map fun r => ((fun text => .line ⟨r.1.1, r.1.2, text⟩), r.2) := by
  unfold front
  split
  · exact absurd rfl h
  · rw [readPair, Option.map_map]
    rfl

theorem front_local : IsLocal fun _ => front := by
  intro n cs x rest hr h
  by_cases hc : cs.head? = some '['
  · cases cs with
    | nil => cases hc
    | cons c cs =>
      cases hc
      simp only [front_header] at h
      obtain ⟨⟨hd, rest⟩, hh, he⟩ := Option.map_eq_some_iff.1 h
      cases he
      obtain ⟨u, hu', hu⟩ := header_local 0 _ _ _ hr hh
      cases u with
      | nil => exact absurd rfl hu.ends.ne_nil
      | cons d u =>
        obtain ⟨rfl, rfl⟩ := List.cons.inj hu'
        refine ⟨'[' :: u, rfl, hu.ends, fun m _ rest' hrest => ?_⟩
        have hread := hu.reads _ (Nat.le_refl _) rest' hrest
        rw [List.cons_append] at hread ⊢
        rw [front_header, hread]
        rfl
  · simp only [front_pair hc] at h
    obtain ⟨⟨⟨path, v⟩, rest⟩, hp, he⟩ := Option.map_eq_some_iff.1 h
    cases he
    obtain ⟨u, rfl, hu⟩ := (areLocal _).pair _ _ _ hr hp
    refine ⟨u, rfl, hu.ends, fun m _ rest' hrest => ?_⟩
    have hhead : (u ++ rest').head? ≠ some '[' := fun he => hc ((head?_append_congr hu.ends.ne_nil _ _).trans he)
    rw [front_pair hhead, hu.reads _ (by simp; omega) rest' hrest]
    rfl

end Statement

theorem statement_eq (cs : List Char) : statement cs = (Statement.front (skipTrivia cs)).bind fun r =>
    (closeLine r.2).map fun rest => (r.1 (endedLine (consumed cs rest)), rest) := by
  unfold statement
  generalize skipTrivia cs = body
  by_cases hc : body.head? = some '['
  · cases body with
    | nil => cases hc
    | cons c body =>
      cases hc
      rw [Statement.front_header]
      show (header ('[' :: body)).bind (fun r => (closeLine r.2).bind fun rest =>
        some (Statement.header r.1 (endedLine (consumed cs rest)), rest)) = _
      cases header ('[' :: body) with
      | none => rfl
      | some r => exact Option.map_eq_bind.symm
  · rw [Statement.front_pair hc]
    split
    · exact absurd rfl hc
    · unfold readPair
      cases pair (body.length + 1) body with
      | none => rfl
      | some r => exact Option.map_eq_bind.symm

theorem consumed_append {u : List Char} (hr : '\r' ∉ u) (rest : List Char) : consumed (u ++ rest) rest = u := by
  unfold consumed
  rw [List.length_append, Nat.add_sub_cancel, List.take_left, List.filter_eq_self]
  intro c hc
  simp only [bne_iff_ne, ne_eq]
  rintro rfl
  exact hr hc

theorem consumed_noReturn (cs rest : List Char) : '\r' ∉ consumed cs rest := by
  simp [consumed]

theorem endedLine_lineFeed (u : List Char) : endedLine (u ++ ['\n']) = String.ofList (u ++ ['\n']) := by
  rw [endedLine, if_pos (by simp)]

theorem endedLine_open {u : List Char} (h : u.getLast? ≠ some '\n') : endedLine u = String.ofList (u ++ ['\n']) := by
  rw [endedLine, if_neg h]

namespace Statement

@[simp] theorem text_front {body : List Char} {f : String → Statement} {rest : List Char} (h : front body = some (f, rest))
    (text : String) : (f text).text = text := by
  unfold front at h
  split at h
  · obtain ⟨r, -, he⟩ := Option.map_eq_some_iff.1 h
    cases he
    rfl
  · obtain ⟨r, -, he⟩ := Option.map_eq_some_iff.1 h
    cases he
    rfl

/-- The text of a statement ends in a line feed, also where the file ends without one. -/
theorem endedLine_closed {t u p rest₁ rest : List Char} (hr : '\r' ∉ t ++ (u ++ p)) (hu : EndsInLine u) (hp : '\n' ∉ p)
    (hrest : rest₁ = p ++ '\n' :: rest ∨ rest₁ = p ∧ rest = []) :
    endedLine (consumed (t ++ (u ++ rest₁)) rest) = String.ofList (t ++ (u ++ (p ++ ['\n']))) := by
  rcases hrest with rfl | ⟨rfl, rfl⟩
  · have happ : t ++ (u ++ (p ++ '\n' :: rest)) = (t ++ (u ++ p) ++ ['\n']) ++ rest := by simp
    have hline : '\r' ∉ t ++ (u ++ p) ++ ['\n'] := fun hm => by
      rcases List.mem_append.1 hm with hm | hm
      · exact hr hm
      · simp at hm
    rw [happ, consumed_append hline, endedLine_lineFeed]
    simp
  · have hlast : (t ++ (u ++ rest₁)).getLast? ≠ some '\n' := by
      cases hq : rest₁.getLast? with
      | none =>
        obtain ⟨v, c, rfl, hc⟩ := hu
        rw [List.getLast?_eq_none_iff.1 hq]
        simpa using hc
      | some c =>
        rw [List.getLast?_append, List.getLast?_append, hq]
        simp only [Option.some_or, ne_eq, Option.some.injEq]
        rintro rfl
        exact hp (List.mem_of_getLast? hq)
    have hcons := consumed_append hr []
    rw [List.append_nil] at hcons
    rw [hcons, endedLine_open hlast]
    simp

/-- A statement is read from the front of a text, and it is read from its own text, whatever follows. -/
theorem reads_text {cs : List Char} {s : Statement} {rest : List Char} (hr : '\r' ∉ cs) (h : statement cs = some (s, rest)) :
    (∃ v, cs = v ++ rest) ∧ ∀ rest', statement (s.text.toList ++ rest') = some (s, rest') := by
  rw [statement_eq] at h
  obtain ⟨⟨f, rest₁⟩, hf, hmap⟩ := Option.bind_eq_some_iff.1 h
  obtain ⟨rest, hclose, he⟩ := Option.map_eq_some_iff.1 hmap
  cases he
  obtain ⟨u, hu', hu⟩ := front_local 0 _ _ _ (notMem_skipTrivia hr) hf
  obtain ⟨t, rfl, ht⟩ := skipTrivia_front hr hu.ends.ne_nil hu'
  obtain ⟨p, hp, hrest, hpclose⟩ := closeLine_split (fun hm => hr (by simp [hm])) hclose
  have hrp : '\r' ∉ t ++ (u ++ p) := by
    rcases hrest with rfl | ⟨rfl, -⟩
    · simp only [List.mem_append, not_or] at hr ⊢
      exact ⟨hr.1, hr.2.1, hr.2.2.1⟩
    · exact hr
  refine ⟨?_, fun rest' => ?_⟩
  · rcases hrest with rfl | ⟨-, rfl⟩
    · exact ⟨t ++ (u ++ (p ++ ['\n'])), by simp⟩
    · exact ⟨t ++ (u ++ rest₁), by simp⟩
  -- what is left goes on alike up to the line feed
  have hsame : SameLine rest₁ (p ++ '\n' :: rest') := by
    rcases hrest with rfl | ⟨rfl, rfl⟩
    · exact .lineFeed p rest rest'
    · exact .end_lineFeed rest₁ rest'
  rw [text_front hf, endedLine_closed hrp hu.ends hp hrest, String.toList_ofList]
  simp only [List.append_assoc, List.cons_append, List.nil_append]
  rw [statement_eq, ht, hu.reads _ (Nat.le_refl _) _ hsame]
  simp only [Option.bind_some, hpclose, Option.map_some]
  rw [endedLine_closed hrp hu.ends hp (.inl rfl)]

/-- Read from the text that it is written as, the statement is itself. -/
def Rereads (s : Statement) : Prop := statement s.text.toList = some (s, [])

instance (s : Statement) : Decidable s.Rereads := inferInstanceAs (Decidable (_ = _))

theorem rereads_of_read {cs : List Char} {s : Statement} {rest : List Char} (hr : '\r' ∉ cs) (h : statement cs = some (s, rest)) :
    s.Rereads := by
  have := (reads_text hr h).2 []
  rwa [List.append_nil] at this

/-- The text of a statement is without carriage returns. -/
theorem noReturn_text {cs : List Char} {s : Statement} {rest : List Char} (h : statement cs = some (s, rest)) :
    '\r' ∉ s.text.toList := by
  rw [statement_eq] at h
  obtain ⟨⟨f, rest₁⟩, hf, hmap⟩ := Option.bind_eq_some_iff.1 h
  obtain ⟨rest, -, he⟩ := Option.map_eq_some_iff.1 hmap
  cases he
  have hr := consumed_noReturn cs rest
  rw [text_front hf, endedLine, String.toList_ofList]
  split
  · exact hr
  · simpa using hr

theorem Rereads.reads {s : Statement} (h : s.Rereads) : ∀ rest, statement (s.text.toList ++ rest) = some (s, rest) :=
  (reads_text (noReturn_text h) h).2

end Statement

end GraphqlCodegen.Toml
