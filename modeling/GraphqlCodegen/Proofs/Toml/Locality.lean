import Mathlib.Data.List.TakeWhile
import GraphqlCodegen.Toml.Document

/-!
# Reading looks no further than the end of the line

A reader takes some characters from the front of a text, and looks at what is left only as far as the line goes: in front of
any other text whose first line is the same (`SameLine`), it takes the same characters and reads the same
(`IsLocal`). As many steps are enough as it takes characters.

The texts are without carriage returns, as the texts of statements are.
-/

namespace GraphqlCodegen.Toml

/-- The texts are the same up to the end of the line. -/
def SameLine (a b : List Char) : Prop := a.takeWhile (· != '\n') = b.takeWhile (· != '\n')

namespace SameLine

variable {a b : List Char}

theorem symm (h : SameLine a b) : SameLine b a := Eq.symm h

theorem append (u : List Char) (h : SameLine a b) : SameLine (u ++ a) (u ++ b) := by
  induction u with
  | nil => exact h
  | cons c u ih =>
    unfold SameLine at ih ⊢
    rw [List.cons_append, List.cons_append, List.takeWhile_cons, List.takeWhile_cons, ih]

/-- Behind a piece of a line, everything up to a line feed is that piece. -/
theorem lineFeed (p a b : List Char) : SameLine (p ++ '\n' :: a) (p ++ '\n' :: b) := append p rfl

theorem end_lineFeed (p b : List Char) : SameLine p (p ++ '\n' :: b) := by
  have h : SameLine [] ('\n' :: b) := rfl
  simpa using h.append p

theorem of_cons {c : Char} (h : SameLine (c :: a) b) (hc : c ≠ '\n') : ∃ b', b = c :: b' ∧ SameLine a b' := by
  unfold SameLine at h
  cases b with
  | nil => simp [hc] at h
  | cons d b =>
    by_cases hd : d = '\n'
    · subst hd; simp [hc] at h
    · simp only [List.takeWhile_cons, bne_iff_ne, ne_eq, hc, hd, not_false_eq_true, if_true, List.cons.injEq] at h
      obtain ⟨rfl, h⟩ := h
      exact ⟨b, rfl, h⟩

theorem head?_eq_iff (h : SameLine a b) {c : Char} (hc : c ≠ '\n') : a.head? = some c ↔ b.head? = some c := by
  have key : ∀ {a b : List Char}, SameLine a b → a.head? = some c → b.head? = some c := by
    intro a b h ha
    cases a with
    | nil => cases ha
    | cons d a =>
      obtain rfl : d = c := Option.some.inj ha
      obtain ⟨b', rfl, -⟩ := h.of_cons hc
      rfl
  exact ⟨key h, key h.symm⟩

/-- Both are split at the same place by what does not go on beyond the line. -/
theorem span {p : Char → Bool} (hp : p '\n' = false) : ∀ (a : List Char) {b : List Char}, SameLine a b →
    a.takeWhile p = b.takeWhile p ∧ SameLine (a.dropWhile p) (b.dropWhile p)
  | [], b, h => by
    cases b with
    | nil => exact ⟨rfl, rfl⟩
    | cons d b =>
      obtain rfl : d = '\n' := by_contra fun hd => by simp [SameLine, hd] at h
      simp [hp, SameLine]
  | c :: a, b, h => by
    by_cases hc : c = '\n'
    · subst hc
      cases b with
      | nil => simp [hp, SameLine]
      | cons d b =>
        obtain rfl : d = '\n' := by_contra fun hd => by simp [SameLine, hd] at h
        simp [hp, SameLine]
    · obtain ⟨b, rfl, hab⟩ := h.of_cons hc
      cases hpc : p c with
      | true =>
        obtain ⟨ht, hd⟩ := span hp a hab
        rw [List.takeWhile_cons_of_pos hpc, List.takeWhile_cons_of_pos hpc, List.dropWhile_cons_of_pos hpc,
          List.dropWhile_cons_of_pos hpc, ht]
        exact ⟨rfl, hd⟩
      | false =>
        have hpc : ¬p c = true := by simp [hpc]
        rw [List.takeWhile_cons_of_neg hpc, List.takeWhile_cons_of_neg hpc, List.dropWhile_cons_of_neg hpc,
          List.dropWhile_cons_of_neg hpc]
        exact ⟨rfl, h⟩

end SameLine

/-- The text ends with a character that ends no line. -/
def EndsInLine (u : List Char) : Prop := ∃ v c, u = v ++ [c] ∧ c ≠ '\n'

theorem EndsInLine.append {u : List Char} (h : EndsInLine u) (v : List Char) : EndsInLine (v ++ u) := by
  obtain ⟨w, c, rfl, hc⟩ := h
  exact ⟨v ++ w, c, by simp, hc⟩

theorem EndsInLine.cons {u : List Char} (h : EndsInLine u) (c : Char) : EndsInLine (c :: u) := h.append [c]

theorem EndsInLine.single {c : Char} (hc : c ≠ '\n') : EndsInLine [c] := ⟨[], c, rfl, hc⟩

theorem EndsInLine.ne_nil {u : List Char} (h : EndsInLine u) : u ≠ [] := by
  obtain ⟨w, c, rfl, -⟩ := h
  simp

theorem EndsInLine.length_pos {u : List Char} (h : EndsInLine u) : 0 < u.length := List.length_pos_iff.2 h.ne_nil

/-- In front of all texts that go on as the given one does, `u` is taken and read as `x`, by as many steps as it has
characters. -/
structure Takes {α : Type} (r : Nat → Reader α) (u : List Char) (x : α) (rest : List Char) : Prop where
  ends : EndsInLine u
  reads : ∀ n, u.length ≤ n → ∀ rest', SameLine rest rest' → r n (u ++ rest') = some (x, rest')

/-- Of what is left the reader looks at the first line only. -/
def IsLocal {α : Type} (r : Nat → Reader α) : Prop := ∀ n cs x rest, '\r' ∉ cs → r n cs = some (x, rest) →
  ∃ u, cs = u ++ rest ∧ Takes r u x rest

/-! ## Blanks and comments -/

theorem skipSpace_append {s : List Char} (hs : ∀ c ∈ s, isSpace c = true) (cs : List Char) : skipSpace (s ++ cs) = skipSpace cs := by
  induction s with
  | nil => rfl
  | cons c s ih =>
    rw [skipSpace, List.cons_append, List.dropWhile_cons, if_pos (hs c List.mem_cons_self)]
    exact ih fun d hd => hs d (List.mem_cons_of_mem _ hd)

theorem skipSpace_stop {c : Char} (hc : isSpace c = false) (cs : List Char) : skipSpace (c :: cs) = c :: cs := by
  rw [skipSpace, List.dropWhile_cons, hc]; rfl

/-- The blanks in front, and what is left. -/
theorem skipSpace_split (cs : List Char) : ∃ s, (∀ c ∈ s, isSpace c = true) ∧ cs = s ++ skipSpace cs :=
  ⟨cs.takeWhile isSpace, fun _ hc => List.mem_takeWhile_imp hc, (List.takeWhile_append_dropWhile).symm⟩

/-- Where what was skipped stops. -/
theorem head?_dropWhile {p : Char → Bool} {cs rest : List Char} {c : Char} (h : cs.dropWhile p = c :: rest) : p c = false := by
  have hhead := List.head_dropWhile_not p (l := cs) (by rw [h]; simp)
  simpa only [h, List.head_cons] using hhead

theorem skipSpace_head {cs : List Char} {c : Char} {rest : List Char} (h : skipSpace cs = c :: rest) : isSpace c = false :=
  head?_dropWhile h

theorem isSpace_lineFeed {s : List Char} (hs : ∀ c ∈ s, isSpace c = true) : '\n' ∉ s := fun h => by
  have := hs _ h
  revert this
  decide

/-- Blanks are skipped alike in front of what stands in the same line. -/
theorem SameLine.skipSpace {a b : List Char} (h : SameLine a b) : SameLine (skipSpace a) (skipSpace b) := (span (by decide) a h).2

theorem skipSpace_take {cs : List Char} {c : Char} {rest : List Char} (h : skipSpace cs = c :: rest) :
    ∃ s, cs = s ++ c :: rest ∧ '\n' ∉ s ∧ ∀ rest', skipSpace (s ++ c :: rest') = c :: rest' := by
  obtain ⟨s, hs, he⟩ := skipSpace_split cs
  refine ⟨s, by rw [← h]; exact he, isSpace_lineFeed hs, fun rest' => ?_⟩
  rw [skipSpace_append hs, skipSpace_stop (skipSpace_head h)]

/-- The blanks in front of a piece of text are skipped whatever follows it. -/
theorem skipSpace_front {cs u rest : List Char} (hu : u ≠ []) (h : skipSpace cs = u ++ rest) :
    ∃ s, cs = s ++ (u ++ rest) ∧ ∀ rest', skipSpace (s ++ (u ++ rest')) = u ++ rest' := by
  cases u with
  | nil => exact absurd rfl hu
  | cons c u =>
    obtain ⟨s, he, -, hs⟩ := skipSpace_take h
    exact ⟨s, he, fun rest' => hs (u ++ rest')⟩

theorem lineEnd?_of_mem {cs rest : List Char} (hr : '\r' ∉ cs) (h : lineEnd? cs = some rest) : cs = '\n' :: rest := by
  unfold lineEnd? at h
  split at h
  · cases h; rfl
  · simp at hr
  · cases h

theorem lineEnd?_stop {c : Char} (hn : c ≠ '\n') (hr : c ≠ '\r') (cs : List Char) : lineEnd? (c :: cs) = none := by
  unfold lineEnd?
  split <;> simp_all

theorem isPlain_lineFeed : isPlain '\n' = false := by decide

/-- The blanks and the comment in front, and where they stop: at a character, or at the end of the text, where a line feed
stops them as well. -/
theorem skipComment_skipSpace (cs : List Char) : ∃ p, cs = p ++ skipComment (skipSpace cs) ∧ '\n' ∉ p ∧ ∀ rest',
    let stop := (skipComment (skipSpace cs)).head?.getD '\n'
    skipComment (skipSpace (p ++ stop :: rest')) = stop :: rest' := by
  obtain ⟨s, hs, he⟩ := skipSpace_split cs
  have hsn := isSpace_lineFeed hs
  by_cases hc : (skipSpace cs).head? = some '#'
  · obtain ⟨q, hq⟩ : ∃ q, skipSpace cs = '#' :: q := by
      cases h : skipSpace cs with
      | nil => rw [h] at hc; cases hc
      | cons c q => rw [h] at hc; cases hc; exact ⟨q, rfl⟩
    rw [hq] at he ⊢
    have hstop : isPlain ((q.dropWhile isPlain).head?.getD '\n') = false := by
      cases hd : q.dropWhile isPlain with
      | nil => exact isPlain_lineFeed
      | cons c r => exact head?_dropWhile hd
    refine ⟨s ++ '#' :: q.takeWhile isPlain, ?_, ?_, fun rest' => ?_⟩
    · rw [List.append_assoc, List.cons_append, skipComment, List.takeWhile_append_dropWhile]
      exact he
    · have hq' : '\n' ∉ q.takeWhile isPlain := fun h => by
        have := List.mem_takeWhile_imp h
        rw [isPlain_lineFeed] at this
        cases this
      simp [hsn, hq']
    · simp only [skipComment]
      rw [List.append_assoc, skipSpace_append hs, List.cons_append, skipSpace_stop (by decide)]
      simp only
      rw [List.dropWhile_append_of_pos fun c hc => List.mem_takeWhile_imp hc, List.dropWhile_cons, hstop]
      rfl
  · have hcomment : ∀ {cs : List Char}, cs.head? ≠ some '#' → skipComment cs = cs := by
      intro cs h
      unfold skipComment
      split
      · simp at h
      · rfl
    rw [hcomment hc]
    refine ⟨s, he, hsn, fun rest' => ?_⟩
    have hstop : ∀ {c : Char}, (skipSpace cs).head?.getD '\n' = c → isSpace c = false ∧ c ≠ '#' := by
      rintro c rfl
      cases h : skipSpace cs with
      | nil => simp; decide
      | cons d q =>
        rw [h] at hc
        exact ⟨skipSpace_head h, fun hd => hc (by rw [← hd]; rfl)⟩
    obtain ⟨hspace, hcm⟩ := hstop rfl
    simp only
    rw [skipSpace_append hs, skipSpace_stop hspace]
    exact hcomment (by simpa using hcm)

/-- What follows a line, up to the line feed. -/
theorem closeLine_split {cs rest : List Char} (hr : '\r' ∉ cs) (h : closeLine cs = some rest) : ∃ p, '\n' ∉ p ∧
    (cs = p ++ '\n' :: rest ∨ cs = p ∧ rest = []) ∧ ∀ rest', closeLine (p ++ '\n' :: rest') = some rest' := by
  obtain ⟨p, he, hp, hskip⟩ := skipComment_skipSpace cs
  refine ⟨p, hp, ?_⟩
  unfold closeLine at h
  cases hs : skipComment (skipSpace cs) with
  | nil =>
    rw [hs] at h he hskip
    cases h
    refine ⟨.inr ⟨by simpa using he, rfl⟩, fun rest' => ?_⟩
    simp only [List.head?_nil, Option.getD_none] at hskip
    simp only [closeLine, hskip, lineEnd?]
  | cons c q =>
    rw [hs] at h he hskip
    have hrq : '\r' ∉ c :: q := fun hm => hr (by rw [he]; exact List.mem_append_right _ hm)
    have hline := lineEnd?_of_mem hrq h
    obtain ⟨rfl, rfl⟩ := List.cons.inj hline
    refine ⟨.inl he, fun rest' => ?_⟩
    simp only [List.head?_cons, Option.getD_some] at hskip
    simp only [closeLine, hskip, lineEnd?]

theorem skipComment_stop {c : Char} (hc : c ≠ '#') (cs : List Char) : skipComment (c :: cs) = c :: cs := by
  unfold skipComment
  split
  · rename_i he
    exact absurd (List.cons.inj he).1 hc
  · rfl

/-- A character that nothing is skipped at. -/
def IsSolid (c : Char) : Prop := isSpace c = false ∧ c ≠ '#' ∧ c ≠ '\n' ∧ c ≠ '\r'

instance (c : Char) : Decidable (IsSolid c) := inferInstanceAs (Decidable (_ ∧ _))

theorem skipTrivia_stop {c : Char} (hc : IsSolid c) (cs : List Char) : skipTrivia (c :: cs) = c :: cs := by
  obtain ⟨hs, hcm, hn, hr⟩ := hc
  unfold skipTrivia skipTriviaWithin
  rw [skipSpace_stop hs, skipComment_stop hcm]
  simp only [lineEnd?_stop hn hr]

theorem skipTriviaWithin_take : ∀ {n : Nat} {cs : List Char} {c : Char} {rest : List Char}, cs.length < n → '\r' ∉ cs →
    skipTriviaWithin n cs = c :: rest → ∃ t, cs = t ++ c :: rest ∧ c ≠ '\n' ∧
      ∀ m, t.length < m → ∀ rest', skipTriviaWithin m (t ++ c :: rest') = c :: rest'
  | n + 1, cs, c, rest, hn, hr, h => by
    obtain ⟨p, he, hp, hskip⟩ := skipComment_skipSpace cs
    rw [skipTriviaWithin] at h
    cases hs : skipComment (skipSpace cs) with
    | nil => rw [hs] at h; cases h
    | cons d q =>
      rw [hs] at h he hskip
      have hrq : '\r' ∉ d :: q := fun hm => hr (by rw [he]; exact List.mem_append_right _ hm)
      simp only [List.head?_cons, Option.getD_some] at hskip
      cases hl : lineEnd? (d :: q) with
      | none =>
        simp only [hl] at h
        obtain ⟨rfl, rfl⟩ := List.cons.inj h
        have hd : d ≠ '\n' := by rintro rfl; cases hl
        refine ⟨p, he, hd, fun m hm rest' => ?_⟩
        obtain ⟨m, rfl⟩ : ∃ k, m = k + 1 := ⟨m - 1, by omega⟩
        rw [skipTriviaWithin, hskip]
        simp only [lineEnd?_stop hd (fun h => hrq (by rw [h]; exact List.mem_cons_self))]
      | some next =>
        obtain ⟨rfl, rfl⟩ := List.cons.inj (lineEnd?_of_mem hrq hl)
        simp only [hl] at h
        rw [he, List.length_append, List.length_cons] at hn
        obtain ⟨t, rfl, hc, ht⟩ := skipTriviaWithin_take (by omega) (fun hm => hrq (List.mem_cons_of_mem _ hm)) h
        refine ⟨p ++ '\n' :: t, by rw [he]; simp, hc, fun m hm rest' => ?_⟩
        obtain ⟨m, rfl⟩ : ∃ k, m = k + 1 := ⟨m - 1, by omega⟩
        rw [List.length_append, List.length_cons] at hm
        rw [skipTriviaWithin, List.append_assoc, List.cons_append, hskip]
        exact ht m (by omega) rest'

/-- What is skipped in front of a character is skipped in front of it whatever follows. -/
theorem skipTrivia_take {cs : List Char} {c : Char} {rest : List Char} (hr : '\r' ∉ cs) (h : skipTrivia cs = c :: rest) :
    ∃ t, cs = t ++ c :: rest ∧ c ≠ '\n' ∧ ∀ rest', skipTrivia (t ++ c :: rest') = c :: rest' := by
  obtain ⟨t, he, hc, ht⟩ := skipTriviaWithin_take (Nat.lt_succ_self _) hr h
  exact ⟨t, he, hc, fun rest' => ht _ (by simp only [List.length_append, List.length_cons]; omega) rest'⟩

/-- What is skipped in front of a piece of text is skipped whatever follows it. -/
theorem skipTrivia_front {cs u rest : List Char} (hr : '\r' ∉ cs) (hu : u ≠ []) (h : skipTrivia cs = u ++ rest) :
    ∃ t, cs = t ++ (u ++ rest) ∧ ∀ rest', skipTrivia (t ++ (u ++ rest')) = u ++ rest' := by
  cases u with
  | nil => exact absurd rfl hu
  | cons c u =>
    obtain ⟨t, he, -, ht⟩ := skipTrivia_take hr h
    exact ⟨t, he, fun rest' => ht (u ++ rest')⟩

/-- A reader and the delimiter behind what it takes. -/
theorem Takes.delimiter {α : Type} {r : Nat → Reader α} {u : List Char} {x : α} {rest next : List Char} {d : Char}
    (h : Takes r u x rest) (hr : '\r' ∉ rest) (hd : skipTrivia rest = d :: next) : ∃ t, rest = t ++ d :: next ∧ d ≠ '\n' ∧
      ∀ n, u.length ≤ n → ∀ next', SameLine next next' →
        r n (u ++ (t ++ d :: next')) = some (x, t ++ d :: next') ∧ skipTrivia (t ++ d :: next') = d :: next' := by
  obtain ⟨t, rfl, hdn, ht⟩ := skipTrivia_take hr hd
  refine ⟨t, rfl, hdn, fun n hn next' hs => ⟨h.reads n hn _ ?_, ht next'⟩⟩
  simpa using hs.append (t ++ [d])

end GraphqlCodegen.Toml
