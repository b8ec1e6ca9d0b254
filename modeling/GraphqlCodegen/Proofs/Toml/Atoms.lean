import GraphqlCodegen.Proofs.Toml.Locality

/-!
# Strings and keys are read locally

The readers of strings and keys look no further than the end of the line.
-/

namespace GraphqlCodegen.Toml

/-! ## Escapes -/

/-- A code of an escape is as long as it is, whatever follows. -/
theorem code_take {count : Nat} {cs : List Char} {c : Char} {rest : List Char} (h : escape.code count cs = some (c, rest)) :
    ∃ u, cs = u ++ rest ∧ ∀ rest', escape.code count (u ++ rest') = some (c, rest') := by
  unfold escape.code at h
  split at h
  · cases h
  · rename_i hlen
    obtain ⟨x, hx, he⟩ := Option.bind_eq_some_iff.1 h
    cases he
    refine ⟨cs.take count, (List.take_append_drop _ _).symm, fun rest' => ?_⟩
    have hl : (cs.take count).length = count := by rw [List.length_take]; omega
    unfold escape.code
    rw [if_neg (by rw [List.length_append, hl]; omega), List.take_left' hl, List.drop_left' hl, hx]
    rfl

/-- An escape is as long as it is, whatever follows. -/
theorem escape_take {cs : List Char} {c : Char} {rest : List Char} (h : escape cs = some (c, rest)) :
    ∃ d u, cs = d :: u ++ rest ∧ isSpace d = false ∧ d ≠ '\n' ∧ d ≠ '\r' ∧
      ∀ rest', escape (d :: u ++ rest') = some (c, rest') := by
  have hone : ∀ {d : Char} {cs : List Char}, (∀ cs, escape (d :: cs) = some (c, cs)) → escape (d :: cs) = some (c, rest) →
      isSpace d = false ∧ d ≠ '\n' ∧ d ≠ '\r' →
        ∃ e u, d :: cs = e :: u ++ rest ∧ isSpace e = false ∧ e ≠ '\n' ∧ e ≠ '\r' ∧
          ∀ rest', escape (e :: u ++ rest') = some (c, rest') := by
    intro d cs hd h hs
    rw [hd] at h
    cases h
    exact ⟨d, [], rfl, hs.1, hs.2.1, hs.2.2, fun rest' => hd rest'⟩
  have hdigits : ∀ {d : Char} {cs : List Char} {count : Nat}, (∀ cs, escape (d :: cs) = escape.code count cs) →
      escape (d :: cs) = some (c, rest) → isSpace d = false ∧ d ≠ '\n' ∧ d ≠ '\r' →
        ∃ e u, d :: cs = e :: u ++ rest ∧ isSpace e = false ∧ e ≠ '\n' ∧ e ≠ '\r' ∧
          ∀ rest', escape (e :: u ++ rest') = some (c, rest') := by
    intro d cs count hd h hs
    rw [hd] at h
    obtain ⟨u, rfl, hu⟩ := code_take h
    exact ⟨d, u, rfl, hs.1, hs.2.1, hs.2.2, fun rest' => by rw [List.cons_append, hd]; exact hu rest'⟩
  have h' := h
  unfold escape at h'
  split at h'
  case h_9 => exact hdigits (fun _ => rfl) h (by decide)
  case h_10 => exact hdigits (fun _ => rfl) h (by decide)
  case h_11 => exact hdigits (fun _ => rfl) h (by decide)
  case h_12 => cases h'
  all_goals
    cases h'
    exact hone (fun _ => rfl) h (by decide)

/-! ## Strings on one line -/

theorem basicRest_plain {c : Char} (hq : c ≠ '"') (hb : c ≠ '\\') (n : Nat) (cs : List Char) :
    basicRest (n + 1) (c :: cs) = if isPlain c then (basicRest n cs).map fun r => (c :: r.1, r.2) else none := by
  rw [basicRest]
  · cases isPlain c with
    | true => cases basicRest n cs <;> rfl
    | false => rfl
  · exact hq
  · exact hb

theorem basicRest_local : IsLocal basicRest := by
  intro n
  induction n with
  | zero => exact fun _ _ _ _ h => nomatch h
  | succ n ih =>
    intro cs x rest hr h
    cases cs with
    | nil => cases h
    | cons c cs =>
      by_cases hq : c = '"'
      · subst hq
        cases h
        refine ⟨['"'], rfl, .single (by decide), fun m hm rest' _ => ?_⟩
        obtain ⟨m, rfl⟩ : ∃ k, m = k + 1 := ⟨m - 1, by simp at hm; omega⟩
        rfl
      by_cases hb : c = '\\'
      · subst hb
        rw [basicRest] at h
        obtain ⟨⟨e, cs₁⟩, he, h⟩ := Option.bind_eq_some_iff.1 h
        obtain ⟨⟨text, cs₂⟩, ht, h⟩ := Option.bind_eq_some_iff.1 h
        cases h
        obtain ⟨d, u, rfl, -, -, -, hu⟩ := escape_take he
        obtain ⟨v, rfl, hv⟩ := ih cs₁ text _ (fun hm => hr (by simp [hm])) ht
        refine ⟨'\\' :: (d :: u ++ v), by simp, (hv.ends.append _).cons _, fun m hm rest' hs => ?_⟩
        obtain ⟨m, rfl⟩ : ∃ k, m = k + 1 := ⟨m - 1, by simp at hm; omega⟩
        rw [List.cons_append, List.append_assoc, basicRest, hu]
        simp only [Option.bind_eq_bind, Option.bind_some]
        rw [hv.reads m (by simp at hm; omega) rest' hs]
        rfl
      · rw [basicRest_plain hq hb] at h
        split at h
        · rename_i hp
          obtain ⟨⟨text, cs₁⟩, ht, h⟩ := Option.map_eq_some_iff.1 h
          cases h
          obtain ⟨v, rfl, hv⟩ := ih cs text _ (fun hm => hr (by simp [hm])) ht
          refine ⟨c :: v, rfl, hv.ends.cons c, fun m hm rest' hs => ?_⟩
          obtain ⟨m, rfl⟩ : ∃ k, m = k + 1 := ⟨m - 1, by simp at hm; omega⟩
          rw [List.cons_append, basicRest_plain hq hb, if_pos hp, hv.reads m (by simpa using hm) rest' hs]
          rfl
        · cases h

theorem literalRest_local : IsLocal fun _ => literalRest := by
  intro n cs
  induction cs with
  | nil => exact fun _ _ _ h => nomatch h
  | cons c cs ih =>
    intro x rest hr h
    simp only [literalRest] at h
    split at h
    · rename_i hc
      subst hc
      cases h
      exact ⟨['\''], rfl, .single (by decide), fun _ _ _ _ => rfl⟩
    · rename_i hc
      split at h
      · cases h
      · rename_i hp
        obtain ⟨⟨text, cs₁⟩, ht, h⟩ := Option.map_eq_some_iff.1 h
        cases h
        obtain ⟨v, rfl, hv⟩ := ih text _ (fun hm => hr (by simp [hm])) ht
        refine ⟨c :: v, rfl, hv.ends.cons c, fun m _ rest' hs => ?_⟩
        simp only [List.cons_append, literalRest, hc, hp, if_false]
        rw [hv.reads v.length (Nat.le_refl _) rest' hs]
        rfl

/-- What is read behind one more character, which makes nothing else of what follows. -/
theorem IsLocal.cons {α : Type} {r s : Nat → Reader α} {c : Char} (hr : IsLocal r) (hs : ∀ n cs, s n (c :: cs) = r (cs.length + 1) cs)
    {n : Nat} {cs : List Char} {x : α} {rest : List Char} (hcr : '\r' ∉ cs) (h : s n (c :: cs) = some (x, rest)) :
    ∃ u, c :: cs = u ++ rest ∧ Takes s u x rest := by
  rw [hs] at h
  obtain ⟨u, rfl, hu⟩ := hr _ _ _ _ hcr h
  refine ⟨c :: u, rfl, hu.ends.cons c, fun n _ rest' hrest => ?_⟩
  rw [List.cons_append, hs]
  exact hu.reads _ (by simp; omega) rest' hrest

theorem quotedLine_local : IsLocal fun _ => quotedLine := by
  intro n cs x rest hr h
  simp only [quotedLine] at h
  split at h
  · exact basicRest_local.cons (s := fun _ => quotedLine) (fun _ _ => rfl) (n := 0) (fun hm => hr (by simp [hm])) h
  · exact literalRest_local.cons (s := fun _ => quotedLine) (fun _ _ => rfl) (n := 0) (fun hm => hr (by simp [hm])) h
  · cases h

/-! ## Strings over several lines -/

theorem quotesInFront_eq (q : Char) (cs : List Char) : quotesInFront q cs = min 5 (cs.takeWhile (· = q)).length := by
  have key : ∀ (n : Nat) (cs : List Char), ((cs.take n).takeWhile (· = q)).length = min n (cs.takeWhile (· = q)).length := by
    intro n
    induction n with
    | zero => intro cs; simp
    | succ n ih =>
      intro cs
      cases cs with
      | nil => simp
      | cons c cs =>
        by_cases hc : c = q
        · simp [hc, ih]
        · simp [hc]
  exact key 5 cs

theorem SameLine.quotesInFront {q : Char} (hq : q ≠ '\n') {a b : List Char} (h : SameLine a b) :
    quotesInFront q a = quotesInFront q b := by
  rw [quotesInFront_eq, quotesInFront_eq, (span (by simpa using hq.symm) a h).1]

/-- The quotes in front. -/
theorem quotesInFront_take {q : Char} (cs : List Char) : (cs.take (quotesInFront q cs)).length = quotesInFront q cs ∧
    ∀ c ∈ cs.take (quotesInFront q cs), c = q := by
  have hle : quotesInFront q cs ≤ (cs.takeWhile (· = q)).length := by rw [quotesInFront_eq]; exact Nat.min_le_right _ _
  have htake : (cs.takeWhile (· = q) ++ cs.dropWhile (· = q)).take (quotesInFront q cs) = _ :=
    List.take_append_of_le_length hle
  rw [List.takeWhile_append_dropWhile] at htake
  rw [htake]
  refine ⟨by rw [List.length_take]; omega, fun c hc => ?_⟩
  simpa using List.mem_takeWhile_imp (List.mem_of_mem_take hc)

section Multiline

variable {q : Char} (n : Nat)

theorem multilineRest_close {cs : List Char} (h : quotesInFront q (q :: cs) ≥ 3) : multilineRest q (n + 1) (q :: cs) =
    some (List.replicate (quotesInFront q (q :: cs) - 3) q, (q :: cs).drop (quotesInFront q (q :: cs))) := by
  rw [multilineRest, if_pos rfl]
  exact if_pos h

theorem multilineRest_quote {cs : List Char} (h : ¬quotesInFront q (q :: cs) ≥ 3) : multilineRest q (n + 1) (q :: cs) =
    (multilineRest q n cs).map fun r => (q :: r.1, r.2) := by
  rw [multilineRest, if_pos rfl]
  exact if_neg h

theorem multilineRest_hidden {cs next : List Char} (h : lineEnd? (skipSpace cs) = some next) :
    multilineRest '"' (n + 1) ('\\' :: cs) = multilineRest '"' n (next.dropWhile multilineRest.isHidden) := by
  rw [multilineRest, if_neg (by decide), if_pos (by decide), h]

theorem multilineRest_escape {cs : List Char} (h : lineEnd? (skipSpace cs) = none) : multilineRest '"' (n + 1) ('\\' :: cs) =
    (escape cs).bind fun e => (multilineRest '"' n e.2).map fun r => (e.1 :: r.1, r.2) := by
  rw [multilineRest, if_neg (by decide), if_pos (by decide), h]
  simp only [Option.bind_eq_bind]
  congr 1
  funext e
  cases multilineRest '"' n e.2 <;> rfl

theorem multilineRest_lineFeed (hq : '\n' ≠ q) (cs : List Char) : multilineRest q (n + 1) ('\n' :: cs) =
    (multilineRest q n cs).map fun r => ('\n' :: r.1, r.2) := by
  rw [multilineRest, if_neg hq, if_neg (by simp)]
  simp [lineEnd?]

theorem multilineRest_plain {c : Char} (hq : c ≠ q) (hb : ¬(c = '\\' ∧ q = '"')) (hn : c ≠ '\n') (hr : c ≠ '\r')
    (cs : List Char) : multilineRest q (n + 1) (c :: cs) =
      if isPlain c then (multilineRest q n cs).map fun r => (c :: r.1, r.2) else none := by
  rw [multilineRest, if_neg hq, if_neg (by simpa using hb), lineEnd?_stop hn hr]
  cases isPlain c <;> rfl

end Multiline

theorem EndsInLine.of_forall {u : List Char} (hne : u ≠ []) (h : ∀ c ∈ u, c ≠ '\n') : EndsInLine u :=
  ⟨u.dropLast, u.getLast hne, (List.dropLast_concat_getLast hne).symm, h _ (List.getLast_mem hne)⟩

/-- What a backslash at the end of a line hides is hidden in front of everything that can be seen. -/
theorem hidden_take {cs next : List Char} (hr : '\r' ∉ cs) (h : lineEnd? (skipSpace cs) = some next) :
    ∃ w, cs = w ++ next.dropWhile multilineRest.isHidden ∧ ∀ d v, multilineRest.isHidden d = false →
      ∃ next', lineEnd? (skipSpace (w ++ d :: v)) = some next' ∧ next'.dropWhile multilineRest.isHidden = d :: v := by
  obtain ⟨s, -, hs⟩ := skipSpace_split cs
  have hspace := lineEnd?_of_mem (fun hm => hr (by rw [hs]; exact List.mem_append_right _ hm)) h
  obtain ⟨s, rfl, -, hs⟩ := skipSpace_take hspace
  refine ⟨s ++ '\n' :: next.takeWhile multilineRest.isHidden, ?_, fun d v hd => ?_⟩
  · rw [List.append_assoc, List.cons_append, List.takeWhile_append_dropWhile]
  · refine ⟨next.takeWhile multilineRest.isHidden ++ d :: v, ?_, ?_⟩
    · rw [List.append_assoc, List.cons_append, hs]
      rfl
    · rw [List.dropWhile_append_of_pos fun c hc => List.mem_takeWhile_imp hc, List.dropWhile_cons, hd]
      rfl

/-- The quotes that end a string are the same in front of all that goes on alike. -/
theorem Takes.close {q : Char} (hq : q ≠ '\n') {cs : List Char} {k : Nat} (hk : quotesInFront q (q :: cs) = k + 1)
    (h3 : k + 1 ≥ 3) : Takes (multilineRest q) ((q :: cs).take (k + 1)) (List.replicate (k + 1 - 3) q) ((q :: cs).drop (k + 1)) := by
  obtain ⟨hlen, hall⟩ := quotesInFront_take (q := q) (q :: cs)
  rw [hk] at hlen hall
  refine ⟨.of_forall (by simp) fun d hd => by rw [hall d hd]; exact hq, fun m hm rest' hs => ?_⟩
  obtain ⟨m, rfl⟩ : ∃ i, m = i + 1 := ⟨m - 1, by omega⟩
  have hsame := hs.append ((q :: cs).take (k + 1))
  rw [List.take_append_drop] at hsame
  rw [List.take_succ_cons] at hlen
  rw [List.take_succ_cons, List.cons_append] at hsame ⊢
  have hk' := (hsame.quotesInFront hq).symm.trans hk
  rw [multilineRest_close m (by rw [hk']; exact h3), hk', ← List.cons_append, List.drop_left' hlen]

/-- One more character in front of a string. -/
theorem Takes.char {q c : Char} {v text rest : List Char} (hv : Takes (multilineRest q) v text rest)
    (hstep : ∀ m cs', SameLine (c :: (v ++ rest)) (c :: cs') →
      multilineRest q (m + 1) (c :: cs') = (multilineRest q m cs').map fun r => (c :: r.1, r.2)) :
    Takes (multilineRest q) (c :: v) (c :: text) rest := by
  refine ⟨hv.ends.cons c, fun m hm rest' hs => ?_⟩
  obtain ⟨m, rfl⟩ : ∃ k, m = k + 1 := ⟨m - 1, by simp at hm; omega⟩
  rw [List.cons_append, hstep m (v ++ rest') (hs.append (c :: v)), hv.reads m (by simpa using hm) rest' hs]
  rfl

/-- What a backslash hides in front of a string. -/
theorem Takes.hidden {w v text rest : List Char} (hv : Takes (multilineRest '"') v text rest)
    (hfirst : ∀ d ∈ (v ++ rest).head?, multilineRest.isHidden d = false)
    (hw : ∀ d v, multilineRest.isHidden d = false →
      ∃ next, lineEnd? (skipSpace (w ++ d :: v)) = some next ∧ next.dropWhile multilineRest.isHidden = d :: v) :
    Takes (multilineRest '"') ('\\' :: (w ++ v)) text rest := by
  refine ⟨(hv.ends.append w).cons _, fun m hm rest' hs => ?_⟩
  obtain ⟨m, rfl⟩ : ∃ k, m = k + 1 := ⟨m - 1, by simp at hm; omega⟩
  cases v with
  | nil => exact absurd rfl hv.ends.ne_nil
  | cons d v =>
    obtain ⟨next, hnext, hdrop⟩ := hw d (v ++ rest') (hfirst d rfl)
    rw [List.cons_append, List.append_assoc, List.cons_append, multilineRest_hidden m hnext, hdrop]
    exact hv.reads m (by simp at hm ⊢; omega) rest' hs

/-- An escape in front of a string. -/
theorem Takes.escaped {e d : Char} {u v text rest : List Char} (hv : Takes (multilineRest '"') v text rest)
    (hd : isSpace d = false) (hdn : d ≠ '\n') (hdr : d ≠ '\r') (hu : ∀ rest', escape (d :: u ++ rest') = some (e, rest')) :
    Takes (multilineRest '"') ('\\' :: (d :: u ++ v)) (e :: text) rest := by
  refine ⟨(hv.ends.append _).cons _, fun m hm rest' hs => ?_⟩
  obtain ⟨m, rfl⟩ : ∃ k, m = k + 1 := ⟨m - 1, by simp at hm; omega⟩
  have hline : lineEnd? (skipSpace (d :: u ++ (v ++ rest'))) = none := by
    rw [List.cons_append, skipSpace_stop hd, lineEnd?_stop hdn hdr]
  rw [List.cons_append, List.append_assoc, multilineRest_escape m hline, hu]
  simp only [Option.bind_some]
  rw [hv.reads m (by simp at hm; omega) rest' hs]
  rfl

theorem multilineRest_local {q : Char} (hq : q ≠ '\n') : IsLocal (multilineRest q) := by
  intro n
  induction n with
  | zero => exact fun _ _ _ _ h => nomatch h
  | succ n ih =>
    intro cs x rest hr h
    cases cs with
    | nil => cases h
    | cons c cs =>
      have hrc : '\r' ∉ cs := fun hm => hr (by simp [hm])
      -- one more character in front of what the induction hypothesis gives
      have hchar : (multilineRest q n cs).map (fun r => (c :: r.1, r.2)) = some (x, rest) →
          (∀ m cs', SameLine (c :: cs) (c :: cs') → multilineRest q (m + 1) (c :: cs') =
            (multilineRest q m cs').map fun r => (c :: r.1, r.2)) →
          ∃ u, c :: cs = u ++ rest ∧ Takes (multilineRest q) u x rest := by
        intro hmap hstep
        obtain ⟨⟨text, cs₁⟩, ht, he⟩ := Option.map_eq_some_iff.1 hmap
        cases he
        obtain ⟨v, rfl, hv⟩ := ih cs text _ hrc ht
        exact ⟨c :: v, rfl, hv.char hstep⟩
      by_cases hc : c = q
      · subst hc
        by_cases h3 : quotesInFront c (c :: cs) ≥ 3
        · obtain ⟨k, hk⟩ : ∃ k, quotesInFront c (c :: cs) = k + 1 := ⟨quotesInFront c (c :: cs) - 1, by omega⟩
          rw [multilineRest_close n h3, hk] at h
          cases h
          exact ⟨(c :: cs).take (k + 1), (List.take_append_drop _ _).symm, .close hq hk (by omega)⟩
        · rw [multilineRest_quote n h3] at h
          refine hchar h fun m cs' hs => multilineRest_quote m ?_
          rwa [← hs.quotesInFront hq]
      by_cases hb : c = '\\' ∧ q = '"'
      · obtain ⟨rfl, rfl⟩ := hb
        cases hl : lineEnd? (skipSpace cs) with
        | some next =>
          rw [multilineRest_hidden n hl] at h
          obtain ⟨w, rfl, hw⟩ := hidden_take hrc hl
          obtain ⟨v, hv', hv⟩ := ih _ x rest (fun hm => hrc (List.mem_append_right _ hm)) h
          refine ⟨'\\' :: (w ++ v), by rw [hv']; simp, hv.hidden (fun d hd => ?_) hw⟩
          obtain ⟨tail, htail⟩ := List.head?_eq_some_iff.1 hd
          exact head?_dropWhile (hv'.trans htail)
        | none =>
          rw [multilineRest_escape n hl] at h
          obtain ⟨⟨e, cs₁⟩, he, h⟩ := Option.bind_eq_some_iff.1 h
          obtain ⟨⟨text, cs₂⟩, ht, h⟩ := Option.map_eq_some_iff.1 h
          cases h
          obtain ⟨d, u, rfl, hd, hdn, hdr, hu⟩ := escape_take he
          obtain ⟨v, rfl, hv⟩ := ih cs₁ text _ (fun hm => hrc (by simp [hm])) ht
          exact ⟨'\\' :: (d :: u ++ v), by simp, hv.escaped hd hdn hdr hu⟩
      by_cases hn : c = '\n'
      · subst hn
        rw [multilineRest_lineFeed n (Ne.symm hq)] at h
        exact hchar h fun m cs' _ => multilineRest_lineFeed m (Ne.symm hq) cs'
      · have hcr : c ≠ '\r' := fun hcr => hr (by simp [hcr])
        rw [multilineRest_plain n hc hb hn hcr] at h
        split at h
        · rename_i hp
          exact hchar h fun m cs' _ => by rw [multilineRest_plain m hc hb hn hcr, if_pos hp]
        · cases h

/-- A line feed that a string begins with is no part of it. -/
theorem multiline_local {q : Char} (hq : q ≠ '\n') : IsLocal fun _ => multiline q := by
  intro n cs x rest hr h
  cases hl : lineEnd? cs with
  | some body =>
    obtain rfl := lineEnd?_of_mem hr hl
    simp only [multiline, hl, Option.getD_some] at h
    obtain ⟨u, rfl, hu⟩ := multilineRest_local hq _ _ _ _ (fun hm => hr (by simp [hm])) h
    refine ⟨'\n' :: u, rfl, hu.ends.cons _, fun m _ rest' hs => ?_⟩
    simp only [multiline, List.cons_append, lineEnd?, Option.getD_some]
    exact hu.reads _ (by simp; omega) rest' hs
  | none =>
    simp only [multiline, hl, Option.getD_none] at h
    obtain ⟨u, rfl, hu⟩ := multilineRest_local hq _ _ _ _ hr h
    refine ⟨u, rfl, hu.ends, fun m _ rest' hs => ?_⟩
    have hline : lineEnd? (u ++ rest') = none := by
      cases u with
      | nil => exact absurd rfl hu.ends.ne_nil
      | cons d u =>
        refine lineEnd?_stop ?_ (fun hd => hr (by simp [hd])) _
        rintro rfl
        simp [lineEnd?] at hl
    simp only [multiline, hline, Option.getD_none]
    exact hu.reads _ (by simp; omega) rest' hs

/-- Three quotes begin the text. -/
def IsMultiline (cs : List Char) : Prop := ∃ q rest, (q = '"' ∨ q = '\'') ∧ cs = q :: q :: q :: rest

theorem string_of_not_isMultiline {cs : List Char} (h : ¬IsMultiline cs) : string cs = quotedLine cs := by
  unfold string
  split
  · exact absurd ⟨_, _, .inl rfl, rfl⟩ h
  · exact absurd ⟨_, _, .inr rfl, rfl⟩ h
  · rfl

theorem SameLine.isMultiline {a b : List Char} (h : SameLine a b) (ha : IsMultiline a) : IsMultiline b := by
  obtain ⟨q, rest, hq, rfl⟩ := ha
  have hn : q ≠ '\n' := by rcases hq with rfl | rfl <;> decide
  obtain ⟨b₁, rfl, h₁⟩ := h.of_cons hn
  obtain ⟨b₂, rfl, h₂⟩ := h₁.of_cons hn
  obtain ⟨b₃, rfl, -⟩ := h₂.of_cons hn
  exact ⟨q, b₃, hq, rfl⟩

theorem string_local : IsLocal fun _ => string := by
  intro n cs x rest hr h
  have hquotes : ∀ {q : Char} {body : List Char}, (∀ body, string (q :: q :: q :: body) = multiline q body) → q ≠ '\n' →
      cs = q :: q :: q :: body → ∃ u, cs = u ++ rest ∧ Takes (fun _ => string) u x rest := by
    rintro q body hs hq rfl
    simp only [hs] at h
    obtain ⟨u, rfl, hu⟩ := multiline_local hq 0 _ _ _ (fun hm => hr (by simp [hm])) h
    refine ⟨q :: q :: q :: u, rfl, ((hu.ends.cons _).cons _).cons _, fun m _ rest' hrest => ?_⟩
    simp only [List.cons_append, hs]
    exact hu.reads _ (Nat.le_refl _) rest' hrest
  by_cases hm : IsMultiline cs
  · obtain ⟨q, body, hq, he⟩ := hm
    rcases hq with rfl | rfl
    · exact hquotes (fun _ => rfl) (by decide) he
    · exact hquotes (fun _ => rfl) (by decide) he
  · simp only [string_of_not_isMultiline hm] at h
    obtain ⟨u, rfl, hu⟩ := quotedLine_local 0 _ _ _ hr h
    refine ⟨u, rfl, hu.ends, fun m hlen rest' hs => ?_⟩
    simp only [string_of_not_isMultiline fun h' => hm ((hs.append u).symm.isMultiline h')]
    exact hu.reads m hlen rest' hs

/-! ## Keys -/

/-- What is split off in front of a text is split off in front of all that go on alike. -/
theorem SameLine.split {p : Char → Bool} (hp : p '\n' = false) {cs rest : List Char} (h : SameLine (cs.dropWhile p) rest) :
    (cs.takeWhile p ++ rest).takeWhile p = cs.takeWhile p ∧ (cs.takeWhile p ++ rest).dropWhile p = rest := by
  have hs := h.append (cs.takeWhile p)
  rw [List.takeWhile_append_dropWhile] at hs
  have ht := (span hp cs hs).1.symm
  refine ⟨ht, ?_⟩
  have hsplit := List.takeWhile_append_dropWhile (p := p) (l := cs.takeWhile p ++ rest)
  rw [ht] at hsplit
  exact List.append_cancel_left hsplit

theorem isBareChar_lineFeed : isBareChar '\n' = false := by decide

theorem simpleKey_bare {cs : List Char} (h : cs.takeWhile isBareChar ≠ []) :
    simpleKey cs = some (String.ofList (cs.takeWhile isBareChar), cs.dropWhile isBareChar) := by
  unfold simpleKey
  split
  · exact absurd ‹_› h
  · rfl

theorem simpleKey_quoted {cs : List Char} (h : cs.takeWhile isBareChar = []) :
    simpleKey cs = (quotedLine cs).map fun r => (String.ofList r.1, r.2) := by
  rw [simpleKey, h]

theorem simpleKey_local : IsLocal fun _ => simpleKey := by
  intro n cs x rest hr h
  by_cases hb : cs.takeWhile isBareChar = []
  · simp only [simpleKey_quoted hb] at h
    obtain ⟨⟨text, rest⟩, hq, h⟩ := Option.map_eq_some_iff.1 h
    cases h
    obtain ⟨u, rfl, hu⟩ := quotedLine_local 0 _ _ _ hr hq
    refine ⟨u, rfl, hu.ends, fun m _ rest' hs => ?_⟩
    have hb' : (u ++ rest').takeWhile isBareChar = [] := by
      rw [← ((hs.append u).span isBareChar_lineFeed _).1]
      exact hb
    simp only [simpleKey_quoted hb']
    rw [hu.reads u.length (Nat.le_refl _) rest' hs]
    rfl
  · simp only [simpleKey_bare hb] at h
    cases h
    refine ⟨cs.takeWhile isBareChar, List.takeWhile_append_dropWhile.symm, ?_, fun m _ rest' hs => ?_⟩
    · refine .of_forall hb fun c hc => ?_
      rintro rfl
      have := List.mem_takeWhile_imp hc
      rw [isBareChar_lineFeed] at this
      cases this
    · obtain ⟨ht, hd⟩ := hs.split isBareChar_lineFeed
      rw [simpleKey_bare (by rw [ht]; exact hb), ht, hd]

theorem key_dot {cs rest next : List Char} {first : String} (h : simpleKey cs = some (first, rest))
    (hd : skipSpace rest = '.' :: next) (n : Nat) :
    key (n + 1) cs = (key n (skipSpace next)).map fun r => (first :: r.1, r.2) := by
  simp only [key, h, Option.bind_eq_bind, Option.bind_some, hd]
  cases key n (skipSpace next) <;> rfl

theorem key_last {cs rest : List Char} {first : String} (h : simpleKey cs = some (first, rest))
    (hd : (skipSpace rest).head? ≠ some '.') (n : Nat) : key (n + 1) cs = some ([first], rest) := by
  simp only [key, h, Option.bind_eq_bind, Option.bind_some]
  split
  · rename_i he
    rw [he] at hd
    exact absurd rfl hd
  · rfl

theorem key_local : IsLocal key := by
  intro n
  induction n with
  | zero => exact fun _ _ _ _ h => nomatch h
  | succ n ih =>
    intro cs x rest hr h
    obtain ⟨⟨first, rest₁⟩, hk, -⟩ := Option.bind_eq_some_iff.1 (by rw [← Option.bind_eq_bind]; exact h)
    obtain ⟨u, rfl, hu⟩ := simpleKey_local 0 _ _ _ hr hk
    by_cases hd : (skipSpace rest₁).head? = some '.'
    · obtain ⟨next, hnext⟩ : ∃ next, skipSpace rest₁ = '.' :: next := by
        cases hs : skipSpace rest₁ with
        | nil => rw [hs] at hd; cases hd
        | cons c next => rw [hs] at hd; cases hd; exact ⟨next, rfl⟩
      rw [key_dot hk hnext] at h
      obtain ⟨⟨more, rest⟩, hm, h⟩ := Option.map_eq_some_iff.1 h
      cases h
      obtain ⟨s, rfl, -, hs⟩ := skipSpace_take hnext
      obtain ⟨s', -, hs'⟩ := skipSpace_split next
      obtain ⟨v, hv', hv⟩ := ih _ _ _ (fun hm => hr (by rw [hs']; simp [hm])) hm
      obtain ⟨t, rfl, ht⟩ := skipSpace_front hv.ends.ne_nil hv'
      refine ⟨u ++ (s ++ '.' :: (t ++ v)), by simp, (((hv.ends.append t).cons _).append s).append u, fun m hm rest' hrest => ?_⟩
      have hpos := hu.ends.length_pos
      obtain ⟨m, rfl⟩ : ∃ k, m = k + 1 := ⟨m - 1, by simp at hm; omega⟩
      have hfirst := hu.reads u.length (Nat.le_refl _) (s ++ '.' :: (t ++ (v ++ rest'))) (by
        simpa using hrest.append (s ++ '.' :: (t ++ v)))
      simp only [List.append_assoc, List.cons_append]
      rw [key_dot hfirst (hs _), ht, hv.reads m (by simp at hm ⊢; omega) rest' hrest]
      rfl
    · rw [key_last hk hd] at h
      cases h
      refine ⟨u, rfl, hu.ends, fun m hm rest' hs => ?_⟩
      have hpos := hu.ends.length_pos
      obtain ⟨m, rfl⟩ : ∃ k, m = k + 1 := ⟨m - 1, by omega⟩
      refine key_last (hu.reads u.length (Nat.le_refl _) rest' hs) ?_ m
      rwa [Ne, ← hs.skipSpace.head?_eq_iff (by decide)]

end GraphqlCodegen.Toml
