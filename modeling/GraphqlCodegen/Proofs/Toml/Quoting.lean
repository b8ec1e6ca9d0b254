import GraphqlCodegen.Proofs.Toml.Statements

/-!
# A string that is set is read back

Whatever a key and a value are made of, the line that gives the key the value is read as such: each of the forms of a
string holds what it is used for, and keys stand bare or between quotes (`rereads_writeEntry`).
-/

namespace GraphqlCodegen.Toml

/-! ## Escapes -/

theorem escape_control : ∀ n : Fin 128, charOfCode? ('0' :: '0' :: codeDigits (Char.ofNat n.1)) = some (Char.ofNat n.1) ∧
    '\r' ∉ codeDigits (Char.ofNat n.1) ∧ (codeDigits (Char.ofNat n.1)).length = 2 := by
  decide +kernel

/-- A text that stands for a character behind a backslash. -/
def IsEscape (c : Char) (e : List Char) : Prop := ∃ d f, e = d :: f ∧ isSpace d = false ∧ d ≠ '\n' ∧ '\r' ∉ e ∧
  ∀ rest, escape (e ++ rest) = some (c, rest)

theorem IsEscape.letter {c d : Char} (h : ∀ rest, escape (d :: rest) = some (c, rest)) (hd : isSpace d = false ∧ d ≠ '\n' ∧ d ≠ '\r') :
    IsEscape c [d] := ⟨d, [], rfl, hd.1, hd.2.1, by simpa using hd.2.2.symm, h⟩

theorem isControl_code {c : Char} (h : isControl c = true) : c.toNat < 128 := by
  simp only [isControl, Bool.or_eq_true, Bool.and_eq_true, decide_eq_true_eq] at h
  omega

theorem IsEscape.code {c : Char} (h : isControl c = true) : IsEscape c (['u', '0', '0'] ++ codeDigits c) := by
  obtain ⟨hcode, hr, hlen⟩ := escape_control ⟨c.toNat, isControl_code h⟩
  simp only [Char.ofNat_toNat] at hcode hr hlen
  refine ⟨'u', '0' :: '0' :: codeDigits c, rfl, by decide, by decide, by simpa using hr, fun rest => ?_⟩
  show escape.code 4 (('0' :: '0' :: codeDigits c) ++ rest) = _
  have hfour : ('0' :: '0' :: codeDigits c).length = 4 := by simp [hlen]
  unfold escape.code
  rw [if_neg (by simp [hlen]), List.take_left' hfour, List.drop_left' hfour, hcode]
  rfl

theorem isPlain_of_not_isControl {c : Char} (h : isControl c = false) (hn : c ≠ '\n') : isPlain c = true ∧ c ≠ '\r' := by
  simp only [isControl, Bool.or_eq_false_iff, Bool.and_eq_false_iff, decide_eq_false_iff_not, bne_eq_false_iff_eq] at h
  refine ⟨?_, fun hr => by subst hr; revert h; decide⟩
  simp only [isPlain, Bool.or_eq_true, Bool.and_eq_true, decide_eq_true_eq, bne_iff_ne]
  rcases h.1 with (h' | h') | h'
  · exact .inr ⟨by omega, h.2⟩
  · exact .inl h'
  · exact absurd h' hn

/-- A character is escaped or stands for itself. -/
theorem escapedChar_cases {c : Char} (hn : c ≠ '\n') : (∃ e, escapedChar c = '\\' :: e ∧ IsEscape c e) ∨
    (escapedChar c = [c] ∧ isPlain c = true ∧ c ≠ '\\' ∧ c ≠ '\r') := by
  have hletter : ∀ {d : Char}, escapedChar c = ['\\', d] → (∀ rest, escape (d :: rest) = some (c, rest)) →
      isSpace d = false ∧ d ≠ '\n' ∧ d ≠ '\r' → ∃ e, escapedChar c = '\\' :: e ∧ IsEscape c e :=
    fun he h hd => ⟨_, he, .letter h hd⟩
  by_cases h1 : c = '\x08'
  · subst h1; exact .inl (hletter rfl (fun _ => rfl) (by decide))
  by_cases h2 : c = '\t'
  · subst h2; exact .inl (hletter rfl (fun _ => rfl) (by decide))
  by_cases h3 : c = '\x0c'
  · subst h3; exact .inl (hletter rfl (fun _ => rfl) (by decide))
  by_cases h4 : c = '\r'
  · subst h4; exact .inl (hletter rfl (fun _ => rfl) (by decide))
  by_cases h5 : c = '\\'
  · subst h5; exact .inl (hletter rfl (fun _ => rfl) (by decide))
  cases h6 : isControl c with
  | true => exact .inl ⟨_, by simp [escapedChar, h1, h2, h3, h4, h5, h6], .code h6⟩
  | false =>
    obtain ⟨hp, hr⟩ := isPlain_of_not_isControl h6 hn
    exact .inr ⟨by simp [escapedChar, h1, h2, h3, h4, h5, h6], hp, h5, hr⟩

/-! ## Strings on one line -/

theorem basicRest_cons {c : Char} {text rest : List Char} (cs : List Char) {n : Nat}
    (h : basicRest n (text) = some (cs, rest)) : basicRest (n + 1) (basicBody [c] ++ text) = some (c :: cs, rest) := by
  have hescape : ∀ {e}, IsEscape c e → basicRest (n + 1) ('\\' :: e ++ text) = some (c :: cs, rest) := by
    rintro e ⟨d, f, rfl, -, -, -, he⟩
    rw [List.cons_append, basicRest, he]
    simp only [Option.bind_eq_bind, Option.bind_some, h]
    rfl
  simp only [basicBody, List.flatMap_cons, List.flatMap_nil, List.append_nil]
  split
  · rename_i hc; subst hc; exact hescape (.letter (fun _ => rfl) (by decide))
  · rename_i hq
    split
    · rename_i hc; subst hc; exact hescape (.letter (fun _ => rfl) (by decide))
    · rename_i hn
      rcases escapedChar_cases hn with ⟨e, he, hesc⟩ | ⟨he, hp, hb, -⟩
      · rw [he]; exact hescape hesc
      · rw [he, List.singleton_append, basicRest_plain hq hb, if_pos hp, h]; rfl

theorem basicRest_basicBody (rest : List Char) : ∀ (cs : List Char) (n : Nat), cs.length < n →
    basicRest n (basicBody cs ++ '"' :: rest) = some (cs, rest)
  | [], n + 1, _ => rfl
  | c :: cs, n + 1, h => by
    have ih := basicRest_basicBody rest cs n (by simpa using h)
    have happ : basicBody (c :: cs) ++ '"' :: rest = basicBody [c] ++ (basicBody cs ++ '"' :: rest) := by simp [basicBody]
    rw [happ]
    exact basicRest_cons cs ih

theorem literalRest_literal (rest : List Char) : ∀ cs : List Char, Form.literal.fits cs = true →
    literalRest (cs ++ '\'' :: rest) = some (cs, rest)
  | [], _ => rfl
  | c :: cs, h => by
    simp only [Form.fits, List.any_cons, Bool.not_or, Bool.and_eq_true, Bool.not_eq_true', decide_eq_false_iff_not] at h
    obtain ⟨⟨⟨hc, hq⟩, hn⟩, hcs⟩ := h
    have ih := literalRest_literal rest cs (by simp only [Form.fits, hcs, Bool.not_false])
    rw [List.cons_append, literalRest, if_neg hq, if_neg (by simp [(isPlain_of_not_isControl hc hn).1]), ih]
    rfl

/-! ## Strings over several lines -/

/-- Quotes that are at most two and do not end a string belong to it. -/
theorem multilineRest_quotes {q d : Char} {cs text rest : List Char} (hd : d ≠ q) : ∀ (k n : Nat), k ≤ 2 →
    multilineRest q n (d :: cs) = some (text, rest) →
      multilineRest q (n + k) (List.replicate k q ++ d :: cs) = some (List.replicate k q ++ text, rest)
  | 0, n, _, h => h
  | k + 1, n, hk, h => by
    have ih := multilineRest_quotes hd k n (by omega) h
    have hfront : ¬quotesInFront q (q :: (List.replicate k q ++ d :: cs)) ≥ 3 := by
      rw [quotesInFront_eq, ← List.cons_append, ← List.replicate_succ, List.takeWhile_append_of_pos (by simp)]
      simp [hd]
      omega
    rw [List.replicate_succ, List.cons_append, ← Nat.add_assoc, multilineRest_quote _ hfront, ih]
    rfl

/-- The last quotes of a string and the three that end it. -/
theorem multilineRest_end {q d : Char} (hd : d ≠ q) {k : Nat} (hk : k ≤ 2) (n : Nat) (rest : List Char) :
    multilineRest q (n + 1) (List.replicate k q ++ q :: q :: q :: d :: rest) = some (List.replicate k q, d :: rest) := by
  have hquotes : List.replicate k q ++ q :: q :: q :: d :: rest = q :: (List.replicate (k + 2) q ++ d :: rest) := by
    rw [← List.cons_append, ← List.replicate_succ]
    simp [List.replicate_succ']
  have hfront : quotesInFront q (q :: (List.replicate (k + 2) q ++ d :: rest)) = k + 3 := by
    rw [quotesInFront_eq, ← List.cons_append, ← List.replicate_succ, List.takeWhile_append_of_pos (by simp)]
    simp [hd]
    omega
  rw [hquotes, multilineRest_close n (by rw [hfront]; omega), hfront, ← List.cons_append, ← List.replicate_succ]
  simp

theorem multilineRest_isEscape {c : Char} {e cs text rest : List Char} (he : IsEscape c e) {n : Nat}
    (h : multilineRest '"' n cs = some (text, rest)) : multilineRest '"' (n + 1) ('\\' :: e ++ cs) = some (c :: text, rest) := by
  obtain ⟨d, f, rfl, hd, hn, hr, hesc⟩ := he
  have hline : lineEnd? (skipSpace (d :: f ++ cs)) = none := by
    rw [List.cons_append, skipSpace_stop hd, lineEnd?_stop hn (by rintro rfl; simp at hr)]
  rw [List.cons_append, multilineRest_escape n hline, hesc]
  simp only [Option.bind_some, h]
  rfl

/-- The quotes in front have been counted: none of the quotes that follow is the third in a row. -/
theorem multilineRest_multilineBody {d : Char} (hd : d ≠ '"') (rest : List Char) : ∀ (cs : List Char) (k n : Nat), k ≤ 2 →
    cs.length + k < n → multilineRest '"' n (List.replicate k '"' ++ (multilineBody k cs ++ '"' :: '"' :: '"' :: d :: rest)) =
      some (List.replicate k '"' ++ cs, d :: rest)
  | [], k, n, hk, hn => by
    obtain ⟨n, rfl⟩ := exists_succ (n := n) (k := 0) (by omega)
    rw [multilineBody, List.nil_append, List.append_nil]
    exact multilineRest_end hd hk n rest
  | c :: cs, k, n, hk, hn => by
    rw [List.length_cons] at hn
    -- a character that is no quote: the quotes in front belong to the string, and none are in front of the rest
    have hnext : ∀ {e : Char} {f : List Char}, e ≠ '"' → multilineBody k (c :: cs) = e :: f ++ multilineBody 0 cs →
        (∀ {m : Nat} {text : List Char}, multilineRest '"' m (multilineBody 0 cs ++ '"' :: '"' :: '"' :: d :: rest) = some (text, d :: rest) →
          multilineRest '"' (m + 1) (e :: f ++ (multilineBody 0 cs ++ '"' :: '"' :: '"' :: d :: rest)) = some (c :: text, d :: rest)) →
        multilineRest '"' n (List.replicate k '"' ++ (multilineBody k (c :: cs) ++ '"' :: '"' :: '"' :: d :: rest)) =
          some (List.replicate k '"' ++ c :: cs, d :: rest) := by
      intro e f he hbody hstep
      obtain ⟨m, rfl⟩ : ∃ m, n = m + 1 + k := ⟨n - k - 1, by omega⟩
      have ih := multilineRest_multilineBody hd rest cs 0 m (by omega) (by omega)
      rw [List.replicate_zero, List.nil_append, List.nil_append] at ih
      rw [hbody, List.append_assoc]
      exact multilineRest_quotes he k (m + 1) hk (hstep ih)
    by_cases hc : c = '"'
    · subst hc
      by_cases h2 : k = 2
      · refine hnext (e := '\\') (f := ['"']) (by decide) (by simp [multilineBody, h2]) fun h => ?_
        exact multilineRest_isEscape (.letter (fun _ => rfl) (by decide)) h
      · have ih := multilineRest_multilineBody hd rest cs (k + 1) n (by omega) (by omega)
        have hbody : multilineBody k ('"' :: cs) = '"' :: multilineBody (k + 1) cs := by simp [multilineBody, h2]
        rw [List.replicate_succ', List.append_assoc, List.append_assoc] at ih
        rw [hbody]
        exact ih
    by_cases hn' : c = '\n'
    · subst hn'
      refine hnext (e := '\n') (f := []) (by decide) (by simp [multilineBody]) fun h => ?_
      rw [List.cons_append, List.nil_append, multilineRest_lineFeed _ (by decide), h]
      rfl
    · have hbody : multilineBody k (c :: cs) = escapedChar c ++ multilineBody 0 cs := by simp [multilineBody, hc, hn']
      rcases escapedChar_cases hn' with ⟨e, he, hesc⟩ | ⟨he, hp, hb, hr⟩
      · rw [he] at hbody
        exact hnext (by decide) hbody fun h => multilineRest_isEscape hesc h
      · rw [he] at hbody
        refine hnext hc hbody fun h => ?_
        rw [List.cons_append, List.nil_append, multilineRest_plain _ hc (fun h => hb h.1) hn' hr, if_pos hp, h]
        rfl

theorem multilineRest_literal {d : Char} (hd : d ≠ '\'') (rest : List Char) : ∀ (cs : List Char) (k n : Nat),
    longestRun '\'' k cs ≤ 2 → (∀ c ∈ cs, isControl c = false) → cs.length + k < n →
      multilineRest '\'' n (List.replicate k '\'' ++ (cs ++ '\'' :: '\'' :: '\'' :: d :: rest)) =
        some (List.replicate k '\'' ++ cs, d :: rest)
  | [], k, n, hk, _, hn => by
    obtain ⟨n, rfl⟩ := exists_succ (n := n) (k := 0) (by omega)
    rw [List.nil_append, List.append_nil]
    exact multilineRest_end hd hk n rest
  | c :: cs, k, n, hk, hall, hn => by
    rw [List.length_cons] at hn
    have hrest : ∀ c ∈ cs, isControl c = false := fun c hc => hall c (List.mem_cons_of_mem _ hc)
    by_cases hc : c = '\''
    · subst hc
      rw [longestRun, if_pos rfl] at hk
      have ih := multilineRest_literal hd rest cs (k + 1) n hk hrest (by omega)
      rw [List.replicate_succ', List.append_assoc, List.append_assoc] at ih
      exact ih
    · rw [longestRun, if_neg hc] at hk
      obtain ⟨m, rfl⟩ : ∃ m, n = m + 1 + k := ⟨n - k - 1, by omega⟩
      have ih := multilineRest_literal hd rest cs 0 m (by omega) hrest (by omega)
      rw [List.replicate_zero, List.nil_append, List.nil_append] at ih
      refine multilineRest_quotes hc k (m + 1) (by omega) ?_
      show multilineRest '\'' (m + 1) (c :: (cs ++ '\'' :: '\'' :: '\'' :: d :: rest)) = _
      by_cases hn' : c = '\n'
      · subst hn'
        rw [multilineRest_lineFeed m (by decide), ih]
        rfl
      · obtain ⟨hp, hr⟩ := isPlain_of_not_isControl (hall c List.mem_cons_self) hn'
        rw [multilineRest_plain m hc (by simp) hn' hr, if_pos hp, ih]
        rfl

/-! ## All forms -/

theorem length_escapedChar {c : Char} (hn : c ≠ '\n') : 1 ≤ (escapedChar c).length := by
  rcases escapedChar_cases hn with ⟨e, he, -⟩ | ⟨he, -⟩ <;> rw [he] <;> simp

theorem length_basicBody (cs : List Char) : cs.length ≤ (basicBody cs).length := by
  induction cs with
  | nil => simp
  | cons c cs ih =>
    have hone : 1 ≤ (if c = '"' then ['\\', '"'] else if c = '\n' then ['\\', 'n'] else escapedChar c).length := by
      split
      · simp
      · split
        · simp
        · exact length_escapedChar ‹_›
    rw [basicBody, List.flatMap_cons, List.length_append, List.length_cons]
    rw [basicBody] at ih
    omega

theorem length_multilineBody (cs : List Char) : ∀ k, cs.length ≤ (multilineBody k cs).length := by
  induction cs with
  | nil => simp
  | cons c cs ih =>
    intro k
    rw [multilineBody]
    split
    · split <;> simp only [List.length_cons]
      · have := ih 0; omega
      · have := ih (k + 1); omega
    · split
      · have := ih 0; simpa using this
      · have := ih 0
        have := length_escapedChar ‹¬c = '\n'›
        rw [List.length_append, List.length_cons]
        omega

/-- The opening quotes, the line feed that is no part of the string, and the rest. -/
theorem multiline_firstBreak {q : Char} {cs body : List Char} (h : '\n' ∉ cs → ∀ c, body.head? = some c → c ≠ '\n' ∧ c ≠ '\r') :
    multiline q (firstBreak cs ++ body) = multilineRest q (body.length + 1) body := by
  by_cases hn : '\n' ∈ cs
  · rw [firstBreak, if_pos (by simpa using hn)]
    rfl
  · rw [firstBreak, if_neg (by simpa using hn), List.nil_append, multiline]
    cases body with
    | nil => rfl
    | cons c body =>
      obtain ⟨hcn, hcr⟩ := h hn c rfl
      rw [lineEnd?_stop hcn hcr, Option.getD_none]

theorem not_isMultiline {q : Char} (hq : q ≠ '\n') {body rest : List Char} (hb : ∀ c, body.head? = some c → c ≠ q) :
    ¬IsMultiline (q :: (body ++ q :: '\n' :: rest)) := by
  rintro ⟨q', rest', -, he⟩
  obtain ⟨rfl, he⟩ := List.cons.inj he
  cases body with
  | nil => exact hq ((List.cons.inj (List.cons.inj he).2).1.symm)
  | cons c body => exact hb c rfl (List.cons.inj he).1

theorem head?_basicBody {cs : List Char} {c : Char} (h : (basicBody cs).head? = some c) : c ≠ '"' := by
  cases cs with
  | nil => cases h
  | cons d cs =>
    simp only [basicBody, List.flatMap_cons] at h
    split at h
    · cases h; decide
    · rename_i hq
      split at h
      · cases h; decide
      · rename_i hn
        rcases escapedChar_cases hn with ⟨e, he, -⟩ | ⟨he, -⟩ <;> rw [he] at h <;> cases h
        · decide
        · exact hq

theorem head?_multilineBody {cs : List Char} (hn : '\n' ∉ cs) {tail : List Char} {c : Char}
    (h : (multilineBody 0 cs ++ '"' :: tail).head? = some c) : c ≠ '\n' ∧ c ≠ '\r' := by
  cases cs with
  | nil => cases h; decide
  | cons d cs =>
    have hd : d ≠ '\n' := fun hd => hn (by simp [hd])
    by_cases hq : d = '"'
    · subst hq
      cases h
      decide
    · have hbody : multilineBody 0 (d :: cs) = escapedChar d ++ multilineBody 0 cs := by simp [multilineBody, hq, hd]
      rw [hbody] at h
      rcases escapedChar_cases hd with ⟨e, he, -⟩ | ⟨he, -, -, hr⟩ <;> rw [he] at h <;> cases h
      · decide
      · exact ⟨hd, hr⟩

theorem fits_multilineLiteral {cs : List Char} (h : Form.multilineLiteral.fits cs = true) :
    (∀ c ∈ cs, isControl c = false) ∧ longestRun '\'' 0 cs ≤ 2 := by
  simpa [Form.fits] using h

theorem fits_literal {cs : List Char} (h : Form.literal.fits cs = true) : ∀ c ∈ cs, isControl c = false ∧ c ≠ '\'' ∧ c ≠ '\n' := by
  simpa [Form.fits, and_assoc] using h

/-- A literal form is only used for what it holds. -/
def Form.Suits (cs : List Char) (f : Form) : Prop := f = .literal ∨ f = .multilineLiteral → f.fits cs = true

theorem formOf_suits (cs : List Char) : (formOf cs).Suits cs := by
  intro h
  unfold formOf at h ⊢
  split
  · rename_i form hform
    exact List.find?_some hform
  · rename_i hform
    simp only [hform] at h ⊢
    split at h <;> simp at h

/-- Every form holds the strings that it is used for. -/
theorem string_write {cs : List Char} {f : Form} (h : f.Suits cs) (rest : List Char) :
    string (f.write cs ++ '\n' :: rest) = some (cs, '\n' :: rest) := by
  cases f with
  | basic =>
    have happ : Form.basic.write cs ++ '\n' :: rest = '"' :: (basicBody cs ++ '"' :: '\n' :: rest) := by simp [Form.write]
    rw [happ, string_of_not_isMultiline (not_isMultiline (by decide) fun c hc => head?_basicBody hc)]
    have hlen := length_basicBody cs
    exact basicRest_basicBody _ cs _ (by simp; omega)
  | literal =>
    have hfits := h (.inl rfl)
    have happ : Form.literal.write cs ++ '\n' :: rest = '\'' :: (cs ++ '\'' :: '\n' :: rest) := by simp [Form.write]
    rw [happ, string_of_not_isMultiline (not_isMultiline (by decide) fun c hc => ?_)]
    · exact literalRest_literal _ cs hfits
    · exact (fits_literal hfits c (List.mem_of_mem_head? hc)).2.1
  | multilineBasic =>
    have happ : Form.multilineBasic.write cs ++ '\n' :: rest =
        '"' :: '"' :: '"' :: (firstBreak cs ++ (multilineBody 0 cs ++ '"' :: '"' :: '"' :: '\n' :: rest)) := by simp [Form.write]
    rw [happ]
    show multiline '"' _ = _
    rw [multiline_firstBreak fun hn c hc => head?_multilineBody hn hc]
    have hlen := length_multilineBody cs 0
    exact multilineRest_multilineBody (d := '\n') (by decide) rest cs 0 _ (by omega) (by simp; omega)
  | multilineLiteral =>
    obtain ⟨hplain, hrun⟩ := fits_multilineLiteral (h (.inr rfl))
    have happ : Form.multilineLiteral.write cs ++ '\n' :: rest =
        '\'' :: '\'' :: '\'' :: (firstBreak cs ++ (cs ++ '\'' :: '\'' :: '\'' :: '\n' :: rest)) := by simp [Form.write]
    rw [happ]
    show multiline '\'' _ = _
    rw [multiline_firstBreak fun hn c hc => ?_]
    · exact multilineRest_literal (d := '\n') (by decide) rest cs 0 _ hrun hplain (by simp only [List.length_append, List.length_cons]; omega)
    · cases cs with
      | nil => cases hc; decide
      | cons e cs =>
        cases hc
        have he : c ≠ '\n' := fun he => hn (by simp [he])
        exact ⟨he, (isPlain_of_not_isControl (hplain c List.mem_cons_self) he).2⟩

/-! ## Lines -/

theorem simpleKey_writeKey (cs rest : List Char) : simpleKey (writeKey cs ++ ' ' :: rest) = some (String.ofList cs, ' ' :: rest) := by
  have hspace : isBareChar ' ' = false := by decide
  have hquoted : ∀ {q : Char} {body : List Char}, isBareChar q = false → quotedLine (q :: body) = some (cs, ' ' :: rest) →
      simpleKey (q :: body) = some (String.ofList cs, ' ' :: rest) := by
    intro q body hq h
    rw [simpleKey_quoted (List.takeWhile_cons_of_neg (by simp [hq])), h]
    rfl
  have hbasic : simpleKey (Form.basic.write cs ++ ' ' :: rest) = some (String.ofList cs, ' ' :: rest) := by
    have hlen := length_basicBody cs
    have happ : Form.basic.write cs ++ ' ' :: rest = '"' :: (basicBody cs ++ '"' :: ' ' :: rest) := by simp [Form.write]
    rw [happ]
    exact hquoted (by decide) (basicRest_basicBody _ cs _ (by simp; omega))
  unfold writeKey
  split
  · rename_i hb
    simp only [isBare, Bool.and_eq_true, Bool.not_eq_true', List.isEmpty_eq_false_iff, List.all_eq_true] at hb
    have htake : (cs ++ ' ' :: rest).takeWhile isBareChar = cs := by
      rw [List.takeWhile_append_of_pos hb.2, List.takeWhile_cons_of_neg (by simp [hspace]), List.append_nil]
    have hdrop : (cs ++ ' ' :: rest).dropWhile isBareChar = ' ' :: rest := by
      rw [List.dropWhile_append_of_pos hb.2, List.dropWhile_cons_of_neg (by simp [hspace])]
    rw [simpleKey_bare (by rw [htake]; exact hb.1), htake, hdrop]
  · split
    · exact hbasic
    · split
      · rename_i hfits
        have happ : Form.literal.write cs ++ ' ' :: rest = '\'' :: (cs ++ '\'' :: ' ' :: rest) := by simp [Form.write]
        rw [happ]
        exact hquoted (by decide) (literalRest_literal _ cs hfits)
      · exact hbasic

/-- What a key begins with is skipped by nothing and begins no header. -/
theorem writeKey_head (cs : List Char) : ∃ c rest, writeKey cs = c :: rest ∧ IsSolid c ∧ c ≠ '[' := by
  unfold writeKey
  split
  · rename_i hb
    cases cs with
    | nil => cases hb
    | cons c cs =>
      simp only [isBare, List.isEmpty_cons, Bool.not_false, Bool.true_and, List.all_cons, Bool.and_eq_true] at hb
      have hne : ∀ {d : Char}, isBareChar d = false → c ≠ d := by
        rintro d hd rfl
        rw [hb.1] at hd
        cases hd
      refine ⟨c, cs, rfl, ⟨?_, hne (by decide), hne (by decide), hne (by decide)⟩, hne (by decide)⟩
      simp [isSpace, hne (d := ' ') (by decide), hne (d := '\t') (by decide)]
  · split
    · exact ⟨'"', _, rfl, by decide, by decide⟩
    · split
      · exact ⟨'\'', _, rfl, by decide, by decide⟩
      · exact ⟨'"', _, rfl, by decide, by decide⟩

theorem writeString_head (cs : List Char) : ∃ q rest, writeString cs = q :: rest ∧ (q = '"' ∨ q = '\'') := by
  unfold writeString
  cases formOf cs
  · exact ⟨'"', _, rfl, .inl rfl⟩
  · exact ⟨'\'', _, rfl, .inr rfl⟩
  · exact ⟨'"', _, rfl, .inl rfl⟩
  · exact ⟨'\'', _, rfl, .inr rfl⟩

theorem noReturn_escapedChar (c : Char) : '\r' ∉ escapedChar c := by
  by_cases hn : c = '\n'
  · subst hn; decide
  · rcases escapedChar_cases hn with ⟨e, he, d, f, -, -, -, hr, -⟩ | ⟨he, -, -, hr⟩ <;> rw [he]
    · simpa using hr
    · simpa using hr.symm

theorem noReturn_basicBody (cs : List Char) : '\r' ∉ basicBody cs := by
  simp only [basicBody, List.mem_flatMap, not_exists, not_and]
  intro c _
  split
  · decide
  · split
    · decide
    · exact noReturn_escapedChar c

theorem noReturn_multilineBody (cs : List Char) : ∀ k, '\r' ∉ multilineBody k cs := by
  induction cs with
  | nil => simp [multilineBody]
  | cons c cs ih =>
    intro k
    have := noReturn_escapedChar c
    rw [multilineBody]
    split
    · split <;> simp [ih]
    · split <;> simp [ih, this]

theorem noReturn_firstBreak (cs : List Char) : '\r' ∉ firstBreak cs := by
  unfold firstBreak
  split <;> simp

theorem noReturn_write {cs : List Char} {f : Form} (h : f.Suits cs) : '\r' ∉ f.write cs := by
  cases f with
  | basic => simpa [Form.write] using noReturn_basicBody cs
  | multilineBasic => simpa [Form.write] using ⟨noReturn_firstBreak cs, noReturn_multilineBody cs 0⟩
  | literal =>
    have hfits := fits_literal (h (.inl rfl))
    have : '\r' ∉ cs := fun hm => absurd (hfits _ hm).1 (by decide)
    simpa [Form.write] using this
  | multilineLiteral =>
    have hfits := fits_multilineLiteral (h (.inr rfl))
    have : '\r' ∉ cs := fun hm => absurd (hfits.1 _ hm) (by decide)
    simpa [Form.write] using ⟨noReturn_firstBreak cs, this⟩

theorem noReturn_writeKey (cs : List Char) : '\r' ∉ writeKey cs := by
  have hbasic : '\r' ∉ Form.basic.write cs := noReturn_write fun h => by simp at h
  unfold writeKey
  split
  · rename_i hb
    simp only [isBare, Bool.and_eq_true, List.all_eq_true] at hb
    intro hm
    have := hb.2 _ hm
    revert this
    decide
  · split
    · exact hbasic
    · split
      · rename_i hfits
        exact noReturn_write fun _ => hfits
      · exact hbasic

theorem toList_writeEntry (key value : String) : (writeEntry key value).toList =
    writeKey key.toList ++ ' ' :: '=' :: ' ' :: (writeString value.toList ++ ['\n']) := by
  simp [writeEntry]

theorem noReturn_writeEntry (key value : String) : '\r' ∉ (writeEntry key value).toList := by
  have h1 := noReturn_writeKey key.toList
  have h2 := noReturn_write (formOf_suits value.toList)
  rw [toList_writeEntry]
  simpa [writeString] using ⟨h1, h2⟩

theorem value_writeString (n : Nat) (cs : List Char) :
    value (n + 1) (skipSpace (' ' :: (writeString cs ++ ['\n']))) = some (some (String.ofList cs), ['\n']) := by
  obtain ⟨q, v, hv, hq⟩ := writeString_head cs
  have hstring : string (writeString cs ++ ['\n']) = some (cs, ['\n']) := string_write (formOf_suits cs) []
  have hspace : skipSpace (' ' :: (writeString cs ++ ['\n'])) = writeString cs ++ ['\n'] := by
    rw [skipSpace, List.dropWhile_cons_of_pos (by decide), hv, List.cons_append,
      List.dropWhile_cons_of_neg (by rcases hq with rfl | rfl <;> decide)]
  rw [hspace]
  rw [hv, List.cons_append] at hstring ⊢
  rw [value_string n hq, hstring]
  rfl

theorem readPair_writeEntry (key value : String) (n : Nat) :
    readPair (n + 2) (writeEntry key value).toList = some (([key], some value), ['\n']) := by
  have hkey := simpleKey_writeKey key.toList ('=' :: ' ' :: (writeString value.toList ++ ['\n']))
  have hspace : skipSpace (' ' :: '=' :: ' ' :: (writeString value.toList ++ ['\n'])) =
      '=' :: ' ' :: (writeString value.toList ++ ['\n']) := rfl
  rw [readPair, toList_writeEntry, pair_eq, key_last hkey (by rw [hspace]; simp)]
  simp only [Option.bind_some, hspace, value_writeString, Option.map_some, String.ofList_toList]

/-- The line that gives a key a string is read as such. -/
theorem rereads_writeEntry (key value : String) : (Statement.line ⟨[key], some value, writeEntry key value⟩).Rereads := by
  obtain ⟨c, k, hk, hsolid, hc⟩ := writeKey_head key.toList
  have hcons : (writeEntry key value).toList = c :: (k ++ ' ' :: '=' :: ' ' :: (writeString value.toList ++ ['\n'])) := by
    rw [toList_writeEntry, hk, List.cons_append]
  have hskip : skipTrivia (writeEntry key value).toList = (writeEntry key value).toList := by
    rw [hcons, skipTrivia_stop hsolid]
  have hhead : (writeEntry key value).toList.head? ≠ some '[' := by rw [hcons]; simpa using hc
  obtain ⟨n, hn⟩ : ∃ n, (writeEntry key value).toList.length = n + 1 := ⟨_, by rw [hcons, List.length_cons]⟩
  have hconsumed := consumed_append (noReturn_writeEntry key value) []
  have hline : endedLine (writeEntry key value).toList = writeEntry key value := by
    have hend : (writeEntry key value).toList.getLast? = some '\n' := by rw [writeEntry, String.toList_ofList, List.getLast?_concat]
    rw [endedLine, if_pos hend, String.ofList_toList]
  rw [List.append_nil] at hconsumed
  show statement (writeEntry key value).toList = _
  rw [statement_eq, hskip, Statement.front_pair hhead, hn, readPair_writeEntry]
  simp only [Option.map_some, Option.bind_some]
  rw [show closeLine ['\n'] = some [] from rfl, Option.map_some, hconsumed, hline]

end GraphqlCodegen.Toml
