import GraphqlCodegen.Sdl.Lexer

/-!
# What a text is made up of

`Lexes text tokens` says that a text is exactly these tokens with blank space and commas between
them, and no comment. It is built from the front, so a printed text is related to its tokens piece
by piece. `ofText_spells` carries the relation over to the reader of tokens with its places and its
budget of brackets: all it needs is that the tokens nest within the budget (`nesting`).
-/

namespace GraphqlCodegen.Sdl

/-- The tokens of a text that was read to its end, whatever their places. -/
inductive Tokens.Spells : Tokens → List Token → Prop
  | finish (p : Position) : Spells (.finish p) []
  | cons {t : Token} {p : Position} {rest : Tokens} {ts : List Token} :
    Spells rest ts → Spells (.cons t p rest) (t :: ts)

theorem Tokens.Spells.head? : ∀ {T : Tokens} {ts : List Token}, T.Spells ts → T.head? = ts.head?
  | _, _, .finish _ => rfl
  | _, _, .cons _ => rfl

theorem Tokens.Spells.length : ∀ {T : Tokens} {ts : List Token}, T.Spells ts → T.length = ts.length
  | _, _, .finish _ => rfl
  | _, _, .cons h => by simp [Tokens.length, h.length]

namespace Lexer

/-- What stands between tokens, comments aside. -/
def isSeparator (c : Char) : Bool :=
  c = ' ' || c = ',' || c = '\t' || c = '\n' || c = '\r' || c = '\uFEFF'

/-- The text is made up of exactly these tokens, with separators between them and no comment. -/
inductive Lexes : List Char → List Token → Prop
  | nil : Lexes [] []
  | blank {c : Char} {cs : List Char} {ts : List Token} :
    isSeparator c = true → Lexes cs ts → Lexes (c :: cs) ts
  | token {t : Token} {cs text rest : List Char} {ts : List Token} :
    readToken cs = some (t, text, rest) → Lexes rest ts → Lexes cs (t :: ts)

/-- No name or number goes on where this text begins, and no quote follows one. -/
def atBoundary : List Char → Bool
  | [] => true
  | c :: _ => endsNumber c

/-- The brackets that are open at a time, at most. -/
def nesting : List Token → Nat
  | [] => 0
  | .mark c :: ts =>
    if c = '(' || c = '[' || c = '{' then nesting ts + 1
    else if c = ')' || c = ']' || c = '}' then nesting ts - 1
    else nesting ts
  | _ :: ts => nesting ts

/-! ## Characters -/

theorem not_isNameChar_of_endsNumber {c : Char} (h : endsNumber c = true) : isNameChar c = false := by
  simp only [endsNumber, List.contains_eq_mem, List.mem_cons, List.not_mem_nil, or_false, decide_eq_true_eq] at h
  rcases h with h | h | h | h | h | h | h | h | h | h | h | h | h | h | h | h | h | h | h <;> subst h <;> decide

theorem endsNumber_of_isMark {c : Char} (h : isMark c = true) : endsNumber c = true := by
  simp only [isMark, endsNumber, List.contains_eq_mem, List.mem_cons, decide_eq_true_eq] at h ⊢
  rcases h with h | h | h | h | h | h | h | h | h | h | h | h | h | h <;> simp_all

theorem not_isMark_of_isNameStart {c : Char} (h : isNameStart c = true) : isMark c = false := by
  rw [Bool.eq_false_iff]
  intro hm
  have hn := not_isNameChar_of_endsNumber (endsNumber_of_isMark hm)
  simp only [isNameStart, Bool.or_eq_true, decide_eq_true_eq] at h
  simp only [isNameChar, Char.isAlphanum, Bool.or_eq_false_iff, decide_eq_false_iff_not] at hn
  rcases h with h | h
  · rw [h] at hn; exact absurd hn.1.1 (by simp)
  · exact hn.2 h

theorem ne_quote_of_endsNumber {c : Char} (h : endsNumber c = true) : c ≠ '"' := by
  rintro rfl; exact absurd h (by decide)

/-- No token begins with a separator or with the sign of a comment. -/
theorem readToken_start {c : Char} {cs : List Char} {r : Token × List Char × List Char}
    (h : readToken (c :: cs) = some r) : isSeparator c = false ∧ c ≠ '#' := by
  have key : ∀ d : Char, (isSeparator d || d = '#') = true → readToken (d :: cs) = none := by
    intro d hd
    simp only [isSeparator, Bool.or_eq_true, decide_eq_true_eq] at hd
    rcases hd with ((((((hd | hd) | hd) | hd) | hd) | hd) | hd) <;> subst hd <;> rfl
  constructor
  · rw [Bool.eq_false_iff]
    intro hs
    rw [key c (by simp [hs])] at h
    exact absurd h (by simp)
  · rintro rfl
    rw [key '#' (by simp)] at h
    exact absurd h (by simp)

/-! ## Tokens are read off one after the other -/

theorem skipIgnored_separator {c : Char} (h : isSeparator c = true) (p : Position) (cs : List Char) :
    ∃ q, skipIgnored p (c :: cs) = skipIgnored q cs := by
  simp only [isSeparator, Bool.or_eq_true, decide_eq_true_eq] at h
  rcases h with (((((h | h) | h) | h) | h) | h) <;> subst h <;> exact ⟨_, rfl⟩

theorem skipIgnored_token {c : Char} (h : isSeparator c = false) (hc : c ≠ '#') (p : Position) (cs : List Char) :
    skipIgnored p (c :: cs) = (p, c :: cs) := by
  simp only [isSeparator, Bool.or_eq_false_iff, decide_eq_false_iff_not] at h
  obtain ⟨⟨⟨⟨⟨h1, h2⟩, h3⟩, h4⟩, h5⟩, h6⟩ := h
  rw [skipIgnored]
  simp [h1, h2, h3, h4, h5, h6, hc]

/-- A token can be paid for if all that follows nests within the budget. -/
theorem spend_of_nesting {budget : Nat} {t : Token} {ts : List Token} (h : nesting (t :: ts) ≤ budget) :
    ∃ left, spend budget t = some left ∧ nesting ts ≤ left := by
  cases t with
  | mark c =>
    by_cases ho : (c = '(' || c = '[' || c = '{') = true
    · simp only [nesting, ho, if_true] at h
      obtain ⟨n, rfl⟩ : ∃ n, budget = n + 1 := ⟨budget - 1, by omega⟩
      exact ⟨n, by simp only [spend, ho, if_true], by omega⟩
    · by_cases hc : (c = ')' || c = ']' || c = '}') = true
      · simp only [nesting, ho, hc, if_true, Bool.false_eq_true, if_false] at h
        exact ⟨budget + 1, by simp only [spend, ho, hc, if_true, Bool.false_eq_true, if_false], by omega⟩
      · simp only [nesting, ho, hc, Bool.false_eq_true, if_false] at h
        exact ⟨budget, by simp only [spend, ho, hc, Bool.false_eq_true, if_false], h⟩
  | _ => exact ⟨budget, rfl, h⟩

theorem tokensFrom_spells {cs : List Char} {ts : List Token} (h : Lexes cs ts) :
    ∀ (fuel budget : Nat) (p : Position), ts.length < fuel → nesting ts ≤ budget →
      (tokensFrom fuel budget p cs).Spells ts := by
  induction h with
  | nil =>
    intro fuel budget p hf _
    obtain ⟨fuel, rfl⟩ : ∃ n, fuel = n + 1 := ⟨fuel - 1, by omega⟩
    exact .finish p
  | @blank c cs ts hc _ ih =>
    intro fuel budget p hf hb
    obtain ⟨q, hq⟩ := skipIgnored_separator hc p cs
    have := ih fuel budget q hf hb
    obtain ⟨fuel, rfl⟩ : ∃ n, fuel = n + 1 := ⟨fuel - 1, by omega⟩
    rwa [tokensFrom, ← hq] at this
  | @token t cs text rest ts ht _ ih =>
    intro fuel budget p hf hb
    obtain ⟨fuel, rfl⟩ : ∃ n, fuel = n + 1 := ⟨fuel - 1, by omega⟩
    obtain ⟨left, hs, hl⟩ := spend_of_nesting hb
    cases cs with
    | nil => exact absurd ht (by simp [readToken])
    | cons c cs =>
      obtain ⟨h1, h2⟩ := readToken_start ht
      rw [tokensFrom, skipIgnored_token h1 h2]
      simp only [ht, hs]
      exact .cons (ih fuel left _ (by simp at hf; omega) hl)

/-! ## Each token takes some of the text -/

theorem quotedBody_length : ∀ {escaped : Bool} {cs body rest : List Char},
    quotedBody escaped cs = some (body, rest) → rest.length < cs.length
  | _, [], _, _, h => by simp [quotedBody] at h
  | escaped, c :: cs, body, rest, h => by
    rw [quotedBody] at h
    split at h
    · cases h; simp
    · split at h
      · cases h
      · rw [Option.map_eq_some_iff] at h
        obtain ⟨⟨b, r⟩, hr, he⟩ := h
        cases he
        have := quotedBody_length hr
        simp; omega

theorem body_length : ∀ {escaped : Bool} {cs raw rest : List Char},
    BlockString.body escaped cs = some (raw, rest) → rest.length < cs.length := by
  intro escaped cs
  fun_induction BlockString.body escaped cs with
  | case1 cs ih =>
    intro raw rest h
    rw [Option.map_eq_some_iff] at h
    obtain ⟨⟨b, r⟩, hr, he⟩ := h
    cases he
    have := ih hr
    simp; omega
  | case2 escaped cs hn =>
    intro raw rest h
    cases h; simp; omega
  | case3 escaped c cs hn ih =>
    intro raw rest h
    rw [Option.map_eq_some_iff] at h
    obtain ⟨⟨b, r⟩, hr, he⟩ := h
    cases he
    have := ih hr
    simp; omega
  | case4 => intro raw rest h; simp at h

theorem readString_length {cs text rest : List Char} {t : Token} (h : readString cs = some (t, text, rest)) :
    rest.length < cs.length := by
  unfold readString at h
  split at h
  · simp only [Option.bind_eq_bind, Option.bind_eq_some_iff] at h
    obtain ⟨⟨raw, r⟩, hb, he⟩ := h
    cases he
    have := body_length hb
    simp; omega
  · simp only [Option.bind_eq_bind, Option.bind_eq_some_iff] at h
    obtain ⟨⟨raw, r⟩, hb, v, -, he⟩ := h
    cases he
    have := quotedBody_length hb
    simp; omega
  · cases h

theorem readToken_length {cs text rest : List Char} {t : Token} (h : readToken cs = some (t, text, rest)) :
    rest.length < cs.length := by
  cases cs with
  | nil => simp [readToken] at h
  | cons c cs =>
    have hd : ∀ p : Char → Bool, (cs.dropWhile p).length ≤ cs.length :=
      fun p => (List.dropWhile_sublist p).length_le
    simp only [readToken] at h
    split at h
    · cases h; simp
    · split at h
      · cases h; have := hd isNameChar; simp; omega
      · split at h
        · rw [Option.map_eq_some_iff] at h
          obtain ⟨t, -, he⟩ := h
          cases he; have := hd (!endsNumber ·); simp; omega
        · split at h
          · exact readString_length h
          · split at h
            · cases h; simp; omega
            · cases h

theorem Lexes.length_le {cs : List Char} {ts : List Token} (h : Lexes cs ts) : ts.length ≤ cs.length := by
  induction h with
  | nil => simp
  | blank _ _ ih => simp; omega
  | token ht _ ih => have := readToken_length ht; simp; omega

end Lexer

/-- A text made up of tokens that nest within the limit is read as these tokens. -/
theorem Tokens.ofText_spells {cs : List Char} {ts : List Token} (h : Lexer.Lexes cs ts)
    (hn : Lexer.nesting ts ≤ nestingLimit) : (Tokens.ofText cs).Spells ts :=
  Lexer.tokensFrom_spells h _ _ _ (by have := h.length_le; omega) hn

namespace Lexer

/-! ## What stands behind a token -/

theorem takeWhile_append_boundary {p : Char → Bool} (hp : ∀ c, endsNumber c = true → p c = false)
    (cs : List Char) : ∀ {more : List Char}, atBoundary more = true →
      (cs ++ more).takeWhile p = cs.takeWhile p ∧ (cs ++ more).dropWhile p = cs.dropWhile p ++ more := by
  intro more hm
  induction cs with
  | nil =>
    cases more with
    | nil => simp
    | cons c more => simp [hp c hm]
  | cons c cs ih =>
    by_cases hc : p c = true
    · simp [hc, ih.1, ih.2]
    · simp [hc]

theorem quotedBody_append (more : List Char) : ∀ {escaped : Bool} {cs body rest : List Char},
    quotedBody escaped cs = some (body, rest) → quotedBody escaped (cs ++ more) = some (body, rest ++ more)
  | _, [], _, _, h => by simp [quotedBody] at h
  | escaped, c :: cs, body, rest, h => by
    rw [quotedBody] at h
    rw [List.cons_append, quotedBody]
    split at h
    · cases h; simp_all
    · rename_i hq
      split at h
      · cases h
      · rename_i hn
        rw [Option.map_eq_some_iff] at h
        obtain ⟨⟨b, r⟩, hr, he⟩ := h
        cases he
        simp only [hq, hn, Bool.false_eq_true, if_false, quotedBody_append more hr, Option.map_some]

theorem body_append (more : List Char) : ∀ {escaped : Bool} {cs raw rest : List Char},
    BlockString.body escaped cs = some (raw, rest) →
      BlockString.body escaped (cs ++ more) = some (raw, rest ++ more) := by
  intro escaped cs
  fun_induction BlockString.body escaped cs with
  | case1 cs ih =>
    intro raw rest h
    rw [Option.map_eq_some_iff] at h
    obtain ⟨⟨b, r⟩, hr, he⟩ := h
    cases he
    simp [BlockString.body, ih hr]
  | case2 escaped cs hn =>
    intro raw rest h
    cases h
    simp [BlockString.body, hn]
  | case3 escaped c cs hn ih =>
    intro raw rest h
    rw [Option.map_eq_some_iff] at h
    obtain ⟨⟨b, r⟩, hr, he⟩ := h
    cases he
    rw [List.cons_append, BlockString.body, ih hr]
    · rfl
    · intro tail hc ht
      -- a triple quote that the appended text completes would leave too little of `cs` to hold one
      cases cs with
      | nil => simp [BlockString.body] at hr
      | cons d ds =>
        cases ds with
        | nil =>
          simp only [List.cons_append, List.nil_append, List.cons.injEq] at ht
          subst hc; rw [ht.1] at hr
          simp [BlockString.body] at hr
        | cons e es =>
          simp only [List.cons_append, List.cons.injEq] at ht
          exact hn es hc (by rw [ht.1, ht.2.1])
  | case4 => intro raw rest h; simp at h

/-- The quotes of an empty string are not those of a block string. -/
theorem readString_append {cs text rest more : List Char} {t : Token} (hm : atBoundary more = true)
    (h : readString cs = some (t, text, rest)) : readString (cs ++ more) = some (t, text, rest ++ more) := by
  unfold readString at h
  split at h
  · simp only [Option.bind_eq_bind, Option.bind_eq_some_iff] at h
    obtain ⟨⟨raw, r⟩, hb, he⟩ := h
    cases he
    simp [readString, body_append more hb]
  · rename_i cs' hn
    simp only [Option.bind_eq_bind, Option.bind_eq_some_iff] at h
    obtain ⟨⟨raw, r⟩, hb, v, hv, he⟩ := h
    cases he
    rw [List.cons_append, readString]
    · simp [quotedBody_append more hb, hv]
    · intro tail ht
      cases cs' with
      | nil => simp [quotedBody] at hb
      | cons d ds =>
        cases ds with
        | nil =>
          cases more with
          | nil => simp at ht
          | cons m more =>
            simp only [List.cons_append, List.nil_append, List.cons.injEq] at ht
            exact ne_quote_of_endsNumber hm ht.2.1
        | cons e es =>
          simp only [List.cons_append, List.cons.injEq] at ht
          exact hn es (by rw [ht.1, ht.2.1])
  · cases h

theorem readToken_append {cs text rest more : List Char} {t : Token} (hm : atBoundary more = true)
    (h : readToken cs = some (t, text, rest)) : readToken (cs ++ more) = some (t, text, rest ++ more) := by
  cases cs with
  | nil => simp [readToken] at h
  | cons c cs =>
    have hname := takeWhile_append_boundary (fun _ => not_isNameChar_of_endsNumber) cs hm
    have hnum := takeWhile_append_boundary (p := (!endsNumber ·)) (fun _ h => by simp [h]) cs hm
    simp only [readToken] at h
    simp only [List.cons_append, readToken]
    split at h
    · rename_i h1; cases h; simp [h1]
    · rename_i h1
      split at h
      · rename_i h2; cases h; simp [h1, h2, hname.1, hname.2]
      · rename_i h2
        split at h
        · rename_i h3
          rw [Option.map_eq_some_iff] at h
          obtain ⟨t, ht, he⟩ := h
          cases he
          simp [h1, h2, h3, hnum.1, hnum.2, ht]
        · rename_i h3
          split at h
          · rename_i h4
            have hs := readString_append hm h
            simp only [h1, h2, h3, Bool.false_eq_true, if_false]
            rw [if_pos h4]
            exact hs
          · rename_i h4
            split at h
            · cases h; simp [h1, h2, h4]
            · cases h

/-- Texts whose tokens cannot run into each other are read one after the other. -/
theorem Lexes.append {cs more : List Char} {ts us : List Token} (h : Lexes cs ts)
    (hm : atBoundary more = true) (hu : Lexes more us) : Lexes (cs ++ more) (ts ++ us) := by
  induction h with
  | nil => exact hu
  | blank hc _ ih => exact .blank hc ih
  | token ht _ ih => exact .token (readToken_append hm ht) ih

/-! ## The tokens one by one -/

/-- The text is a name: a letter or an underscore, and more of them or digits. -/
def isNameText (s : String) : Bool :=
  match s.toList with
  | [] => false
  | c :: cs => isNameStart c && cs.all isNameChar

theorem Lexes.mark {c : Char} {cs : List Char} {ts : List Token} (hc : isMark c = true) (h : Lexes cs ts) :
    Lexes (c :: cs) (.mark c :: ts) :=
  @Lexes.token _ _ [c] _ _ (by simp [readToken, hc]) h

theorem Lexes.name {n : String} {cs : List Char} {ts : List Token} (hn : isNameText n = true)
    (hb : atBoundary cs = true) (h : Lexes cs ts) : Lexes (n.toList ++ cs) (.name n :: ts) := by
  have hr : readToken n.toList = some (.name n, n.toList, []) := by
    unfold isNameText at hn
    cases hl : n.toList with
    | nil => rw [hl] at hn; exact absurd hn (by simp)
    | cons c rest =>
      rw [hl] at hn
      simp only [Bool.and_eq_true] at hn
      obtain ⟨h1, h2⟩ := hn
      have hm := not_isMark_of_isNameStart h1
      have hall : ∀ x ∈ rest, isNameChar x = true := by simpa using h2
      have ht : rest.takeWhile isNameChar = rest := by
        simpa using @List.takeWhile_append_of_pos _ isNameChar rest [] hall
      have hd : rest.dropWhile isNameChar = [] := by
        simpa using @List.dropWhile_append_of_pos _ isNameChar rest [] hall
      simp only [readToken, hm, h1, ht, hd, Bool.false_eq_true, if_false, if_true]
      rw [← hl, String.ofList_toList]
  exact .token (readToken_append hb hr) h

/-! ## Brackets -/

/-- Every bracket that is opened is closed again, so that what follows nests as it does alone. -/
def Balanced (ts : List Token) : Prop := ∀ us, nesting (ts ++ us) = max (nesting ts) (nesting us)

/-- As `Balanced`, behind a bracket that is closed at the end. -/
def Closing (ts : List Token) : Prop := ∀ us, nesting (ts ++ us) = max (nesting ts) (nesting us - 1)

def isOpening (c : Char) : Bool := c = '(' || c = '[' || c = '{'

def isClosing (c : Char) : Bool := c = ')' || c = ']' || c = '}'

def isBracket : Token → Bool
  | .mark c => isOpening c || isClosing c
  | _ => false

theorem nesting_open {c : Char} (h : isOpening c = true) (ts : List Token) :
    nesting (.mark c :: ts) = nesting ts + 1 := by
  unfold isOpening at h
  simp only [nesting, h, if_true]

theorem nesting_close {c : Char} (h : isClosing c = true) (ts : List Token) :
    nesting (.mark c :: ts) = nesting ts - 1 := by
  simp only [isClosing, Bool.or_eq_true, decide_eq_true_eq] at h
  rcases h with (h | h) | h <;> subst h <;> rfl

theorem nesting_other {t : Token} (h : isBracket t = false) (ts : List Token) : nesting (t :: ts) = nesting ts := by
  cases t with
  | mark c =>
    simp only [isBracket, isOpening, isClosing, Bool.or_eq_false_iff] at h
    obtain ⟨⟨⟨h1, h2⟩, h3⟩, ⟨h4, h5⟩, h6⟩ := h
    simp only [nesting, h1, h2, h3, h4, h5, h6, Bool.or_self, Bool.false_eq_true, if_false]
  | _ => rfl

theorem Balanced.nil : Balanced [] := fun us => by simp [nesting]

theorem Balanced.append {ts us : List Token} (h : Balanced ts) (h' : Balanced us) : Balanced (ts ++ us) := by
  intro vs
  rw [List.append_assoc, h, h', h us]
  omega

theorem Balanced.cons {t : Token} {ts : List Token} (ht : isBracket t = false) (h : Balanced ts) : Balanced (t :: ts) := by
  intro us
  rw [List.cons_append, nesting_other ht, nesting_other ht, h]

theorem Closing.mark {c : Char} (h : isClosing c = true) : Closing [.mark c] := by
  intro us
  rw [List.singleton_append, nesting_close h, nesting_close h]
  simp [nesting]

theorem Balanced.append_closing {ts us : List Token} (h : Balanced ts) (h' : Closing us) : Closing (ts ++ us) := by
  intro vs
  rw [List.append_assoc, h, h', h us]
  omega

theorem Closing.cons {t : Token} {ts : List Token} (ht : isBracket t = false) (h : Closing ts) : Closing (t :: ts) := by
  intro us
  rw [List.cons_append, nesting_other ht, nesting_other ht, h]

theorem Closing.open {c : Char} {ts : List Token} (hc : isOpening c = true) (h : Closing ts) :
    Balanced (.mark c :: ts) := by
  intro us
  rw [List.cons_append, nesting_open hc, nesting_open hc, h]
  omega

/-- Balanced tokens that nest no deeper than there is room for. -/
structure Nests (room : Nat) (ts : List Token) : Prop where
  balanced : Balanced ts
  le : nesting ts ≤ room

variable {room : Nat} {ts us : List Token}

theorem Nests.nil : Nests room [] := ⟨Balanced.nil, by simp [nesting]⟩

theorem Nests.append (h : Nests room ts) (h' : Nests room us) : Nests room (ts ++ us) :=
  ⟨h.balanced.append h'.balanced, by have := h.le; have := h'.le; rw [h.balanced]; omega⟩

theorem Nests.cons {t : Token} (ht : isBracket t = false) (h : Nests room ts) : Nests room (t :: ts) :=
  ⟨h.balanced.cons ht, by rw [nesting_other ht]; exact h.le⟩

theorem Nests.bracket {l r : Char} (hl : isOpening l = true) (hr : isClosing r = true) (h : Nests room ts) :
    Nests (room + 1) (.mark l :: (ts ++ [.mark r])) := by
  refine ⟨(h.balanced.append_closing (Closing.mark hr)).open hl, ?_⟩
  have := h.le
  rw [nesting_open hl, h.balanced, nesting_close hr]
  simp only [nesting]
  omega

theorem Nests.flatMap {α : Type} {f : α → List Token} : ∀ {l : List α}, (∀ a ∈ l, Nests room (f a)) →
    Nests room (l.flatMap f)
  | [], _ => Nests.nil
  | a :: l, h => by
    rw [List.flatMap_cons]
    exact (h a (by simp)).append (Nests.flatMap fun b hb => h b (by simp [hb]))

/-! ## Texts and their tokens -/

/-- The text is made up of these tokens, in front of whatever begins apart from it. -/
def Writes (text : String) (ts : List Token) : Prop :=
  ∀ ⦃rest : List Char⦄ ⦃us : List Token⦄, atBoundary rest = true → Lexes rest us →
    Lexes (text.toList ++ rest) (ts ++ us)

/-- The same for a text that ends its line, so that anything may follow it. -/
def WritesLine (text : String) (ts : List Token) : Prop :=
  ∀ ⦃rest : List Char⦄ ⦃us : List Token⦄, Lexes rest us → Lexes (text.toList ++ rest) (ts ++ us)

theorem Writes.name {n : String} (h : isNameText n = true) : Writes n [.name n] :=
  fun _ _ hb hr => Lexes.name h hb hr

theorem Writes.bracket {l r : Char} {text : String} {ts : List Token} (hl : isMark l = true) (hr : isMark r = true)
    (h : Writes text ts) : Writes (String.ofList [l] ++ text ++ String.ofList [r]) (.mark l :: (ts ++ [.mark r])) := by
  intro rest us _ hu
  have hinner := @h (r :: rest) _ (endsNumber_of_isMark hr) (Lexes.mark hr hu)
  simpa using Lexes.mark hl hinner

variable {α : Type} {g : α → String} {tok : α → List Token}

theorem concat_writes : ∀ {xs : List α}, (∀ x ∈ xs, WritesLine (g x) (tok x)) →
    WritesLine (Text.concat (xs.map g)) (xs.flatMap tok)
  | [], _ => fun _ _ hr => hr
  | x :: xs, h => by
    intro rest us hr
    have hxs : ∀ y ∈ xs, WritesLine (g y) (tok y) := fun y hy => h y (by simp [hy])
    rw [List.map_cons, Text.concat, String.toList_append, List.flatMap_cons, List.append_assoc, List.append_assoc]
    exact h x (by simp) (concat_writes hxs hr)

/-- Parts with a separator between each two; `seps` are the tokens of the separator. -/
theorem joined_writes {sep : String} {seps : List Token} (hb : ∀ rest, atBoundary (sep.toList ++ rest) = true)
    (hs : WritesLine sep seps) : ∀ {x : α} {xs : List α}, (∀ y ∈ x :: xs, Writes (g y) (tok y)) →
      Writes (Text.joined sep ((x :: xs).map g)) (tok x ++ xs.flatMap fun y => seps ++ tok y)
  | x, [], h => by
    intro rest us hr hu
    simpa [Text.joined] using h x (by simp) hr hu
  | x, y :: ys, h => by
    intro rest us hr hu
    have hys : ∀ z ∈ y :: ys, Writes (g z) (tok z) := fun z hz => h z (List.mem_cons_of_mem _ hz)
    have hx := h x (by simp) (hb _) (hs (joined_writes hb hs hys hr hu))
    simpa [Text.joined] using hx

theorem commas_writes {xs : List α} (h : ∀ x ∈ xs, Writes (g x) (tok x)) :
    Writes (Text.joined ", " (xs.map g)) (xs.flatMap tok) := by
  cases xs with
  | nil => exact fun _ _ _ hu => hu
  | cons x xs =>
    have hcomma : WritesLine ", " [] := fun _ _ hu => .blank rfl (.blank rfl hu)
    exact joined_writes (fun _ => rfl) hcomma h

end Lexer
end GraphqlCodegen.Sdl
