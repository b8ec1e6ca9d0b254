import GraphqlCodegen.Proofs.Sdl.Constant
import GraphqlCodegen.Proofs.Sdl.Soundness

/-!
# How a document begins

The first token of a document is the keyword of a definition, or a string that describes a definition, and then its
keyword comes next (`parse_opens`). In front of the first token may stand anything that is skipped: `content` is what
the text has from there on. That leaves two ways for its text to begin, with the letters of a name or with a quote
(`readToken_described`).
-/

namespace GraphqlCodegen.Sdl

/-- The names that a definition begins with. -/
def keywords : List String :=
  ["schema", "extend", "directive", "scalar", "type", "interface", "union", "enum", "input"]

/-- What a document begins with: a keyword, or a string with a keyword behind it. -/
inductive Tokens.Opens : Tokens → Prop
  | keyword {n : String} {p : Position} {rest : Tokens} : n ∈ keywords → Opens (.cons (.name n) p rest)
  | described {s n : String} {p q : Position} {rest : Tokens} : n ∈ keywords →
    Opens (.cons (.string s) p (.cons (.name n) q rest))

/-! ## Readers -/

theorem TypeKeyword.ofName_keyword {n : String} {k : TypeKeyword} (h : ofName n = some k) : n ∈ keywords := by
  unfold ofName at h
  split at h <;> first | decide | cases h

namespace Reader

variable {fuel : Nat} {T T' : Tokens}

theorem description_ok {text : Option String} (h : description T = .ok (text, T')) :
    T' = T ∨ ∃ s p, T = .cons (.string s) p T' := by
  cases T with
  | finish p => cases h; exact .inl rfl
  | stuck p => cases h; exact .inl rfl
  | cons t p rest =>
    cases t with
    | string s => cases h; exact .inr ⟨s, p, rfl⟩
    | _ => cases h; exact .inl rfl

theorem described_ok {text : Option String} {x : Definition} (h : described fuel text T = .ok (x, T')) :
    ∃ n p rest, T = .cons (.name n) p rest ∧ n ∈ keywords := by
  cases T with
  | finish p => cases h
  | stuck p => cases h
  | cons t p rest =>
    cases t with
    | name n =>
      refine ⟨n, p, rest, rfl, ?_⟩
      obtain ⟨u, U, hp, hs⟩ := bind_ok h
      cases hp
      simp only [Tokens.head?] at hs
      cases hk : TypeKeyword.ofName n with
      | some k => exact TypeKeyword.ofName_keyword hk
      | none =>
        rw [hk] at hs
        by_cases hn : n = "directive"
        · subst hn; decide
        · simp only [if_neg hn] at hs; cases hs
    | _ => cases h

theorem definition_opens {x : Definition} (h : definition fuel T = .ok (x, T')) : T.Opens := by
  have hd : (description >>= described fuel) T = .ok (x, T') → T.Opens := by
    intro hd
    obtain ⟨text, U, ht, hd⟩ := bind_ok hd
    obtain ⟨n, p, rest, rfl, hn⟩ := described_ok hd
    rcases description_ok ht with rfl | ⟨s, q, rfl⟩
    · exact .keyword hn
    · exact .described hn
  cases T with
  | finish p => exact hd h
  | stuck p => exact hd h
  | cons t p rest =>
    cases t with
    | name n =>
      by_cases hs : n = "schema"
      · subst hs; exact .keyword (by decide)
      · by_cases he : n = "extend"
        · subst he; exact .keyword (by decide)
        · obtain ⟨_, U, hp, h⟩ := bind_ok h
          cases hp
          obtain ⟨t, U, hp, h⟩ := bind_ok h
          cases hp
          simp only [Tokens.head?, Option.some.injEq, Token.name.injEq, hs, he, imp_self] at h
          exact hd h
    | _ => exact hd h

theorem document_opens {x : Document} (h : document fuel T = .ok (x, T')) : T.Opens := by
  cases fuel with
  | zero => cases h
  | succ fuel =>
    obtain ⟨d, U, hd, -⟩ := bind_ok h
    exact definition_opens hd

end Reader

theorem parse_opens {text : String} {d : Document} (h : parse text = .ok d) : (Tokens.ofText text.toList).Opens := by
  unfold parse at h
  simp only at h
  cases hd : document (2 * (Tokens.ofText text.toList).length + 2) (Tokens.ofText text.toList) with
  | error p => rw [hd] at h; cases h
  | ok r => exact Reader.document_opens hd

/-! ## Texts -/

namespace Lexer

mutual

/-- What is left of a text does not depend on where the text stands. -/
theorem skipIgnored_rest : ∀ cs : List Char, ∃ rest, rest <:+ cs ∧ ∀ p, (skipIgnored p cs).2 = rest
  | [] => ⟨[], List.suffix_refl _, fun _ => by rw [skipIgnored]⟩
  | c :: cs => by
    obtain ⟨rest, hs, hr⟩ := skipIgnored_rest cs
    by_cases hc : isSeparator c = true
    · refine ⟨rest, hs.trans (List.suffix_cons c cs), fun p => ?_⟩
      obtain ⟨q, hq⟩ := skipIgnored_separator hc p cs
      rw [hq, hr]
    · by_cases hn : c = '#'
      · obtain ⟨rest, hs, hr⟩ := skipComment_rest cs
        refine ⟨rest, hs.trans (List.suffix_cons c cs), fun p => ?_⟩
        subst hn
        exact hr p
      · exact ⟨c :: cs, List.suffix_refl _, fun p => by rw [skipIgnored_token (by simpa using hc) hn]⟩

theorem skipComment_rest : ∀ cs : List Char, ∃ rest, rest <:+ cs ∧ ∀ p, (skipComment p cs).2 = rest
  | [] => ⟨[], List.suffix_refl _, fun _ => by rw [skipComment]⟩
  | c :: cs => by
    by_cases hc : (c = '\n' || c = '\r') = true
    · obtain ⟨rest, hs, hr⟩ := skipIgnored_rest cs
      exact ⟨rest, hs.trans (List.suffix_cons c cs), fun p => by rw [skipComment, if_pos hc]; exact hr _⟩
    · obtain ⟨rest, hs, hr⟩ := skipComment_rest cs
      exact ⟨rest, hs.trans (List.suffix_cons c cs), fun p => by rw [skipComment, if_neg hc]; exact hr _⟩

end

/-- A text from its first token on. -/
def content (cs : List Char) : List Char := (skipIgnored Position.start cs).2

theorem skipIgnored_content (p : Position) (cs : List Char) : (skipIgnored p cs).2 = content cs := by
  obtain ⟨rest, -, h⟩ := skipIgnored_rest cs
  rw [content, h, h]

theorem content_suffix (cs : List Char) : content cs <:+ cs := by
  obtain ⟨rest, hs, h⟩ := skipIgnored_rest cs
  rwa [content, h]

theorem content_separator {c : Char} (h : isSeparator c = true) (cs : List Char) : content (c :: cs) = content cs := by
  obtain ⟨q, hq⟩ := skipIgnored_separator h Position.start cs
  rw [content, hq, skipIgnored_content]

theorem content_token {c : Char} (h : isSeparator c = false) (hc : c ≠ '#') (cs : List Char) :
    content (c :: cs) = c :: cs := by
  rw [content, skipIgnored_token h hc]

/-- The first token is the one that the text has where it is not skipped, and the others are those of what follows. -/
theorem tokensFrom_cons {fuel budget : Nat} {p q : Position} {cs : List Char} {t : Token} {ts : Tokens}
    (h : tokensFrom fuel budget p cs = .cons t q ts) : ∃ text rest, readToken (content cs) = some (t, text, rest) ∧
      ∃ fuel budget p, ts = tokensFrom fuel budget p rest := by
  cases fuel with
  | zero => cases h
  | succ fuel =>
    rw [tokensFrom] at h
    rw [← skipIgnored_content p cs]
    split at h
    · cases h
    · rename_i hs
      rw [hs]
      split at h
      · cases h
      · rename_i hr
        split at h
        · cases h
        · cases h
          exact ⟨_, _, hr, _, _, _, rfl⟩

theorem numberToken_ne_string {word : List Char} {s : String} : numberToken word ≠ some (.string s) := by
  unfold numberToken
  split
  split <;> split <;> simp

/-- A name begins with a letter or an underscore and goes on as long as it can; a string begins with a quote. -/
theorem readToken_described {c : Char} {cs text rest : List Char} {t : Token} (h : readToken (c :: cs) = some (t, text, rest))
    (ht : beginsDescribed t = true) :
    (isNameStart c = true ∧ t = .name (String.ofList (c :: cs.takeWhile isNameChar))) ∨
      (c = '"' ∧ readString ('"' :: cs) = some (t, text, rest)) := by
  simp only [readToken] at h
  split at h
  · cases h; cases ht
  · split at h
    · rename_i hc
      cases h
      exact .inl ⟨hc, rfl⟩
    · split at h
      · obtain ⟨u, hu, he⟩ := Option.map_eq_some_iff.1 h
        cases he
        cases t with
        | name n => exact absurd hu numberToken_ne_name
        | string s => exact absurd hu numberToken_ne_string
        | _ => cases ht
      · split at h
        · rename_i hc
          subst hc
          exact .inr ⟨rfl, h⟩
        · split at h <;> cases h
          cases ht

end Lexer
end GraphqlCodegen.Sdl
