import GraphqlCodegen.Proofs.Sdl.Openings
import GraphqlCodegen.Proofs.Sdl.Strings
import GraphqlCodegen.Run
import Mathlib.Data.List.TakeWhile

/-!
# Schema text and JSON

No schema text is JSON (`parse?_document`). A text that is JSON begins, behind spaces, with a bracket, a number, a quote
or one of three words (`Json.Begins`), and the schema language skips these spaces too. No definition begins with a bracket
or a number, and none of the words is a keyword; a description in quotes ends where the JSON string ends, so if the text
is JSON there is no keyword behind it.

So the body of a response that is schema text comes back as it is (`schemaText_document`), and an endpoint that answers
with it gives the tree that a file with this text gives (`schemaInput_document`).
-/

namespace GraphqlCodegen

/-! ## How JSON begins -/

namespace Json

open Reader

/-- The words that are values. -/
def words : List (List Char) := [['n', 'u', 'l', 'l'], ['t', 'r', 'u', 'e'], ['f', 'a', 'l', 's', 'e']]

/-- A text without spaces in front as it begins with a value, and what follows a string or a word. -/
inductive Begins : List Char → List Char → Prop
  | string {cs raw rest : List Char} : rawString cs = some (raw, rest) → Begins ('"' :: cs) rest
  | bracket {c : Char} {cs rest : List Char} : c = '[' ∨ c = '{' → Begins (c :: cs) rest
  | number {c : Char} {cs rest : List Char} : c = '-' ∨ c.isDigit = true → Begins (c :: cs) rest
  | word {w rest : List Char} : w ∈ words → Begins (w ++ rest) rest

theorem word?_eq : ∀ {ws cs rest : List Char}, word? ws cs = some rest → cs = ws ++ rest
  | [], _, _, h => Option.some.inj h
  | w :: ws, [], _, h => by cases h
  | w :: ws, c :: cs, rest, h => by
    rw [word?] at h
    split at h
    · rename_i hc
      rw [hc, word?_eq h, List.cons_append]
    · cases h

theorem number_begins {c : Char} {cs : List Char} {r : Value × List Char} (h : number (c :: cs) = some r) :
    c = '-' ∨ c.isDigit = true := by
  by_cases hm : c = '-'
  · exact .inl hm
  · refine .inr ?_
    cases hd : c.isDigit with
    | true => rfl
    | false =>
      unfold number at h
      split at h
      · rename_i hc
        split at hc
        · rename_i he
          exact absurd (List.cons.inj he).1 hm
        · cases hc
          simp [digits, hd] at h

theorem begins_word {c : Char} {w cs rest : List Char} {v v' : Value} (hw : c :: w ∈ words)
    (h : (word? w cs).map (fun rest => (v, rest)) = some (v', rest)) : Begins (c :: cs) rest := by
  obtain ⟨r, hr, he⟩ := Option.map_eq_some_iff.1 h
  cases he
  rw [word?_eq hr]
  exact .word hw

theorem value_begins {fuel depth : Nat} {cs rest : List Char} {v : Value} (h : value fuel depth cs = some (v, rest)) :
    Begins (skipSpace cs) rest := by
  cases fuel with
  | zero => cases h
  | succ fuel =>
    rw [value] at h
    split at h
    · cases h
    · rename_i c cs hs
      rw [hs]
      split at h
      · rename_i hc
        subst hc
        obtain ⟨⟨s, r⟩, hr, he⟩ := Option.map_eq_some_iff.1 h
        cases he
        obtain ⟨⟨raw, r⟩, hraw, he⟩ := Option.bind_eq_some_iff.1 hr
        obtain ⟨s, -, he⟩ := Option.bind_eq_some_iff.1 he
        cases he
        exact .string hraw
      · split at h
        · rename_i hc
          exact .bracket (.inl hc)
        · split at h
          · rename_i hc
            exact .bracket (.inr hc)
          · split at h
            · rename_i hc
              subst hc
              exact begins_word (by decide) h
            · split at h
              · rename_i hc
                subst hc
                exact begins_word (by decide) h
              · split at h
                · rename_i hc
                  subst hc
                  exact begins_word (by decide) h
                · exact .number (number_begins h)

/-- Behind the value there are only spaces. -/
theorem parse?_begins {text : List Char} {v : Value} (h : parse? text = some v) :
    ∃ rest, Begins (skipSpace text) rest ∧ ∀ c ∈ rest, isSpace c = true := by
  obtain ⟨⟨v, rest⟩, hv, h⟩ := Option.bind_eq_some_iff.1 h
  refine ⟨rest, value_begins hv, ?_⟩
  dsimp only at h
  split at h
  · rename_i hs
    rwa [skipSpace, List.isEmpty_iff, List.dropWhile_eq_nil_iff] at hs
  · cases h

end Json

/-! ## Both readers on one text -/

namespace Sdl

open Json.Reader (isSpace skipSpace rawString)
open Lexer

theorem isSeparator_of_isSpace {c : Char} (h : isSpace c = true) : isSeparator c = true := by
  simp only [isSpace, Bool.or_eq_true, decide_eq_true_eq] at h
  rcases h with ((h | h) | h) | h <;> subst h <;> decide

theorem endsNumber_of_isSpace {c : Char} (h : isSpace c = true) : endsNumber c = true := by
  simp only [isSpace, Bool.or_eq_true, decide_eq_true_eq] at h
  rcases h with ((h | h) | h) | h <;> subst h <;> decide

theorem content_skipSpace (cs : List Char) : content (skipSpace cs) = content cs := by
  induction cs with
  | nil => rfl
  | cons c cs ih =>
    by_cases hc : isSpace c = true
    · rw [content_separator (isSeparator_of_isSpace hc), ← ih, skipSpace, List.dropWhile_cons_of_pos hc]
      rfl
    · rw [skipSpace, List.dropWhile_cons_of_neg hc]

theorem content_spaces {cs : List Char} (h : ∀ c ∈ cs, isSpace c = true) : content cs = [] := by
  induction cs with
  | nil => rfl
  | cons c cs ih =>
    obtain ⟨hc, hcs⟩ := List.forall_mem_cons.1 h
    rw [content_separator (isSeparator_of_isSpace hc), ih hcs]

/-- A string of both languages ends at the same quote. -/
theorem quotedBody_rawString (cs : List Char) : ∀ {raw rest raw' rest' : List Char}, rawString cs = some (raw, rest) →
    quotedBody false cs = some (raw', rest') → rest' = rest := by
  induction cs using Json.Reader.rawString.induct with
  | case1 => exact fun h _ => by cases h
  | case2 cs =>
    intro raw rest raw' rest' h h'
    unfold rawString at h
    cases h
    cases h'
    rfl
  | case3 => exact fun h _ => by cases h
  | case4 d cs _ ih =>
    -- the character behind a backslash ends no string
    intro raw rest raw' rest' h h'
    obtain ⟨⟨b, r⟩, hr, he⟩ := Option.map_eq_some_iff.1 h
    cases he
    by_cases hd : d = '\n'
    · subst hd; cases h'
    · have hq : quotedBody false ('\\' :: d :: cs) = (quotedBody false cs).map fun x => ('\\' :: d :: x.1, x.2) := by
        rw [quotedBody_escaped hd]
      rw [hq] at h'
      obtain ⟨⟨b', r'⟩, hr', he⟩ := Option.map_eq_some_iff.1 h'
      cases he
      exact ih hr hr'
  | case5 d cs hq hb hlow =>
    intro raw rest raw' rest' h _
    unfold rawString at h
    simp only [hq, hb, hlow, if_false, if_true] at h
    cases h
  | case6 d cs hq hb hlow ih =>
    intro raw rest raw' rest' h h'
    unfold rawString at h
    simp only [hq, hb, hlow, if_false] at h
    obtain ⟨⟨b, r⟩, hr, he⟩ := Option.map_eq_some_iff.1 h
    cases he
    have hn : d ≠ '\n' := by rintro rfl; exact hlow (by decide)
    rw [quotedBody_plain hq hb hn] at h'
    obtain ⟨⟨b', r'⟩, hr', he⟩ := Option.map_eq_some_iff.1 h'
    cases he
    exact ih hr hr'

/-- Nor does a block string go on behind a JSON string. -/
theorem readString_rawString {cs raw rest text rest' : List Char} {t : Token} (h : rawString cs = some (raw, rest))
    (hrest : ∀ c ∈ rest, isSpace c = true) (ht : readString ('"' :: cs) = some (t, text, rest')) : rest' = rest := by
  unfold readString at ht
  split at ht
  · rename_i cs' he
    obtain rfl := (List.cons.inj he).2
    cases h
    exact absurd (hrest '"' List.mem_cons_self) (by decide)
  · rename_i cs' _ he
    obtain rfl := (List.cons.inj he).2
    obtain ⟨⟨raw', r⟩, hr, ht⟩ := Option.bind_eq_some_iff.1 ht
    obtain ⟨s, -, ht⟩ := Option.bind_eq_some_iff.1 ht
    cases ht
    exact quotedBody_rawString _ h hr
  · cases ht

theorem isDigit_iff {c : Char} : c.isDigit = true ↔ 48 ≤ c.toNat ∧ c.toNat ≤ 57 := by
  have hdigit : c.isDigit = (decide (48 ≤ c.toNat) && decide (c.toNat ≤ 57)) := rfl
  rw [hdigit, Bool.and_eq_true, decide_eq_true_eq, decide_eq_true_eq]

theorem isNameStart_iff {c : Char} : isNameStart c = true ↔
    (65 ≤ c.toNat ∧ c.toNat ≤ 90 ∨ 97 ≤ c.toNat ∧ c.toNat ≤ 122) ∨ c = '_' := by
  have hname : isNameStart c = ((decide (65 ≤ c.toNat ∧ c.toNat ≤ 90) ||
      (decide (97 ≤ c.toNat) && decide (c.toNat ≤ 122))) || decide (c = '_')) := rfl
  simp only [hname, Bool.or_eq_true, Bool.and_eq_true, decide_eq_true_eq]

theorem number_start {c : Char} (h : c = '-' ∨ c.isDigit = true) :
    isSeparator c = false ∧ c ≠ '#' ∧ isNameStart c = false ∧ c ≠ '"' := by
  rcases h with rfl | h
  · decide
  · have hc : ∀ d : Char, d.isDigit = false → c ≠ d := by
      rintro d hd rfl
      rw [h] at hd
      cases hd
    refine ⟨?_, hc _ rfl, ?_, hc _ rfl⟩
    · simp [isSeparator, hc ' ' rfl, hc ',' rfl, hc '\t' rfl, hc '\n' rfl, hc '\r' rfl, hc '\uFEFF' rfl]
    · have hn : ¬ isNameStart c = true := fun hs => by
        have hd := isDigit_iff.1 h
        rcases isNameStart_iff.1 hs with hl | rfl
        · omega
        · cases h
      simpa using hn

theorem isBlank_of_isNameStart {c : Char} (h : isNameStart c = true) : Text.isBlank c = false := by
  rcases isNameStart_iff.1 h with hl | rfl
  · simp only [Text.isBlank, Bool.or_eq_false_iff, Bool.and_eq_false_iff, decide_eq_false_iff_not, beq_eq_false_iff_ne]
    omega
  · decide

end Sdl

/-! ## Where JSON begins -/

namespace Json.Begins

open Sdl Sdl.Lexer

variable {cs rest : List Char}

/-- The schema language skips nothing where JSON begins. -/
theorem content_eq (h : Begins cs rest) : content cs = cs := by
  cases h with
  | string _ => exact content_token (by decide) (by decide) _
  | bracket hc => rcases hc with rfl | rfl <;> exact content_token (by decide) (by decide) _
  | number hc => exact content_token (number_start hc).1 (number_start hc).2.1 _
  | word hw =>
    simp only [words, List.mem_cons, List.not_mem_nil, or_false] at hw
    rcases hw with rfl | rfl | rfl <;> exact content_token (by decide) (by decide) _

/-- A name is none of the keywords, and nothing follows a string. -/
theorem described (h : Begins cs rest) (hrest : ∀ c ∈ rest, Reader.isSpace c = true) {t : Token} {word rest' : List Char}
    (ht : readToken cs = some (t, word, rest')) (hd : beginsDescribed t = true) :
    (∃ n, t = .name n ∧ n ∉ keywords) ∨ ((∃ s, t = .string s) ∧ content rest' = []) := by
  cases h with
  | @string cs _ _ hraw =>
    rcases readToken_described ht hd with ⟨hn, -⟩ | ⟨-, hs⟩
    · exact absurd hn (by decide)
    · exact .inr ⟨readString_string hs, by rw [readString_rawString hraw hrest hs, content_spaces hrest]⟩
  | bracket hc =>
    rcases readToken_described ht hd with ⟨hn, -⟩ | ⟨hq, -⟩
    · rcases hc with rfl | rfl <;> exact absurd hn (by decide)
    · rcases hc with rfl | rfl <;> exact absurd hq (by decide)
  | number hc =>
    obtain ⟨-, -, hname, hquote⟩ := number_start hc
    rcases readToken_described ht hd with ⟨hn, -⟩ | ⟨hq, -⟩
    · rw [hname] at hn; cases hn
    · exact absurd hq hquote
  | @word w _ hw =>
    have hb : atBoundary rest = true := by
      cases rest with
      | nil => rfl
      | cons c rest => exact endsNumber_of_isSpace (hrest c List.mem_cons_self)
    have hname : ∀ {c : Char} {cs : List Char}, w = c :: cs → isNameStart c = true → cs.takeWhile isNameChar = cs →
        String.ofList w ∉ keywords → ∃ n, t = .name n ∧ n ∉ keywords := by
      rintro c cs rfl hc htake hk
      rcases readToken_described ht hd with ⟨-, rfl⟩ | ⟨rfl, -⟩
      · refine ⟨_, rfl, ?_⟩
        rwa [show (cs.append rest).takeWhile isNameChar = cs from
          (takeWhile_append_boundary (fun _ => not_isNameChar_of_endsNumber) cs hb).1.trans htake]
      · exact absurd hc (by decide)
    simp only [words, List.mem_cons, List.not_mem_nil, or_false] at hw
    rcases hw with hw | hw | hw <;> exact .inl (hname hw (by decide) (by decide) (by subst hw; decide))

end Json.Begins

/-! ## Documents -/

namespace Sdl

open Lexer

/-- The first token of a document is a keyword, or a string behind which the text goes on. -/
theorem parse_content {text : String} {d : Document} (h : parse text = .ok d) : ∃ t word rest,
    readToken (content text.toList) = some (t, word, rest) ∧
      ((∃ n, t = .name n ∧ n ∈ keywords) ∨ ((∃ s, t = .string s) ∧ content rest ≠ [])) := by
  have ho := parse_opens h
  unfold Tokens.ofText at ho
  generalize hT : tokensFrom _ _ _ _ = T at ho
  cases ho with
  | keyword hn =>
    obtain ⟨word, rest, hr, -⟩ := tokensFrom_cons hT
    exact ⟨_, word, rest, hr, .inl ⟨_, rfl, hn⟩⟩
  | described hn =>
    obtain ⟨word, rest, hr, fuel, budget, p, hT'⟩ := tokensFrom_cons hT
    obtain ⟨word', rest', hr', -⟩ := tokensFrom_cons hT'.symm
    refine ⟨_, word, rest, hr, .inr ⟨⟨_, rfl⟩, fun he => ?_⟩⟩
    rw [he] at hr'
    cases hr'

/-- No document is JSON. -/
theorem parse?_document {text : String} {d : Document} (h : parse text = .ok d) : Json.parse? text.toList = none := by
  cases hj : Json.parse? text.toList with
  | none => rfl
  | some v =>
    obtain ⟨rest, hb, hspaces⟩ := Json.parse?_begins hj
    obtain ⟨t, word, rest', ht, hfirst⟩ := parse_content h
    rw [← content_skipSpace, hb.content_eq] at ht
    have hd : beginsDescribed t = true := by rcases hfirst with ⟨n, rfl, -⟩ | ⟨⟨s, rfl⟩, -⟩ <;> rfl
    rcases hb.described hspaces ht hd with ⟨n, rfl, hn⟩ | ⟨⟨s, rfl⟩, hnil⟩ <;>
      rcases hfirst with ⟨n', he, hk⟩ | ⟨⟨s', he⟩, hmore⟩ <;> cases he
    · exact absurd hk hn
    · exact absurd hnil hmore

/-- A document has a character that is not blank. -/
theorem not_all_isBlank {text : String} {d : Document} (h : parse text = .ok d) : text.toList.all Text.isBlank = false := by
  obtain ⟨t, word, rest, ht, hfirst⟩ := parse_content h
  have hd : beginsDescribed t = true := by rcases hfirst with ⟨n, rfl, -⟩ | ⟨⟨s, rfl⟩, -⟩ <;> rfl
  cases hc : content text.toList with
  | nil => rw [hc] at ht; cases ht
  | cons c cs =>
    rw [hc] at ht
    have hmem : c ∈ text.toList := (content_suffix _).subset (hc ▸ List.mem_cons_self)
    rw [List.all_eq_false]
    refine ⟨c, hmem, ?_⟩
    rcases readToken_described ht hd with ⟨hn, -⟩ | ⟨rfl, -⟩
    · simp [isBlank_of_isNameStart hn]
    · decide

end Sdl
/-! ## Bodies of responses -/

/-- Schema text that is the body of a response comes back as it is. -/
theorem Introspection.schemaText_document {body : String} {document : Sdl.Document} (h : Sdl.parse body = .ok document) :
    schemaText body = .ok body := by
  rw [schemaText, Sdl.not_all_isBlank h, Sdl.parse?_document h]
  rfl

/-- The endpoint answers the request for its schema, and this is the text of the whole body. -/
def Http.Endpoint.Answers (e : Http.Endpoint) (url : String) (o : Options) (body : String) : Prop :=
  ∃ request response bytes, schemaRequest url o.method o.headers = .ok request ∧ e.send request = some response ∧
    isSuccess response.status = true ∧ response.received = some bytes ∧
    Charset.bodyText (response.headers.get? "content-type") bytes = body

theorem Http.Endpoint.Answers.fetchSchema {e : Http.Endpoint} {url body : String} {o : Options} (h : e.Answers url o body) :
    fetchSchema e url o.method o.headers = (Introspection.schemaText body).mapError .unusableBody := by
  obtain ⟨request, response, bytes, hrequest, hsend, hstatus, hbytes, rfl⟩ := h
  rw [GraphqlCodegen.fetchSchema, hrequest]
  simp only [bind, Except.bind, answeredText, hsend, hstatus, hbytes, Bool.not_true, Bool.false_eq_true, if_false]

theorem readSchema_document {text : String} {document : Sdl.Document} (h : Sdl.parse text = .ok document) :
    readSchema text = .ok (.ofDocument document) := by
  rw [readSchema, h]

/-- Schema text is never taken for JSON: as the body of a response it comes back as it is, and an endpoint that answers
with it gives the text and the tree that a file with this text gives. -/
theorem schemaInput_document {body : String} {document : Sdl.Document} (h : Sdl.parse body = .ok document) :
    Introspection.schemaText body = .ok body ∧
    ∀ {e : Http.Endpoint} {url : String} {o : Options} {d : Disk} {path : String}, e.Answers url o body →
      d.readText path = .ok body → ∀ (e' : Http.Endpoint) (o' : Options) (d' : Disk),
        schemaInput e d' (.url url) o = .ok ⟨body, .ofDocument document, .url url⟩ ∧
        schemaInput e' d (.path path) o' = .ok ⟨body, .ofDocument document, .path path⟩ := by
  have htext := Introspection.schemaText_document h
  refine ⟨htext, fun hanswer hfile e' o' d' => ⟨?_, ?_⟩⟩
  · rw [schemaInput, acquire, hanswer.fetchSchema, htext]
    simp only [bind, Except.bind, Except.mapError, readSchema_document h, pure, Except.pure]
  · rw [schemaInput, acquire, hfile]
    simp only [bind, Except.bind, Except.mapError, readSchema_document h, pure, Except.pure]

/-- The description is JSON when it stands alone. -/
def meadowText : String := "# meadows\n, \"null\" type Query { meadow: ID }"

def meadowOptions : Options :=
  ⟨none, "out", [], .post, .browser, .commonJs, false, .legacy, none, none, false, true⟩

def meadowEndpoint : Http.Endpoint := fun _ => some ⟨200, [], meadowText.toUTF8.toList, none⟩

def meadowDisk : Disk := ⟨[(["meadows"], .file meadowText.toUTF8)]⟩

theorem schemaInput_document_meadow : ∃ document, Sdl.parse meadowText = .ok document ∧
    Introspection.schemaText meadowText = .ok meadowText ∧
    schemaInput meadowEndpoint ⟨[]⟩ (.url "http://meadow") meadowOptions =
      .ok ⟨meadowText, .ofDocument document, .url "http://meadow"⟩ ∧
    schemaInput (fun _ => none) meadowDisk (.path "meadows") meadowOptions =
      .ok ⟨meadowText, .ofDocument document, .path "meadows"⟩ := by
  have hparse : (Sdl.parse meadowText).toOption.isSome = true := by decide +kernel
  have hrequest : (schemaRequest "http://meadow" .post []).toOption.isSome = true := by decide +kernel
  cases hp : Sdl.parse meadowText with
  | error p => rw [hp] at hparse; cases hparse
  | ok document =>
    cases hr : schemaRequest "http://meadow" .post [] with
    | error f => rw [hr] at hrequest; cases hrequest
    | ok request =>
      obtain ⟨htext, h⟩ := schemaInput_document hp
      have hanswer : meadowEndpoint.Answers "http://meadow" meadowOptions meadowText :=
        ⟨request, _, meadowText.toUTF8.toList, hr, rfl, rfl, rfl, by decide +kernel⟩
      have hfile : meadowDisk.readText "meadows" = .ok meadowText := by decide +kernel
      exact ⟨document, rfl, htext, h hanswer hfile (fun _ => none) meadowOptions ⟨[]⟩⟩

end GraphqlCodegen
