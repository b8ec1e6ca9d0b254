import GraphqlCodegen.Json.Writer
import GraphqlCodegen.Proofs.Sdl.Lexing

/-!
# Strings inside a schema text

Two ways in which a string gets into a schema text: with the escapes of JSON between single quotes,
and as a block string on lines of its own. Either is one token, whatever the string holds
(`Lexes.quoted`, `Lexes.written`). A quoted string is read one character at a time (`Quotes`). A block
string cannot end early because the text that is written between its quotes is only ever passed over
(`Passes`) by the search for the closing ones.
-/

namespace GraphqlCodegen.Sdl

open Text (pieces lines dropReturn)

/-! ## Quoted strings -/

namespace Lexer

theorem quotedBody_plain {c : Char} (h1 : c ≠ '"') (h2 : c ≠ '\\') (h3 : c ≠ '\n') (cs : List Char) :
    quotedBody false (c :: cs) = (quotedBody false cs).map fun (b, rest) => (c :: b, rest) := by
  have hb : (c == '\\') = false := by simp [h2]
  simp [quotedBody, h1, h3, hb]

theorem quotedBody_append_plain {ds : List Char} (h : ∀ d ∈ ds, d ≠ '"' ∧ d ≠ '\\' ∧ d ≠ '\n') (cs : List Char) :
    quotedBody false (ds ++ cs) = (quotedBody false cs).map fun (b, rest) => (ds ++ b, rest) := by
  induction ds with
  | nil => simp
  | cons d ds ih =>
    obtain ⟨⟨h1, h2, h3⟩, hds⟩ := List.forall_mem_cons.1 h
    rw [List.cons_append, quotedBody_plain h1 h2 h3, ih hds, Option.map_map]
    rfl

/-- Two escaped characters cannot end a string. -/
theorem quotedBody_escaped {e : Char} (he : e ≠ '\n') (cs : List Char) :
    quotedBody false ('\\' :: e :: cs) = (quotedBody false cs).map fun (b, rest) => ('\\' :: e :: b, rest) := by
  simp [quotedBody, he, Function.comp_def]

theorem unquote_plain {c : Char} (hc : c ≠ '\\') (cs : List Char) : unquote (c :: cs) = (unquote cs).map (c :: ·) := by
  simp [unquote, hc, Option.bind_eq_bind, Option.map_eq_bind, Function.comp_def]

theorem unquote_escaped {e c : Char} (hu : e ≠ 'u') (he : escapedChar? e = some c) (cs : List Char) :
    unquote ('\\' :: e :: cs) = (unquote cs).map (c :: ·) := by
  simp [unquote, hu, he, Option.map_eq_bind, Function.comp_def]

/-- No quote in the text of a character ends the string, and its text is read as the characters that come back. -/
structure Quotes (write back : Char → List Char) : Prop where
  body : ∀ c cs, quotedBody false (write c ++ cs) = (quotedBody false cs).map fun (b, rest) => (write c ++ b, rest)
  value : ∀ c cs, unquote (write c ++ cs) = (unquote cs).map (back c ++ ·)
  head : ∀ c, ∃ d ds, write c = d :: ds ∧ d ≠ '"'

namespace Quotes

variable {write back : Char → List Char} (h : Quotes write back)
include h

theorem quotedBody_flatMap (cs : List Char) : quotedBody false (cs.flatMap write ++ ['"']) = some (cs.flatMap write, []) := by
  induction cs with
  | nil => rfl
  | cons c cs ih => rw [List.flatMap_cons, List.append_assoc, h.body, ih]; rfl

theorem unquote_flatMap (cs : List Char) : unquote (cs.flatMap write) = some (cs.flatMap back) := by
  induction cs with
  | nil => rfl
  | cons c cs ih => rw [List.flatMap_cons, h.value, ih]; rfl

/-- What is written between quotes is one token. -/
theorem readToken_flatMap (cs : List Char) : readToken ('"' :: cs.flatMap write ++ ['"']) =
    some (.string (String.ofList (cs.flatMap back)), '"' :: cs.flatMap write ++ ['"'], []) := by
  change readString ('"' :: cs.flatMap write ++ ['"']) = _
  rw [List.cons_append, readString]
  · simp [h.quotedBody_flatMap, h.unquote_flatMap]
  · intro tail ht
    -- behind the opening quote comes a character that is no quote, or the closing quote alone
    cases cs with
    | nil => simp at ht
    | cons c cs =>
      obtain ⟨d, ds, hd, hquote⟩ := h.head c
      rw [List.flatMap_cons, hd] at ht
      simp only [List.cons_append, List.cons.injEq] at ht
      exact hquote ht.1

end Quotes

/-! ## Escapes of JSON -/

/-- What the escape of a character stands for in a schema text: `\b` is another character there. -/
def readBack (c : Char) : Char := if c = '\x08' then '\x10' else c

theorem codedChar?_control : ∀ n : Fin 32,
    codedChar? ['0', '0', Json.hexDigit (n.1 / 16), Json.hexDigit (n.1 % 16)] = some (Char.ofNat n.1) := by
  decide

/-- A character of a JSON string is one plain character, a backslash with a letter, or the code of a
control character. -/
theorem quotedChar_cases (c : Char) :
    (Json.quotedChar c = [c] ∧ c ≠ '"' ∧ c ≠ '\\' ∧ c ≠ '\n' ∧ c ≠ '\x08') ∨
    (∃ e, Json.quotedChar c = ['\\', e] ∧ e ≠ 'u' ∧ e ≠ '\n' ∧ escapedChar? e = some (readBack c)) ∨
    (∃ n : Fin 32, c = Char.ofNat n.1 ∧ c ≠ '\x08' ∧ Json.quotedChar c =
      ['\\', 'u', '0', '0', Json.hexDigit (n.1 / 16), Json.hexDigit (n.1 % 16)]) := by
  unfold Json.quotedChar
  split
  · rename_i h; subst h; exact .inr (.inl ⟨'"', rfl, by decide, by decide, by decide⟩)
  · split
    · rename_i h; subst h; exact .inr (.inl ⟨'\\', rfl, by decide, by decide, by decide⟩)
    · split
      · rename_i h; subst h; exact .inr (.inl ⟨'b', rfl, by decide, by decide, by decide⟩)
      · split
        · rename_i h; subst h; exact .inr (.inl ⟨'f', rfl, by decide, by decide, by decide⟩)
        · split
          · rename_i h; subst h; exact .inr (.inl ⟨'n', rfl, by decide, by decide, by decide⟩)
          · split
            · rename_i h; subst h; exact .inr (.inl ⟨'r', rfl, by decide, by decide, by decide⟩)
            · split
              · rename_i h; subst h; exact .inr (.inl ⟨'t', rfl, by decide, by decide, by decide⟩)
              · rename_i h1 h2 h3 h4 h5 h6 h7
                split
                · rename_i h
                  exact .inr (.inr ⟨⟨c.toNat, h⟩, by simp, h3, rfl⟩)
                · exact .inl ⟨rfl, h1, h2, h5, h3⟩

theorem quotes_json : Quotes Json.quotedChar fun c => [readBack c] where
  body c cs := by
    rcases quotedChar_cases c with ⟨h, h1, h2, h3, -⟩ | ⟨e, h, -, he, -⟩ | ⟨n, -, -, h⟩
    · rw [h]; exact quotedBody_plain h1 h2 h3 cs
    · rw [h]; exact quotedBody_escaped he cs
    · have hdigit : ∀ k : Fin 16, Json.hexDigit k.1 ≠ '"' ∧ Json.hexDigit k.1 ≠ '\\' ∧ Json.hexDigit k.1 ≠ '\n' := by
        decide
      have hplain : ∀ d ∈ ['0', '0', Json.hexDigit (n.1 / 16), Json.hexDigit (n.1 % 16)], d ≠ '"' ∧ d ≠ '\\' ∧ d ≠ '\n' := by
        simp [hdigit ⟨n.1 / 16, by omega⟩, hdigit ⟨n.1 % 16, by omega⟩]
      rw [h, List.cons_append, List.cons_append, quotedBody_escaped (by decide), quotedBody_append_plain hplain, Option.map_map]
      rfl
  value c cs := by
    rcases quotedChar_cases c with ⟨h, -, h2, -, h4⟩ | ⟨e, h, hu, -, he⟩ | ⟨n, hn, h4, h⟩
    · rw [h, readBack, if_neg h4]; exact unquote_plain h2 cs
    · rw [h]; exact unquote_escaped hu he cs
    · have hr : readBack c = Char.ofNat n.1 := by rw [readBack, if_neg h4, hn]
      rw [h]
      simp [unquote, codedChar?_control n, hr, Option.map_eq_bind, Function.comp_def]
  head c := by
    rcases quotedChar_cases c with ⟨h, h1, -⟩ | ⟨e, h, -⟩ | ⟨n, -, -, h⟩
    · exact ⟨c, [], h, h1⟩
    · exact ⟨'\\', [e], h, by decide⟩
    · exact ⟨'\\', _, h, by decide⟩

/-- The value of a JSON string in a schema text. -/
def quotedValue (s : String) : String := String.ofList (s.toList.map readBack)

/-- A JSON string is one token of a schema text. -/
theorem Lexes.quoted (s : String) {cs : List Char} {ts : List Token} (hb : atBoundary cs = true)
    (h : Lexes cs ts) : Lexes ((Json.quoted s).toList ++ cs) (.string (quotedValue s) :: ts) := by
  have hread := quotes_json.readToken_flatMap s.toList
  rw [← List.map_eq_flatMap] at hread
  rw [Json.quoted, String.toList_ofList]
  exact .token (readToken_append hb hread) h

theorem readToken_quote (cs : List Char) : readToken ('"' :: cs) = readString ('"' :: cs) := rfl

end Lexer

/-! ## Block strings -/

namespace BlockString

/-- The search for closing quotes passes over the text. -/
def Passes (x : List Char) : Prop :=
  ∀ z, body false (x ++ z) = (body false z).map fun (b, rest) => (x ++ b, rest)

theorem Passes.nil : Passes [] := fun z => by simp

/-- The first quotes that close a block are those behind the text. -/
theorem Passes.body {x : List Char} (h : Passes x) (more : List Char) :
    body false (x ++ '"' :: '"' :: '"' :: more) = some (x, more) := by
  rw [h]
  simp [BlockString.body]

theorem Passes.append {x y : List Char} (hx : Passes x) (hy : Passes y) : Passes (x ++ y) := by
  intro z
  rw [List.append_assoc, hx, hy, Option.map_map]
  congr 1
  funext r
  simp

theorem Passes.flatMap {α : Type} {f : α → List Char} : ∀ {l : List α}, (∀ a ∈ l, Passes (f a)) → Passes (l.flatMap f)
  | [], _ => Passes.nil
  | a :: l, h => by
    rw [List.flatMap_cons]
    exact (h a (by simp)).append (Passes.flatMap fun b hb => h b (by simp [hb]))

theorem body_cons {c : Char} (hq : c ≠ '"') (escaped : Bool) (z : List Char) :
    body escaped (c :: z) = (body (c == '\\') z).map fun (b, rest) => (c :: b, rest) := by
  rw [body]
  intro _ h
  exact absurd h hq

theorem passes_char {c : Char} (hq : c ≠ '"') (hb : c ≠ '\\') : Passes [c] := by
  intro z
  have he : (c == '\\') = false := by simp [hb]
  rw [List.singleton_append, body_cons hq, he]
  rfl

theorem escape_cons {c : Char} {cs : List Char} (h : ∀ z, c :: cs ≠ '"' :: '"' :: '"' :: z) :
    escape (c :: cs) = c :: escape cs := by
  rw [escape]
  intro z hc hz
  exact h z (by rw [hc, hz])

/-- Only a quote is written as a quote. -/
theorem escape_eq_quote {x z : List Char} (h : escape x = '"' :: z) : ∃ y, x = '"' :: y ∧ z = escape y := by
  fun_cases escape x with
  | case1 cs => rw [escape] at h; simp at h
  | case2 c cs hn =>
    rw [escape_cons (fun z hz => by cases hz; exact hn _ rfl rfl)] at h
    cases h
    exact ⟨cs, rfl, rfl⟩
  | case3 => simp [escape] at h

/-- A line end behind escaped text keeps quotes apart from what follows. -/
theorem escape_append_eq_quote {x z more : List Char} (h : escape x ++ '\n' :: more = '"' :: z) :
    ∃ y, x = '"' :: y ∧ z = escape y ++ '\n' :: more := by
  cases hx : escape x with
  | nil => rw [hx] at h; simp at h
  | cons d ds =>
    rw [hx] at h
    simp only [List.cons_append, List.cons.injEq] at h
    obtain ⟨rfl, rfl⟩ := h
    obtain ⟨y, rfl, rfl⟩ := escape_eq_quote hx
    exact ⟨y, rfl, rfl⟩

theorem body_escape (x more : List Char) : ∀ escaped : Bool,
    body escaped (escape x ++ '\n' :: more) = (body false more).map fun (b, rest) => (escape x ++ '\n' :: b, rest) := by
  fun_induction escape x with
  | case1 cs ih =>
    intro escaped
    rw [List.cons_append, body_cons (by decide)]
    simp [body, ih, Function.comp_def]
  | case2 c cs hn ih =>
    intro escaped
    rw [List.cons_append, body, ih]
    · simp [Function.comp_def]
    · intro z hc hz
      obtain ⟨y, rfl, h2⟩ := escape_append_eq_quote hz
      obtain ⟨w, rfl, -⟩ := escape_append_eq_quote h2.symm
      exact hn w hc rfl
  | case3 =>
    intro escaped
    rw [List.nil_append, body_cons (by decide)]
    rfl

theorem passes_escape (x : List Char) : Passes (escape x ++ ['\n']) := by
  intro z
  have h := body_escape x z false
  simp only [List.append_assoc, List.singleton_append]
  exact h

/-! ### Escaping goes line by line -/

theorem pieces_cons {c : Char} (h : c ≠ '\n') (cs : List Char) :
    ∃ p ps, pieces cs = p :: ps ∧ pieces (c :: cs) = (c :: p) :: ps := by
  obtain ⟨p, ps, hp⟩ := List.exists_cons_of_ne_nil (Text.pieces_ne_nil cs)
  exact ⟨p, ps, hp, by rw [pieces, if_neg h, hp]⟩

/-- A text begins with its first piece. -/
theorem prefix_of_pieces {cs p : List Char} {ps : List (List Char)} (h : pieces cs = p :: ps) : ∃ z, cs = p ++ z := by
  have hu := Text.unlines_pieces cs
  rw [h] at hu
  cases ps with
  | nil => exact ⟨[], by rw [← hu]; simp [Text.unlines]⟩
  | cons q qs => exact ⟨_, hu.symm⟩

theorem pieces_escape (cs : List Char) : pieces (escape cs) = (pieces cs).map escape := by
  fun_induction escape cs with
  | case1 cs ih =>
    obtain ⟨p, ps, hp, h1⟩ := pieces_cons (c := '"') (by decide) cs
    have h2 : pieces ('"' :: '"' :: '"' :: cs) = ('"' :: '"' :: '"' :: p) :: ps := by
      simp [pieces, hp]
    rw [h2]
    simp [pieces, ih, hp, escape]
  | case2 c cs hn ih =>
    by_cases hc : c = '\n'
    · subst hc; simp [pieces, ih, escape]
    · obtain ⟨p, ps, hp, h1⟩ := pieces_cons hc cs
      have he : escape (c :: p) = c :: escape p := by
        refine escape_cons fun z hz => ?_
        cases hz
        obtain ⟨w, hw⟩ := prefix_of_pieces hp
        exact hn (z ++ w) rfl (by simpa using hw)
      rw [h1, List.map_cons, he, pieces, if_neg hc, ih, hp]
      rfl
  | case3 => rfl

theorem escape_eq_nil {cs : List Char} (h : escape cs = []) : cs = [] := by
  fun_cases escape cs with
  | case1 cs => simp [escape] at h
  | case2 c cs hn => rw [escape_cons (fun z hz => by cases hz; exact hn _ rfl rfl)] at h; simp at h
  | case3 => rfl

theorem escape_concat {c : Char} (hc : c ≠ '"') (cs : List Char) : escape (cs ++ [c]) = escape cs ++ [c] := by
  fun_induction escape cs with
  | case1 cs ih => simp [escape, ih]
  | case2 d cs hn ih =>
    rw [List.cons_append, escape_cons, ih]
    · rfl
    · intro z hz
      simp only [List.cons.injEq] at hz
      obtain ⟨rfl, hz⟩ := hz
      match cs with
      | [] => simp at hz
      | [e] => simp only [List.cons_append, List.nil_append, List.cons.injEq] at hz; exact hc hz.2.1
      | e :: f :: cs => simp only [List.cons_append, List.cons.injEq] at hz; exact hn cs rfl (by rw [hz.1, hz.2.1])
  | case3 => simp [escape]

theorem getLast?_escape (cs : List Char) : (escape cs).getLast? = cs.getLast? := by
  fun_induction escape cs with
  | case1 cs ih =>
    simp only [List.getLast?_cons, ih]
    cases cs.getLast? <;> rfl
  | case2 c cs hn ih => simp only [List.getLast?_cons, ih]
  | case3 => rfl

/-- A carriage return at the end of a line is none that escaping has put there. -/
theorem dropReturn_escape (l : List Char) : dropReturn (escape l) = escape (dropReturn l) := by
  unfold dropReturn
  rw [getLast?_escape]
  split
  · rename_i h
    obtain ⟨x, rfl⟩ := List.getLast?_eq_some_iff.1 h
    rw [escape_concat (by decide), List.dropLast_concat, List.dropLast_concat]
  · rfl

theorem lines_escape (cs : List Char) : lines (escape cs) = (lines cs).map escape := by
  have hd : (pieces cs).map (dropReturn ∘ escape) = (pieces cs).map (escape ∘ dropReturn) :=
    List.map_congr_left fun l _ => dropReturn_escape l
  simp only [lines]
  rw [pieces_escape, List.getLast?_map]
  cases (pieces cs).getLast? with
  | none => simp [hd]
  | some p =>
    cases p with
    | nil => simp [hd, escape]
    | cons c p =>
      cases he : escape (c :: p) with
      | nil => exact absurd (escape_eq_nil he) (by simp)
      | cons d q => simp [he, hd]

/-! ### Written texts -/

/-- What stands between the quotes of a written text. -/
def writtenBody (indent text : List Char) : List Char :=
  '\n' :: (lines (escape text)).flatMap (fun line => indent ++ line ++ ['\n']) ++ indent

theorem passes_blanks : ∀ {indent : List Char}, (∀ c ∈ indent, c = ' ') → Passes indent
  | [], _ => Passes.nil
  | c :: cs, h => by
    have hc := h c (by simp)
    subst hc
    exact (passes_char (by decide) (by decide)).append (passes_blanks fun d hd => h d (by simp [hd]))

theorem passes_writtenBody {indent : List Char} (hi : ∀ c ∈ indent, c = ' ') (text : List Char) :
    Passes (writtenBody indent text) := by
  have hlines : Passes ((lines (escape text)).flatMap fun line => indent ++ line ++ ['\n']) := by
    refine Passes.flatMap fun line hl => ?_
    rw [lines_escape, List.mem_map] at hl
    obtain ⟨l, -, rfl⟩ := hl
    rw [List.append_assoc]
    exact (passes_blanks hi).append (passes_escape l)
  exact ((@passes_char '\n' (by decide) (by decide)).append hlines).append (passes_blanks hi)

/-- A written text with the quotes around it. -/
def block (indent text : List Char) : List Char := '"' :: '"' :: '"' :: writtenBody indent text ++ ['"', '"', '"']

theorem written_eq (indent text : List Char) : written indent text = indent ++ block indent text ++ ['\n'] := by
  simp [written, block, writtenBody]

/-- The value that a written text is read back with. -/
def writtenValue (indent : List Char) (text : String) : String :=
  String.ofList (value (writtenBody indent text.toList))

end BlockString

namespace Lexer

open BlockString (block writtenValue)

variable {indent : List Char}

/-- Between the quotes of a block nothing ends it. -/
theorem readToken_block (hi : ∀ c ∈ indent, c = ' ') (text : String) (cs : List Char) :
    readToken (block indent text.toList ++ cs) =
      some (.string (writtenValue indent text), block indent text.toList, cs) := by
  have hb : block indent text.toList ++ cs = '"' :: '"' :: '"' ::
      (BlockString.writtenBody indent text.toList ++ '"' :: '"' :: '"' :: cs) := by
    simp [block]
  rw [hb, readToken_quote]
  simp [readString, (BlockString.passes_writtenBody hi text.toList).body, writtenValue, block]

theorem skipIgnored_blanks (hi : ∀ c ∈ indent, c = ' ') (p : Position) (cs : List Char) :
    ∃ q, skipIgnored p (indent ++ cs) = skipIgnored q cs := by
  induction indent generalizing p with
  | nil => exact ⟨p, rfl⟩
  | cons c indent ih =>
    obtain ⟨rfl, htail⟩ := List.forall_mem_cons.1 hi
    obtain ⟨q, hq⟩ := skipIgnored_separator (c := ' ') rfl p (indent ++ cs)
    obtain ⟨r, hr⟩ := ih htail q
    exact ⟨r, hq.trans hr⟩

theorem Lexes.blanks (hi : ∀ c ∈ indent, c = ' ') {cs : List Char} {ts : List Token} (h : Lexes cs ts) :
    Lexes (indent ++ cs) ts := by
  induction indent with
  | nil => exact h
  | cons c indent ih =>
    obtain ⟨rfl, htail⟩ := List.forall_mem_cons.1 hi
    exact .blank rfl (ih htail)

/-- A text that is written as a block string is one token. -/
theorem Lexes.written (hi : ∀ c ∈ indent, c = ' ') (text : String) {cs : List Char} {ts : List Token} (h : Lexes cs ts) :
    Lexes (BlockString.written indent text.toList ++ cs) (.string (writtenValue indent text) :: ts) := by
  rw [BlockString.written_eq, List.append_assoc, List.append_assoc]
  exact (Lexes.token (readToken_block hi text _) (.blank rfl h)).blanks hi

end Lexer
end GraphqlCodegen.Sdl
