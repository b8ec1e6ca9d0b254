import GraphqlCodegen.Sdl.Value
import GraphqlCodegen.Proofs.Sdl.Strings

/-!
# Integers and quoted strings read again

An integer is read again from its text if it fits into its word (`Lexes.integer`). Between quotes, a character without a place
of its own is written with its code in decimal, and the first four digits of that are read as a hexadecimal code: what comes back of
each character is `requotedChar`, and it is the character again unless its code was given in more than one digit
(`requotedChar_eq_iff`).
-/

namespace GraphqlCodegen.Sdl

open Number.Decimal (intText)

namespace Lexer

/-! ## Integers -/

theorem digitsValue_toDigits (n : Nat) : digitsValue (Nat.toDigits 10 n) = n := by
  have hvalue := @Nat.ofDigitChars_ten_toDigits n
  rw [Nat.ofDigitChars_eq_foldl] at hvalue
  simpa only [digitsValue, Nat.mul_comm] using hvalue

/-- The first digit of a number is no zero. -/
theorem head?_toDigits : ∀ {n : Nat}, n ≠ 0 → (Nat.toDigits 10 n).head? ≠ some '0' := by
  intro n
  induction n using Nat.strongRecOn with
  | ind n ih =>
    intro hn
    rw [Nat.toDigits_eq_if (by omega)]
    split
    · simpa [Nat.digitChar_eq_zero] using hn
    · have hrest := ih (n / 10) (by omega) (by omega)
      obtain ⟨d, ds, hd⟩ := List.exists_cons_of_ne_nil (@Nat.toDigits_ne_nil (n / 10) 10)
      rw [hd] at hrest ⊢
      exact hrest

theorem splitLast_eq_none {p : Char → Bool} {cs : List Char} (h : ∀ c ∈ cs, p c = false) : splitLast p cs = none := by
  induction cs with
  | nil => rfl
  | cons c cs ih =>
    obtain ⟨hc, hcs⟩ := List.forall_mem_cons.1 h
    rw [splitLast, ih hcs]
    simp [hc]

theorem digits_toDigits {n : Nat} : ∀ c ∈ Nat.toDigits 10 n, c.isDigit = true := fun _ hc =>
  Nat.isDigit_of_mem_toDigits (by omega) (by omega) hc

/-- The digits of a number are an integer, with or without a sign. -/
theorem wellFormed_toDigits (n : Nat) : (Nat.toDigits 10 n = ['0'] || ((Nat.toDigits 10 n).head? != some '0' &&
    !(Nat.toDigits 10 n).isEmpty && (Nat.toDigits 10 n).all Char.isDigit)) = true := by
  by_cases hn : n = 0
  · subst hn
    rfl
  · have hhead := head?_toDigits hn
    have hne := @Nat.toDigits_ne_nil n 10
    have hall : (Nat.toDigits 10 n).all Char.isDigit = true := List.all_eq_true.2 digits_toDigits
    simp [hhead, hne, hall]

theorem ne_minus_of_toDigits {n : Nat} {c : Char} {cs : List Char} (h : Nat.toDigits 10 n = c :: cs) : c ≠ '-' := by
  rintro rfl
  have hdigit := digits_toDigits '-' (h ▸ List.mem_cons_self)
  exact absurd hdigit (by decide)

theorem isInt_intText (i : Int) : isInt (intText i) = true := by
  cases i with
  | ofNat n =>
    have hwell := wellFormed_toDigits n
    rw [intText]
    cases hd : Nat.toDigits 10 n with
    | nil => exact absurd hd Nat.toDigits_ne_nil
    | cons c cs =>
      rw [hd] at hwell
      rw [isInt]
      · exact hwell
      · intro tail htail
        exact ne_minus_of_toDigits hd (List.cons.inj htail).1
  | negSucc n => exact wellFormed_toDigits (n + 1)

theorem intValue_intText (i : Int) : intValue (intText i) = i := by
  cases i with
  | ofNat n =>
    rw [intText]
    cases hd : Nat.toDigits 10 n with
    | nil => exact absurd hd Nat.toDigits_ne_nil
    | cons c cs =>
      rw [intValue, ← hd, digitsValue_toDigits]
      · rfl
      · intro tail htail
        exact ne_minus_of_toDigits hd (List.cons.inj htail).1
  | negSucc n =>
    rw [intText, intValue, digitsValue_toDigits]
    omega

/-- A sign or a digit. -/
theorem chars_intText (i : Int) : ∀ c ∈ intText i, c = '-' ∨ c.isDigit = true := by
  cases i with
  | ofNat n => exact fun c hc => .inr (digits_toDigits c hc)
  | negSucc n =>
    intro c hc
    rcases List.mem_cons.1 hc with rfl | hc
    · exact .inl rfl
    · exact .inr (digits_toDigits c hc)

theorem numberToken_intText {i : Int} (h : fitsWord i = true) : numberToken (intText i) = some (.int i) := by
  have hnone : ∀ p : Char → Bool, p '-' = false → (∀ c, c.isDigit = true → p c = false) → splitLast p (intText i) = none :=
    fun p hminus hdigit => splitLast_eq_none fun c hc => (chars_intText i c hc).elim (fun he => he ▸ hminus) (hdigit c)
  have hexponent : splitLast (fun c => c = 'e' || c = 'E') (intText i) = none := by
    refine hnone _ rfl fun c hc => ?_
    simp only [Bool.or_eq_false_iff, decide_eq_false_iff_not]
    constructor <;> rintro rfl <;> exact absurd hc (by decide)
  have hpoint : splitLast (fun c => decide (c = '.')) (intText i) = none := by
    refine hnone _ rfl fun c hc => ?_
    rw [decide_eq_false_iff_not]
    rintro rfl
    exact absurd hc (by decide)
  simp only [numberToken, hexponent, hpoint, isInt_intText, intValue_intText, h, Bool.and_self, if_true]

theorem not_isNameStart_of_isDigit {c : Char} (h : c.isDigit = true) : isNameStart c = false := by
  have hdigits : ∀ k : Fin 10, isNameStart (Char.ofNat (48 + k.1)) = false := by decide
  simp only [Char.isDigit, Bool.and_eq_true, decide_eq_true_eq, ge_iff_le, UInt32.le_iff_toNat_le] at h
  have hrange : 48 ≤ c.toNat ∧ c.toNat ≤ 57 := h
  have hstart := hdigits ⟨c.toNat - 48, by omega⟩
  rwa [Nat.add_sub_cancel' hrange.1, Char.ofNat_toNat] at hstart

theorem readToken_intText {i : Int} (h : fitsWord i = true) : readToken (intText i) = some (.int i, intText i, []) := by
  have hends : ∀ c : Char, c = '-' ∨ c.isDigit = true → endsNumber c = false := by
    rintro c (rfl | hc)
    · decide
    · rw [Bool.eq_false_iff]
      intro he
      have hname := not_isNameChar_of_endsNumber he
      simp [isNameChar, Char.isAlphanum, hc] at hname
  have htoken := numberToken_intText h
  have hchars := chars_intText i
  cases hi : intText i with
  | nil =>
    have hint := isInt_intText i
    rw [hi] at hint
    cases hint
  | cons c cs =>
    rw [hi] at hchars htoken
    obtain ⟨hc, hcs⟩ := List.forall_mem_cons.1 hchars
    have htail : ∀ d ∈ cs, (!endsNumber d) = true := fun d hd => by rw [hends d (hcs d hd), Bool.not_false]
    have htake : cs.takeWhile (!endsNumber ·) = cs := by
      simpa using @List.takeWhile_append_of_pos _ (!endsNumber ·) cs [] htail
    have hdrop : cs.dropWhile (!endsNumber ·) = [] := by
      simpa using @List.dropWhile_append_of_pos _ (!endsNumber ·) cs [] htail
    have hmark : isMark c = false := by
      rw [Bool.eq_false_iff]
      exact fun hm => absurd (endsNumber_of_isMark hm) (by simp [hends c hc])
    have hname : isNameStart c = false := hc.elim (fun he => he ▸ rfl) not_isNameStart_of_isDigit
    have hnumber : (c = '-' || c.isDigit) = true := by simpa using hc
    simp only [readToken, hmark, hname, hnumber, htake, hdrop, htoken, Bool.false_eq_true, if_false, if_true, Option.map_some]

/-- The text of an integer is one token. -/
theorem Lexes.integer {i : Int} (hi : fitsWord i = true) {cs : List Char} {ts : List Token} (hb : atBoundary cs = true)
    (h : Lexes cs ts) : Lexes (intText i ++ cs) (.int i :: ts) :=
  .token (readToken_append hb (readToken_intText hi)) h

end Lexer

/-! ## Characters between quotes -/

namespace Value

open Lexer (codedChar? escapedChar? quotedBody_plain quotedBody_append_plain quotedBody_escaped unquote unquote_plain
  unquote_escaped)

/-- The character is written between quotes as itself or by a letter, and not by its code. -/
def isSpelled (c : Char) : Bool := c = '\r' || c = '\n' || c = '\t' || isPlain c

/-- What is read where a character was written between quotes: of its code, the first four digits count as hexadecimal ones, and
the others are characters of their own. -/
def requotedChar (c : Char) : List Char :=
  if isSpelled c then [c] else (codedChar? ((paddedCode c).take 4)).toList ++ (paddedCode c).drop 4

theorem digits_paddedCode (c : Char) : ∀ d ∈ paddedCode c, d.isDigit = true := by
  intro d hd
  rcases List.mem_append.1 hd with hd | hd
  · rw [List.eq_of_mem_replicate hd]
    decide
  · exact Lexer.digits_toDigits d hd

theorem length_paddedCode (c : Char) : (paddedCode c).length = max 4 (Nat.toDigits 10 c.toNat).length := by
  simp only [paddedCode, List.length_append, List.length_replicate]
  omega

/-- The value of a digit is the same in both systems. -/
theorem hexDigit?_of_isDigit {c : Char} (h : c.isDigit = true) : ∃ n < 10, Text.hexDigit? c = some n := by
  simp only [Char.isDigit, Bool.and_eq_true, decide_eq_true_eq, ge_iff_le, UInt32.le_iff_toNat_le] at h
  simp at h
  have hdigit : '0' ≤ c ∧ c ≤ '9' := by
    simp only [Char.le_def, UInt32.le_iff_toNat_le]
    exact ⟨by simpa using h.1, by simpa using h.2⟩
  refine ⟨c.toNat - '0'.toNat, ?_, by simp [Text.hexDigit?, hdigit]⟩
  have hle : c.toNat ≤ 57 := h.2
  have hzero : '0'.toNat = 48 := rfl
  omega

/-- Four digits are the code of a character. -/
theorem codedChar?_digits {w x y z : Char} (h : ∀ d ∈ [w, x, y, z], d.isDigit = true) :
    ∃ c, codedChar? [w, x, y, z] = some c := by
  obtain ⟨hw, h⟩ := List.forall_mem_cons.1 h
  obtain ⟨hx, h⟩ := List.forall_mem_cons.1 h
  obtain ⟨hy, h⟩ := List.forall_mem_cons.1 h
  obtain ⟨hz, -⟩ := List.forall_mem_cons.1 h
  obtain ⟨k, hk, hwk⟩ := hexDigit?_of_isDigit hw
  obtain ⟨l, hl, hxl⟩ := hexDigit?_of_isDigit hx
  obtain ⟨m, hm, hym⟩ := hexDigit?_of_isDigit hy
  obtain ⟨n, hn, hzn⟩ := hexDigit?_of_isDigit hz
  have hplus : w ≠ '+' := by
    rintro rfl
    exact absurd hw (by decide)
  have hvalue : Text.hexValue? [w, x, y, z] = some ((((0 * 16 + k) * 16 + l) * 16 + m) * 16 + n) := by
    simp [Text.hexValue?, hwk, hxl, hym, hzn]
  have hvalid : ((((0 * 16 + k) * 16 + l) * 16 + m) * 16 + n).isValidChar := .inl (by omega)
  refine ⟨Char.ofNat ((((0 * 16 + k) * 16 + l) * 16 + m) * 16 + n), ?_⟩
  unfold codedChar?
  split
  · rename_i tail hcode
    exact absurd (List.cons.inj hcode).1 hplus
  · rw [hvalue]
    simp only [Option.bind_eq_bind, Option.bind_some, if_pos hvalid]

/-- The first four digits of a code are the code of a character. -/
theorem paddedCode_cases (c : Char) : ∃ w x y z rest r, paddedCode c = w :: x :: y :: z :: rest ∧
    (∀ d ∈ rest, d.isDigit = true) ∧ codedChar? [w, x, y, z] = some r := by
  have hdigits := digits_paddedCode c
  have hlength := length_paddedCode c
  match hp : paddedCode c with
  | [] | [_] | [_, _] | [_, _, _] => rw [hp] at hlength; simp at hlength; omega
  | w :: x :: y :: z :: rest =>
    have hsplit : ∀ d ∈ [w, x, y, z] ++ rest, d.isDigit = true := by rwa [hp] at hdigits
    obtain ⟨hfour, hrest⟩ := List.forall_mem_append.1 hsplit
    obtain ⟨r, hr⟩ := codedChar?_digits hfour
    exact ⟨w, x, y, z, rest, r, rfl, hrest, hr⟩

/-- A character that is not written by its code is one plain character, or a backslash with a letter. -/
theorem quotedChar_spelled {c : Char} (h : isSpelled c = true) :
    (quotedChar c = [c] ∧ c ≠ '"' ∧ c ≠ '\\' ∧ c ≠ '\n') ∨
      ∃ e, quotedChar c = ['\\', e] ∧ e ≠ 'u' ∧ e ≠ '\n' ∧ escapedChar? e = some c := by
  unfold quotedChar
  split
  · rename_i hc; subst hc; exact .inr ⟨'r', rfl, by decide, by decide, by decide⟩
  · split
    · rename_i hc; subst hc; exact .inr ⟨'n', rfl, by decide, by decide, by decide⟩
    · split
      · rename_i hc; subst hc; exact .inr ⟨'t', rfl, by decide, by decide, by decide⟩
      · split
        · rename_i hc; subst hc; exact .inr ⟨'"', rfl, by decide, by decide, by decide⟩
        · split
          · rename_i hc; subst hc; exact .inr ⟨'\\', rfl, by decide, by decide, by decide⟩
          · rename_i h1 h2 h3 h4 h5
            have hplain : isPlain c = true := by simpa [isSpelled, h1, h2, h3] using h
            exact .inl ⟨if_pos hplain, h4, h5, h2⟩

theorem quotedChar_coded {c : Char} (h : isSpelled c = false) : quotedChar c = '\\' :: 'u' :: paddedCode c := by
  simp only [isSpelled, Bool.or_eq_false_iff, decide_eq_false_iff_not] at h
  obtain ⟨⟨⟨h1, h2⟩, h3⟩, h4⟩ := h
  have hquote : c ≠ '"' := by
    rintro rfl
    exact absurd h4 (by decide)
  have hslash : c ≠ '\\' := by
    rintro rfl
    exact absurd h4 (by decide)
  simp [quotedChar, h1, h2, h3, h4, hquote, hslash]

/-! ### Reading a character -/

theorem ne_of_isDigit {d : Char} (h : d.isDigit = true) : d ≠ '"' ∧ d ≠ '\\' ∧ d ≠ '\n' := by
  refine ⟨?_, ?_, ?_⟩ <;> rintro rfl <;> exact absurd h (by decide)

theorem unquote_digits {ds : List Char} (h : ∀ d ∈ ds, d.isDigit = true) (cs : List Char) :
    unquote (ds ++ cs) = (unquote cs).map (ds ++ ·) := by
  induction ds with
  | nil => simp
  | cons d ds ih =>
    obtain ⟨hd, hds⟩ := List.forall_mem_cons.1 h
    rw [List.cons_append, unquote_plain (ne_of_isDigit hd).2.1, ih hds, Option.map_map]
    rfl

/-- A character is read from the place that it was written at. -/
theorem quotes_value : Lexer.Quotes quotedChar requotedChar where
  body c cs := by
    cases hs : isSpelled c with
    | true =>
      rcases quotedChar_spelled hs with ⟨h, h1, h2, h3⟩ | ⟨e, h, -, he, -⟩
      · rw [h]; exact quotedBody_plain h1 h2 h3 cs
      · rw [h]; exact quotedBody_escaped he cs
    | false =>
      have hplain := quotedBody_append_plain (fun d hd => ne_of_isDigit (digits_paddedCode c d hd)) cs
      rw [quotedChar_coded hs, List.cons_append, List.cons_append, quotedBody_escaped (by decide), hplain, Option.map_map]
      rfl
  value c cs := by
    cases hs : isSpelled c with
    | true =>
      rw [requotedChar, if_pos hs]
      rcases quotedChar_spelled hs with ⟨h, -, h2, -⟩ | ⟨e, h, hu, -, he⟩
      · rw [h]; exact unquote_plain h2 cs
      · rw [h]; exact unquote_escaped hu he cs
    | false =>
      obtain ⟨w, x, y, z, rest, r, hp, hrest, hr⟩ := paddedCode_cases c
      rw [quotedChar_coded hs, requotedChar, hs, if_neg Bool.false_ne_true, hp]
      simp only [List.cons_append, unquote, List.take_succ_cons, List.take_zero, List.drop_succ_cons, List.drop_zero, hr,
        Option.toList_some, List.nil_append, unquote_digits hrest]
      cases unquote cs with
      | none => rfl
      | some back => rfl
  head c := by
    cases hs : isSpelled c with
    | true =>
      rcases quotedChar_spelled hs with ⟨h, h1, -⟩ | ⟨e, h, -⟩
      · exact ⟨c, [], h, h1⟩
      · exact ⟨'\\', [e], h, by decide⟩
    | false => exact ⟨'\\', _, quotedChar_coded hs, by decide⟩

/-! ### Which characters come back -/

theorem requotedChar_ne_nil (c : Char) : requotedChar c ≠ [] := by
  obtain ⟨w, x, y, z, rest, r, hp, -, hr⟩ := paddedCode_cases c
  rw [requotedChar, hp]
  split
  · exact List.cons_ne_nil _ _
  · simp [hr]

/-- A character is read again if it was not written by its code, or if its code has one digit. -/
theorem requotedChar_eq_iff (c : Char) : requotedChar c = [c] ↔ isSpelled c = true ∨ c.toNat < 10 := by
  have hcontrol : ∀ n : Fin 32, requotedChar (Char.ofNat n) = [Char.ofNat n] ↔ isSpelled (Char.ofNat n) = true ∨ n.1 < 10 := by
    decide +kernel
  by_cases hlow : c.toNat < 32
  · simpa using hcontrol ⟨c.toNat, hlow⟩
  · cases hs : isSpelled c with
    | true => simp [requotedChar, hs]
    | false =>
      have hhigh : 0xFFFF < c.toNat := by
        simp only [isSpelled, isPlain, Bool.or_eq_false_iff, Bool.and_eq_false_iff, decide_eq_false_iff_not] at hs
        omega
      have hlength : 4 < (Nat.toDigits 10 c.toNat).length := by
        have hle := @Nat.length_toDigits_le_iff 10 c.toNat 4 (by omega) (by omega)
        omega
      refine iff_of_false (fun h => ?_) (by simp; omega)
      obtain ⟨w, x, y, z, rest, r, hp, -, hr⟩ := paddedCode_cases c
      have hpadded := length_paddedCode c
      rw [requotedChar, hs, if_neg Bool.false_ne_true, hp] at h
      rw [hp] at hpadded
      simp only [List.take_succ_cons, List.take_zero, List.drop_succ_cons, List.drop_zero, hr, Option.toList_some,
        List.singleton_append, List.cons.injEq] at h
      rw [h.2] at hpadded
      simp at hpadded
      omega

/-- A text that is made of one text for each character is the same just if each of them is that character alone. -/
theorem flatMap_eq_self_iff {f : Char → List Char} (hf : ∀ c, f c ≠ []) (cs : List Char) :
    cs.flatMap f = cs ↔ ∀ c ∈ cs, f c = [c] := by
  have hlength : ∀ cs : List Char, cs.length ≤ (cs.flatMap f).length := by
    intro cs
    induction cs with
    | nil => exact Nat.zero_le _
    | cons c cs ih =>
      have hpos := List.length_pos_iff.2 (hf c)
      rw [List.flatMap_cons, List.length_append, List.length_cons]
      omega
  induction cs with
  | nil => simp
  | cons c cs ih =>
    rw [List.flatMap_cons, List.forall_mem_cons]
    refine ⟨fun h => ?_, fun h => by rw [h.1, ih.2 h.2, List.singleton_append]⟩
    have hone : (f c).length = 1 := by
      have hall := congrArg List.length h
      have hrest := hlength cs
      have hpos := List.length_pos_iff.2 (hf c)
      rw [List.length_append, List.length_cons] at hall
      omega
    obtain ⟨d, hd⟩ := List.length_eq_one_iff.1 hone
    rw [hd, List.singleton_append, List.cons.injEq] at h
    exact ⟨by rw [hd, h.1], ih.1 h.2⟩

/-! ### Whole strings -/

/-- The string that is read where one was written between quotes. -/
def requoted (s : String) : String := String.ofList (s.toList.flatMap requotedChar)

theorem requoted_eq_iff (s : String) : requoted s = s ↔ ∀ c ∈ s.toList, isSpelled c = true ∨ c.toNat < 10 := by
  simp only [requoted, ← String.toList_inj, String.toList_ofList, flatMap_eq_self_iff requotedChar_ne_nil, requotedChar_eq_iff]

theorem readToken_quoted (s : String) : Lexer.readToken ('"' :: s.toList.flatMap quotedChar ++ ['"']) =
    some (.string (requoted s), '"' :: s.toList.flatMap quotedChar ++ ['"'], []) :=
  quotes_value.readToken_flatMap s.toList

end Value
end GraphqlCodegen.Sdl
