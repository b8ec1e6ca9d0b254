import GraphqlCodegen.Proofs.Sdl.Strings
import GraphqlCodegen.Proofs.Text.Lines

/-!
# The value of a written block string

A text whose first and last lines are not blank and that has a line without indentation comes back from the block
string that it is written as (`writtenValue_eq`), whatever quotes and backslashes it holds and however its other lines
are indented. The lines that are written have the indentation in common and nothing else, so just the indentation is
taken away; the lines with the quotes are blank and are dropped; and the backslashes in front of triple quotes are those
that were put there (`unescape_escape`). A text of tidy lines is a special case (`Tidy.flush`).
-/

namespace GraphqlCodegen.Sdl.BlockString

open Text (pieces lines lastLine dropReturn isBlank pieces_ne_nil)

/-! ## Escaped quotes -/

theorem unescape_cons {c : Char} {cs : List Char} (h : ∀ z, c :: cs ≠ '\\' :: '"' :: '"' :: '"' :: z) :
    unescape (c :: cs) = c :: unescape cs := by
  rw [unescape]
  intro z hc hz
  exact h z (by rw [hc, hz])

/-- A triple quote that is written has a backslash in front that was not there before. -/
theorem escape_ne_quotes (x z : List Char) : escape x ≠ '"' :: '"' :: '"' :: z := by
  intro h
  obtain ⟨y, rfl, hy⟩ := escape_eq_quote h
  obtain ⟨w, rfl, hw⟩ := escape_eq_quote hy.symm
  obtain ⟨v, rfl, -⟩ := escape_eq_quote hw.symm
  simp [escape] at h

theorem unescape_escape (cs : List Char) : unescape (escape cs) = cs := by
  fun_induction escape cs with
  | case1 cs ih => rw [unescape, ih]
  | case2 c cs hn ih =>
    rw [unescape_cons, ih]
    intro z hz
    exact escape_ne_quotes cs z (List.cons.inj hz).2
  | case3 => rfl

/-- Escaping puts a backslash in front of some quotes, and none of these characters is blank. -/
theorem isBlankLine_escape (line : List Char) : isBlankLine (escape line) = isBlankLine line := by
  have hquote : isBlank '"' = false := by decide
  have hslash : isBlank '\\' = false := by decide
  unfold isBlankLine
  fun_induction escape line with
  | case1 cs ih => simp [hquote, hslash]
  | case2 c cs hn ih => rw [List.all_cons, List.all_cons, ih]
  | case3 => rfl

/-! ## Flush texts -/

/-- The line begins with a character that is not blank. -/
def isFlush (line : List Char) : Bool := line.head?.any (!isBlank ·)

/-- The first and the last line are not blank, and some line begins with a character that is not blank. No line ends in
a carriage return, which would be taken for a part of the line end. -/
structure Flush (text : String) : Prop where
  first : ∀ line ∈ (pieces text.toList).head?, isBlankLine line = false
  last : ∀ line ∈ (pieces text.toList).getLast?, isBlankLine line = false
  flush : ∃ line ∈ pieces text.toList, isFlush line = true
  noReturn : ∀ line ∈ pieces text.toList, line.getLast? ≠ some '\r'

variable {indent line : List Char}

theorem exists_of_isFlush (h : isFlush line = true) : ∃ c cs, line = c :: cs ∧ isBlank c = false := by
  cases line with
  | nil => simp [isFlush] at h
  | cons c cs => exact ⟨c, cs, rfl, by simpa [isFlush] using h⟩

theorem isBlankLine_of_isFlush (h : isFlush line = true) : isBlankLine line = false := by
  obtain ⟨c, cs, rfl, hc⟩ := exists_of_isFlush h
  simp [isBlankLine, hc]

theorem isFlush_escape (h : isFlush line = true) : isFlush (escape line) = true := by
  obtain ⟨c, cs, rfl, hc⟩ := exists_of_isFlush h
  by_cases hq : ∃ z, c :: cs = '"' :: '"' :: '"' :: z
  · obtain ⟨z, hz⟩ := hq
    rw [hz, escape]
    rfl
  · rw [escape_cons fun z hz => hq ⟨z, hz⟩]
    simp [isFlush, hc]

/-! ### Tidy texts -/

/-- The line begins and ends with characters that are not blank. -/
structure IsTidy (line : List Char) : Prop where
  first : ∃ c cs, line = c :: cs ∧ isBlank c = false
  last : ∃ c, line.getLast? = some c ∧ isBlank c = false

theorem isTidy_iff : IsTidy line ↔ isFlush line = true ∧ line.getLast?.any (!isBlank ·) = true := by
  constructor
  · rintro ⟨⟨c, cs, rfl, hc⟩, d, hd, hb⟩
    simp [isFlush, hc, hd, hb]
  · rintro ⟨hf, hl⟩
    obtain ⟨d, hd, hb⟩ := Option.any_eq_true _ _ |>.1 hl
    exact ⟨exists_of_isFlush hf, d, hd, by simpa using hb⟩

instance : DecidablePred IsTidy := fun _ => decidable_of_iff _ isTidy_iff.symm

/-- All lines of a text are tidy. -/
def Tidy (text : String) : Prop := ∀ line ∈ pieces text.toList, IsTidy line

instance (text : String) : Decidable (Tidy text) :=
  inferInstanceAs (Decidable (∀ line ∈ pieces text.toList, IsTidy line))

theorem IsTidy.isFlush (h : IsTidy line) : isFlush line = true := (isTidy_iff.1 h).1

theorem Tidy.flush {text : String} (h : Tidy text) : Flush text := by
  have hblank : ∀ line ∈ pieces text.toList, isBlankLine line = false :=
    fun line hl => isBlankLine_of_isFlush (h line hl).isFlush
  obtain ⟨first, rest, hp⟩ := List.exists_cons_of_ne_nil (pieces_ne_nil text.toList)
  have hfirst : first ∈ pieces text.toList := by rw [hp]; exact List.mem_cons_self
  refine ⟨fun line hl => hblank line (List.mem_of_mem_head? hl), fun line hl => hblank line (List.mem_of_mem_getLast? hl),
    ⟨first, hfirst, (h first hfirst).isFlush⟩, fun line hl hr => ?_⟩
  -- a carriage return is blank
  obtain ⟨c, hc, hb⟩ := (h line hl).last
  rw [hr, Option.some.injEq] at hc
  exact absurd hb (by rw [← hc]; decide)

/-! ## Margins -/

theorem size_append (a b : List Char) : size (a ++ b) = size a + size b := by
  induction a with
  | nil => simp [size]
  | cons c a ih => rw [List.cons_append, size, size, ih, Nat.add_assoc]

theorem dropSize_size (a b : List Char) : dropSize (size a) (a ++ b) = b := by
  induction a with
  | nil => cases b <;> simp [size, dropSize]
  | cons c a ih =>
    have hpos := c.utf8Size_pos
    rw [size, List.cons_append, dropSize, if_neg (by omega), Nat.add_sub_cancel_left, ih]

theorem dedent_append (indent line : List Char) : dedent (size indent) (indent ++ line) = line := by
  rw [dedent, if_pos (by rw [size_append]; omega), dropSize_size]

theorem indent?_of_isFlush (h : isFlush line = true) : indent? line = some 0 := by
  obtain ⟨c, cs, rfl, hc⟩ := exists_of_isFlush h
  simp [indent?, isBlankLine, hc, size]

theorem indent?_append (hi : ∀ c ∈ indent, isBlank c = true) (line : List Char) :
    indent? (indent ++ line) = (indent? line).map (size indent + ·) := by
  have hblank : isBlankLine (indent ++ line) = isBlankLine line := by
    simpa [isBlankLine] using fun _ => hi
  rw [indent?, indent?, hblank, List.takeWhile_append_of_pos hi, size_append]
  split <;> rfl

/-- Lines with an indentation have just that in common if one of them is flush without it, whatever blank lines there
are besides. -/
theorem margin?_indented (hi : ∀ c ∈ indent, isBlank c = true) {ls back : List (List Char)}
    (hls : ∃ l ∈ ls, isFlush l = true) (hback : ∀ l ∈ back, isBlankLine l = true) :
    margin? (ls.map (indent ++ ·) ++ back) = some (size indent) := by
  have hrest : back.filterMap indent? = [] :=
    List.filterMap_eq_nil_iff.2 fun l hl => by simp [indent?, hback l hl]
  rw [margin?, List.filterMap_append, hrest, List.append_nil, List.filterMap_map, List.min?_eq_some_iff]
  obtain ⟨l, hl, hflush⟩ := hls
  refine ⟨List.mem_filterMap.2 ⟨l, hl, ?_⟩, fun n hn => ?_⟩
  · rw [Function.comp_apply, indent?_append hi, indent?_of_isFlush hflush, Option.map_some, Nat.add_zero]
  · obtain ⟨k, hk, he⟩ := List.mem_filterMap.1 hn
    rw [Function.comp_apply, indent?_append hi] at he
    obtain ⟨m, -, rfl⟩ := Option.map_eq_some_iff.1 he
    exact Nat.le_add_right _ _

/-! ## Blank ends -/

theorem dropWhile_append_of_head? {α : Type} {p : α → Bool} {xs : List α} (hne : xs ≠ []) (h : ∀ x ∈ xs.head?, p x = false)
    (ys : List α) : (xs ++ ys).dropWhile p = xs ++ ys := by
  obtain ⟨x, rest, rfl⟩ := List.exists_cons_of_ne_nil hne
  exact List.dropWhile_cons_of_neg (by simp [h x rfl])

/-- The blank lines at both ends are dropped, and no line behind the first or in front of the last that is not blank. -/
theorem dropBlankEnds_append {front ls back : List (List Char)} (hf : ∀ l ∈ front, isBlankLine l = true)
    (hb : ∀ l ∈ back, isBlankLine l = true) (hne : ls ≠ []) (hfirst : ∀ l ∈ ls.head?, isBlankLine l = false)
    (hlast : ∀ l ∈ ls.getLast?, isBlankLine l = false) : dropBlankEnds (front ++ (ls ++ back)) = ls := by
  have hend : (back.reverse ++ ls.reverse).dropWhile isBlankLine = ls.reverse := by
    rw [List.dropWhile_append_of_pos fun l hl => hb l (List.mem_reverse.1 hl)]
    have hstop := dropWhile_append_of_head? (p := isBlankLine) (mt List.reverse_eq_nil_iff.1 hne)
      (fun l hl => hlast l (List.head?_reverse ▸ hl)) []
    rwa [List.append_nil] at hstop
  rw [dropBlankEnds, List.dropWhile_append_of_pos hf, dropWhile_append_of_head? hne hfirst, List.reverse_append, hend,
    List.reverse_reverse]

/-! ## Written texts -/

theorem dropReturn_eq_self (h : line.getLast? ≠ some '\r') : dropReturn line = line := if_neg h

theorem map_dropReturn {ls : List (List Char)} (h : ∀ l ∈ ls, l.getLast? ≠ some '\r') : ls.map dropReturn = ls := calc
  ls.map dropReturn = ls.map id := List.map_congr_left fun l hl => dropReturn_eq_self (h l hl)
  _ = ls := List.map_id ls

theorem noReturn_indented (hi : ∀ c ∈ indent, c = ' ') (h : line.getLast? ≠ some '\r') :
    (indent ++ line).getLast? ≠ some '\r' := by
  rw [List.getLast?_append]
  cases hl : line.getLast? with
  | some c => rwa [hl] at h
  | none => exact fun hr => absurd (hi _ (List.mem_of_getLast? hr)) (by decide)

/-- The lines of a text that does not end in a line end are its pieces. -/
theorem Flush.lines {text : String} (h : Flush text) : lines text.toList = pieces text.toList := by
  obtain ⟨ps, last, hp⟩ := (List.eq_nil_or_concat _).resolve_left (pieces_ne_nil text.toList)
  rw [List.concat_eq_append] at hp
  have hlast : last ≠ [] := by
    rintro rfl
    exact absurd (h.last [] (by rw [hp, List.getLast?_concat]; rfl)) (by simp [isBlankLine])
  have hps : ∀ l ∈ ps, l.getLast? ≠ some '\r' := fun l hl => h.noReturn l (by rw [hp]; exact List.mem_append_left _ hl)
  rw [Text.lines_eq hp, map_dropReturn hps, lastLine, if_neg hlast, hp]

/-- What stands between the quotes: nothing on the first line, the lines with the indentation, and the indentation
alone, which is no line if it is empty. -/
theorem Flush.lines_writtenBody (hi : ∀ c ∈ indent, c = ' ') {text : String} (h : Flush text) :
    Text.lines (writtenBody indent text.toList) =
      [] :: ((pieces (escape text.toList)).map (indent ++ ·) ++ lastLine indent) := by
  have hbreak : '\n' ∉ indent := fun hm => absurd (hi _ hm) (by decide)
  have hflat : (pieces (escape text.toList)).flatMap (fun line => indent ++ line ++ ['\n']) =
      ((pieces (escape text.toList)).map (indent ++ ·)).flatMap (· ++ ['\n']) := by
    rw [List.flatMap_map]
  have hlines : ∀ l ∈ (pieces (escape text.toList)).map (indent ++ ·), '\n' ∉ l := by
    intro l hl
    obtain ⟨k, hk, rfl⟩ := List.mem_map.1 hl
    exact fun hm => (List.mem_append.1 hm).elim hbreak (Text.notMem_pieces hk)
  have hpieces : pieces (writtenBody indent text.toList) =
      ([] :: (pieces (escape text.toList)).map (indent ++ ·)) ++ [indent] := by
    rw [writtenBody, lines_escape, h.lines, ← pieces_escape, hflat]
    calc pieces ([] ++ '\n' :: (((pieces (escape text.toList)).map (indent ++ ·)).flatMap (· ++ ['\n']) ++ indent))
      _ = [] :: (((pieces (escape text.toList)).map (indent ++ ·)) ++ pieces indent) := by
        rw [Text.pieces_append (by simp), Text.pieces_flatMap hlines]
      _ = _ := by rw [Text.pieces_of_notMem hbreak, List.cons_append]
  have hreturn : ∀ l ∈ (pieces (escape text.toList)).map (indent ++ ·), l.getLast? ≠ some '\r' := by
    intro l hl
    obtain ⟨k, hk, rfl⟩ := List.mem_map.1 hl
    rw [pieces_escape] at hk
    obtain ⟨line, hline, rfl⟩ := List.mem_map.1 hk
    exact noReturn_indented hi (by rw [getLast?_escape]; exact h.noReturn line hline)
  rw [Text.lines_eq hpieces, List.map_cons, map_dropReturn hreturn]
  rfl

/-- A text is read back as it was written. -/
theorem writtenValue_eq (hi : ∀ c ∈ indent, c = ' ') {text : String} (h : Flush text) : writtenValue indent text = text := by
  have hblank : ∀ c ∈ indent, isBlank c = true := fun c hc => by rw [hi c hc]; decide
  have hlast : ∀ l ∈ lastLine indent, isBlankLine l = true := by
    intro l hl
    obtain ⟨-, rfl⟩ := Text.mem_lastLine.1 hl
    simpa [isBlankLine] using hblank
  have hflush : ∃ l ∈ pieces (escape text.toList), isFlush l = true := by
    obtain ⟨line, hl, hf⟩ := h.flush
    rw [pieces_escape]
    exact ⟨_, List.mem_map_of_mem hl, isFlush_escape hf⟩
  have hdedent : dedentTail (Text.lines (writtenBody indent text.toList)) =
      [[]] ++ (pieces (escape text.toList) ++ (lastLine indent).map (dedent (size indent))) := by
    rw [h.lines_writtenBody hi, dedentTail, margin?_indented hblank hflush hlast]
    simp [dedent_append, Function.comp_def]
  have hback : ∀ l ∈ (lastLine indent).map (dedent (size indent)), isBlankLine l = true := by
    intro l hl
    obtain ⟨k, hk, rfl⟩ := List.mem_map.1 hl
    obtain ⟨-, rfl⟩ := Text.mem_lastLine.1 hk
    have hnil : dedent (size k) k = [] := by simpa using dedent_append k []
    rw [hnil]
    rfl
  have hends : dropBlankEnds (dedentTail (Text.lines (writtenBody indent text.toList))) = pieces (escape text.toList) := by
    rw [hdedent]
    refine dropBlankEnds_append (by simp [isBlankLine]) hback (pieces_ne_nil _) ?_ ?_
    · rw [pieces_escape, List.head?_map]
      intro l hl
      obtain ⟨line, hline, rfl⟩ := Option.map_eq_some_iff.1 hl
      rw [isBlankLine_escape, h.first line hline]
    · rw [pieces_escape, List.getLast?_map]
      intro l hl
      obtain ⟨line, hline, rfl⟩ := Option.map_eq_some_iff.1 hl
      rw [isBlankLine_escape, h.last line hline]
  rw [writtenValue, value, hends, Text.unlines_pieces, unescape_escape, String.ofList_toList]

end GraphqlCodegen.Sdl.BlockString
