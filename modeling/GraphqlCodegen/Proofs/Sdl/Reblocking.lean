import Mathlib.Data.List.Basic
import GraphqlCodegen.Sdl.Value
import GraphqlCodegen.Proofs.Sdl.Dedent

/-!
# Block strings of values read again

A string that is printed as a block has its lines below each other, two spaces in front of each that is not blank. Read again, each
line has lost what the printed lines have in common and one carriage return more, blank lines are empty, and those at both
ends are gone (`value_printed`). So the string comes back just if there was nothing of that to lose (`reblocked_eq_iff`).
-/

namespace GraphqlCodegen.Sdl.BlockString

open Text (pieces lines unlines dropReturn isBlank lastLine pieces_ne_nil)
open Value (blockLine)

variable {line : List Char} {ls : List (List Char)}

/-! ## Lines -/

theorem pieces_unlines (hne : ls ≠ []) (h : ∀ l ∈ ls, '\n' ∉ l) : pieces (unlines ls) = ls := by
  induction ls with
  | nil => exact absurd rfl hne
  | cons l rest ih =>
    obtain ⟨hl, hrest⟩ := List.forall_mem_cons.1 h
    cases rest with
    | nil => exact Text.pieces_of_notMem hl
    | cons k ks =>
      rw [unlines, Text.pieces_append hl, ih (List.cons_ne_nil k ks) hrest]
      exact List.cons_ne_nil k ks

theorem dropReturn_sublist (line : List Char) : (dropReturn line).Sublist line := by
  unfold dropReturn
  split
  · exact List.dropLast_sublist line
  · exact List.Sublist.refl line

theorem notMem_lines {cs l : List Char} (h : l ∈ lines cs) : '\n' ∉ l := by
  obtain ⟨ps, last, hp⟩ := (List.eq_nil_or_concat _).resolve_left (pieces_ne_nil cs)
  rw [List.concat_eq_append] at hp
  rw [Text.lines_eq hp] at h
  rcases List.mem_append.1 h with h | h
  · obtain ⟨p, hm, rfl⟩ := List.mem_map.1 h
    exact fun hn => Text.notMem_pieces (hp ▸ List.mem_append_left _ hm) ((dropReturn_sublist p).subset hn)
  · obtain ⟨-, rfl⟩ := Text.mem_lastLine.1 h
    exact Text.notMem_pieces (hp ▸ List.mem_append_right _ List.mem_cons_self)

theorem isBlankLine_dropReturn (line : List Char) : isBlankLine (dropReturn line) = isBlankLine line := by
  unfold dropReturn
  split
  · rename_i h
    obtain ⟨x, rfl⟩ := List.getLast?_eq_some_iff.1 h
    have hreturn : isBlank '\r' = true := by decide
    simp [isBlankLine, hreturn]
  · rfl

/-- A carriage return at the end of a line is no part of its indentation, unless the line is blank. -/
theorem indent?_dropReturn (line : List Char) : indent? (dropReturn line) = indent? line := by
  rw [indent?, indent?, isBlankLine_dropReturn]
  cases hb : isBlankLine line with
  | true => rfl
  | false =>
    simp only [Bool.false_eq_true, if_false]
    unfold dropReturn
    split
    · rename_i h
      obtain ⟨x, rfl⟩ := List.getLast?_eq_some_iff.1 h
      have hreturn : isBlank '\r' = true := by decide
      have hx : ¬∀ c ∈ x, isBlank c = true := by simpa [isBlankLine, hreturn] using hb
      have htake : (x ++ ['\r']).takeWhile isBlank = x.takeWhile isBlank := by
        rw [List.takeWhile_append, if_neg]
        intro hlength
        have hall := (List.takeWhile_sublist isBlank).eq_of_length hlength
        exact hx (List.all_eq_true.1 (hall ▸ List.all_takeWhile))
      rw [List.dropLast_concat, htake]
    · rfl

theorem takeWhile_escape (line : List Char) : (escape line).takeWhile isBlank = line.takeWhile isBlank := by
  have hquote : isBlank '"' = false := by decide
  have hslash : isBlank '\\' = false := by decide
  fun_induction escape line with
  | case1 cs ih => simp [hquote, hslash]
  | case2 c cs hn ih => rw [List.takeWhile_cons, List.takeWhile_cons, ih]
  | case3 => rfl

theorem indent?_escape (line : List Char) : indent? (escape line) = indent? line := by
  rw [indent?, indent?, isBlankLine_escape, takeWhile_escape]

/-! ## Margins -/

theorem dropSize_zero (line : List Char) : dropSize 0 line = line := by
  cases line <;> simp [dropSize]

/-- What is taken away of the indentation of a line was not escaped. -/
theorem dropSize_escape {n : Nat} (h : n ≤ size (line.takeWhile isBlank)) : dropSize n (escape line) = escape (dropSize n line) := by
  induction line generalizing n with
  | nil => rfl
  | cons c cs ih =>
    by_cases hn : n = 0
    · subst hn
      rw [dropSize_zero, dropSize_zero]
    · have hc : isBlank c = true := by
        by_contra hc
        simp [hc, size] at h
        exact hn h
      have hquote : c ≠ '"' := by
        rintro rfl
        exact absurd hc (by decide)
      rw [escape_cons fun z hz => hquote (List.cons.inj hz).1, dropSize, if_neg hn, dropSize, if_neg hn]
      refine ih ?_
      rw [List.takeWhile_cons_of_pos hc, size] at h
      omega

theorem dedent_nil (n : Nat) : dedent n [] = [] := by
  unfold dedent
  split
  · cases n <;> rfl
  · rfl

theorem dedent_add {indent : List Char} {n : Nat} (h : n ≤ size line) :
    dedent (size indent + n) (indent ++ line) = dropSize n line := by
  have hdrop : dropSize (size indent + n) (indent ++ line) = dropSize n line := by
    clear h
    induction indent with
    | nil => rw [size, Nat.zero_add, List.nil_append]
    | cons c cs ih =>
      have hpos := c.utf8Size_pos
      rw [size, List.cons_append, dropSize, if_neg (by omega), ← ih]
      congr 1
      omega
  rw [dedent, if_pos (by rw [size_append]; omega), hdrop]

theorem margin?_le {m : Nat} (hm : margin? ls = some m) (hl : line ∈ ls) (hb : isBlankLine line = false) :
    m ≤ size (line.takeWhile isBlank) := by
  rw [margin?, List.min?_eq_some_iff] at hm
  refine hm.2 _ (List.mem_filterMap.2 ⟨line, hl, ?_⟩)
  rw [indent?, hb, if_neg Bool.false_ne_true]

theorem isBlankLine_of_margin? (hm : margin? ls = none) (hl : line ∈ ls) : isBlankLine line = true := by
  rw [margin?, List.min?_eq_none_iff, List.filterMap_eq_nil_iff] at hm
  have hnone := hm line hl
  unfold indent? at hnone
  split at hnone
  · assumption
  · cases hnone

/-! ## Printed lines -/

/-- A line of a printed block string, without its end. -/
def printedLine (line : List Char) : List Char := if isBlankLine line then [] else [' ', ' '] ++ escape line

theorem blockLine_eq (line : List Char) : blockLine line = printedLine line ++ ['\n'] := by
  unfold blockLine printedLine isBlankLine
  split <;> simp

theorem passes_blockLine (line : List Char) : Passes (blockLine line) := by
  have hend : Passes ['\n'] := passes_char (by decide) (by decide)
  rw [blockLine_eq, printedLine]
  split
  · exact hend
  · rw [List.append_assoc]
    exact (passes_blanks (by simp)).append (passes_escape line)

/-- What stands between the quotes. -/
def printedBody (text : List Char) : List Char := '\n' :: (lines text).flatMap blockLine

theorem passes_printedBody (text : List Char) : Passes (printedBody text) :=
  @Passes.append ['\n'] _ (passes_char (by decide) (by decide)) (Passes.flatMap fun line _ => passes_blockLine line)

theorem dropReturn_printedLine (line : List Char) :
    dropReturn (printedLine line) = if isBlankLine line then [] else [' ', ' '] ++ escape (dropReturn line) := by
  unfold printedLine
  split
  · rfl
  · rename_i hb
    have hne : escape line ≠ [] := fun h => hb (by rw [escape_eq_nil h]; rfl)
    rw [← dropReturn_escape]
    unfold dropReturn
    rw [List.getLast?_append_of_ne_nil _ hne]
    split
    · rw [List.dropLast_append_of_ne_nil hne]
    · rfl

theorem lines_printedBody (text : List Char) : lines (printedBody text) = [] :: (lines text).map (dropReturn ∘ printedLine) := by
  have hlines : ∀ l ∈ (lines text).map printedLine, '\n' ∉ l := by
    intro l hl
    obtain ⟨line, hm, rfl⟩ := List.mem_map.1 hl
    have hescape : '\n' ∉ escape line := notMem_lines (lines_escape text ▸ List.mem_map_of_mem hm)
    unfold printedLine
    split <;> simp [hescape]
  have hflat : (lines text).flatMap blockLine = ((lines text).map printedLine).flatMap (· ++ ['\n']) ++ [] := by
    rw [List.append_nil, List.flatMap_map]
    exact List.flatMap_congr fun line _ => blockLine_eq line
  have hpieces : pieces (printedBody text) = ([] :: (lines text).map printedLine) ++ [[]] := by
    rw [printedBody, hflat]
    exact (@Text.pieces_append [] (by simp) _).trans (by rw [Text.pieces_flatMap hlines]; rfl)
  rw [Text.lines_eq hpieces, lastLine, if_pos rfl, List.append_nil, List.map_cons, List.map_map]
  rfl

/-! ## The value of what was printed -/

/-- A line that was printed and is read with a margin. -/
def relined (margin : Nat) (line : List Char) : List Char :=
  if isBlankLine line then [] else dropSize margin (dropReturn line)

/-- The lines of a block string that was printed. -/
def relines (ls : List (List Char)) : List (List Char) := dropBlankEnds (ls.map (relined ((margin? ls).getD 0)))

theorem indent?_printedLine (line : List Char) :
    indent? (dropReturn (printedLine line)) = (indent? line).map (size [' ', ' '] + ·) := by
  rw [dropReturn_printedLine]
  split
  · rename_i hb
    have hline : indent? line = none := if_pos hb
    rw [hline]
    rfl
  · rw [indent?_append (by simp [isBlank]), indent?_escape, indent?_dropReturn]

theorem min?_map_add (n : Nat) (ns : List Nat) : (ns.map (n + ·)).min? = ns.min?.map (n + ·) := by
  cases h : ns.min? with
  | none => rw [List.min?_eq_none_iff.1 h]; rfl
  | some m =>
    rw [List.min?_eq_some_iff] at h
    rw [Option.map_some, List.min?_eq_some_iff]
    exact ⟨List.mem_map_of_mem h.1, List.forall_mem_map.2 fun k hk => Nat.add_le_add_left (h.2 k hk) n⟩

theorem margin?_printed (ls : List (List Char)) :
    margin? (ls.map (dropReturn ∘ printedLine)) = (margin? ls).map (size [' ', ' '] + ·) := by
  rw [margin?, margin?, ← min?_map_add, List.filterMap_map, List.map_filterMap]
  exact congrArg List.min? (List.filterMap_congr fun line _ => indent?_printedLine line)

/-- The margin of the printed lines is taken away together with the spaces in front. -/
theorem dedent_printedLine {m : Nat} (hm : margin? ls = some m) (hl : line ∈ ls) :
    dedent (size [' ', ' '] + m) (dropReturn (printedLine line)) = escape (relined m line) := by
  rw [dropReturn_printedLine, relined]
  cases hb : isBlankLine line with
  | true => simp only [if_true, dedent_nil, escape]
  | false =>
    have hindent : m ≤ size ((dropReturn line).takeWhile isBlank) := by
      have hle := margin?_le hm hl hb
      have hsame := indent?_dropReturn line
      rw [indent?, indent?, isBlankLine_dropReturn, hb] at hsame
      simp only [Bool.false_eq_true, if_false, Option.some.injEq] at hsame
      omega
    have hsize : m ≤ size (escape (dropReturn line)) := by
      have hsplit := List.takeWhile_append_dropWhile (p := isBlank) (l := escape (dropReturn line))
      have htotal := size_append ((escape (dropReturn line)).takeWhile isBlank) ((escape (dropReturn line)).dropWhile isBlank)
      rw [hsplit, takeWhile_escape] at htotal
      omega
    simp only [Bool.false_eq_true, if_false]
    rw [dedent_add hsize, dropSize_escape hindent]

theorem dedentTail_printed (text : List Char) : dedentTail (lines (printedBody text)) =
    [] :: (lines text).map (escape ∘ relined ((margin? (lines text)).getD 0)) := by
  rw [lines_printedBody, dedentTail, margin?_printed]
  cases hm : margin? (lines text) with
  | none =>
    have hlines : (lines text).map (dropReturn ∘ printedLine) = (lines text).map (escape ∘ relined 0) :=
      List.map_congr_left fun line hl => by
        simp [printedLine, relined, isBlankLine_of_margin? hm hl, dropReturn, escape]
    rw [Option.map_none, hlines, Option.getD_none]
  | some m =>
    have hlines : ((lines text).map (dropReturn ∘ printedLine)).map (dedent (size [' ', ' '] + m)) =
        (lines text).map (escape ∘ relined m) := by
      rw [List.map_map]
      exact List.map_congr_left fun line hl => dedent_printedLine hm hl
    rw [Option.map_some, Option.getD_some, ← hlines]

theorem dropBlankEnds_map {f : List Char → List Char} (hf : ∀ l, isBlankLine (f l) = isBlankLine l) (ls : List (List Char)) :
    dropBlankEnds (ls.map f) = (dropBlankEnds ls).map f := by
  have hdrop : ∀ ls : List (List Char), (ls.map f).dropWhile isBlankLine = (ls.dropWhile isBlankLine).map f := by
    intro ls
    rw [List.dropWhile_map]
    congr 2
    funext l
    exact hf l
  rw [dropBlankEnds, dropBlankEnds, hdrop, ← List.map_reverse, hdrop, List.map_reverse]

theorem dropBlankEnds_sublist (ls : List (List Char)) : (dropBlankEnds ls).Sublist ls := by
  have hinner : ((ls.dropWhile isBlankLine).reverse.dropWhile isBlankLine).reverse.Sublist (ls.dropWhile isBlankLine) := by
    rw [← List.reverse_sublist, List.reverse_reverse]
    exact List.dropWhile_sublist _
  exact hinner.trans (List.dropWhile_sublist _)

theorem dropSize_sublist : ∀ (n : Nat) (line : List Char), (dropSize n line).Sublist line
  | n, [] => by cases n <;> exact List.Sublist.refl _
  | n, c :: cs => by
    rw [dropSize]
    split
    · exact List.Sublist.refl _
    · exact (dropSize_sublist _ cs).cons c

theorem relined_sublist (margin : Nat) (line : List Char) : (relined margin line).Sublist line := by
  unfold relined
  split
  · exact List.nil_sublist _
  · exact (dropSize_sublist _ _).trans (dropReturn_sublist line)

theorem notMem_relines {cs l : List Char} (h : l ∈ relines (lines cs)) : '\n' ∉ l := by
  obtain ⟨line, hl, rfl⟩ := List.mem_map.1 ((dropBlankEnds_sublist _).subset h)
  exact fun hn => notMem_lines hl ((relined_sublist _ line).subset hn)

theorem unlines_escape (h : ∀ l ∈ ls, '\n' ∉ l) : unlines (ls.map escape) = escape (unlines ls) := by
  cases ls with
  | nil => rfl
  | cons l rest =>
    have hpieces := pieces_unlines (List.cons_ne_nil l rest) h
    rw [← Text.unlines_pieces (escape (unlines (l :: rest))), pieces_escape, hpieces]

/-- The value of a printed block string. -/
theorem value_printed (text : List Char) : value (printedBody text) = unlines (relines (lines text)) := by
  have hends : dropBlankEnds (dedentTail (lines (printedBody text))) = (relines (lines text)).map escape := by
    rw [dedentTail_printed, relines, ← dropBlankEnds_map isBlankLine_escape, List.map_map, dropBlankEnds,
      List.dropWhile_cons_of_pos (by rfl), dropBlankEnds]
  rw [value, hends, unlines_escape fun l hl => notMem_relines hl, unescape_escape]

/-! ## Which strings come back -/

/-- The string that is read where one was printed as a block. -/
def reblocked (s : String) : String := String.ofList (unlines (relines (lines s.toList)))

/-- A text that loses nothing in a printed block: its lines are flush, and blank ones among them are empty. -/
structure Square (s : String) : Prop extends Flush s where
  blank : ∀ line ∈ pieces s.toList, isBlankLine line = true → line = []

/-- No blank line is left at an end. -/
theorem ends_dropBlankEnds (ls : List (List Char)) : (∀ l ∈ (dropBlankEnds ls).head?, isBlankLine l = false) ∧
    ∀ l ∈ (dropBlankEnds ls).getLast?, isBlankLine l = false := by
  have hstart : ∀ ls : List (List Char), ∀ l ∈ (ls.dropWhile isBlankLine).head?, isBlankLine l = false := fun ls l hl => by
    have hnot := List.head?_dropWhile_not isBlankLine ls
    rw [Option.mem_def] at hl
    rwa [hl] at hnot
  rw [dropBlankEnds]
  refine ⟨fun l hl => ?_, fun l hl => ?_⟩
  · -- what is left of the end begins where what is left of the start begins
    have hsplit := List.takeWhile_append_dropWhile (p := isBlankLine) (l := (ls.dropWhile isBlankLine).reverse)
    have hne : (ls.dropWhile isBlankLine).reverse.dropWhile isBlankLine ≠ [] := by
      intro hnil
      rw [hnil] at hl
      cases hl
    refine hstart ls l ?_
    rw [List.head?_reverse] at hl
    rw [← List.getLast?_reverse, ← hsplit, List.getLast?_append_of_ne_nil _ hne]
    exact hl
  · rw [List.getLast?_reverse] at hl
    exact hstart _ l hl

/-- A line that is read as it was: it is empty, or its indentation was no part of the margin. -/
theorem relined_eq_self {m : Nat} (h : relined m line = line) :
    line.getLast? ≠ some '\r' ∧ (isBlankLine line = true → line = []) ∧ (isBlankLine line = false → m = 0) := by
  unfold relined at h
  split at h
  · subst h
    exact ⟨nofun, fun _ => rfl, fun hb => by cases hb⟩
  · rename_i hb
    have hle := (dropSize_sublist m (dropReturn line)).length_le
    rw [h] at hle
    have hdrop : dropReturn line = line := (dropReturn_sublist line).eq_of_length_le hle
    rw [hdrop] at h
    refine ⟨fun hreturn => ?_, fun hblank => absurd hblank hb, fun _ => ?_⟩
    · rw [dropReturn, if_pos hreturn] at hdrop
      obtain ⟨x, rfl⟩ := List.getLast?_eq_some_iff.1 hreturn
      simp at hdrop
    · cases line with
      | nil => exact absurd rfl hb
      | cons c cs =>
        by_contra hm
        rw [dropSize, if_neg hm] at h
        have hle := (dropSize_sublist (m - c.utf8Size) cs).length_le
        rw [h, List.length_cons] at hle
        omega

/-- A line that is flush with the margin at nothing. -/
theorem isFlush_of_indent? (h : indent? line = some 0) : isFlush line = true := by
  unfold indent? at h
  split at h
  · cases h
  · rename_i hb
    cases line with
    | nil => exact absurd rfl hb
    | cons c cs =>
      have hpos := c.utf8Size_pos
      cases hc : isBlank c with
      | true =>
        rw [List.takeWhile_cons_of_pos hc, size, Option.some.injEq] at h
        omega
      | false => simp [isFlush, hc]

/-- The lines of a string that comes back are those that are left of them. -/
theorem pieces_of_reblocked {s : String} (hne : s ≠ "") (h : reblocked s = s) : pieces s.toList = relines (lines s.toList) := by
  have hunlines := congrArg String.toList h
  rw [reblocked, String.toList_ofList] at hunlines
  rw [← hunlines, pieces_unlines _ fun l hl => notMem_relines hl, hunlines]
  intro hnil
  rw [hnil] at hunlines
  exact hne (String.toList_inj.1 hunlines.symm)

/-- If what is left of the lines are all pieces of the text, each line is left as it was, and none ended in a carriage return. -/
theorem lines_of_relines {cs : List Char} (h : pieces cs = relines (lines cs)) :
    lines cs = pieces cs ∧ ∀ line ∈ pieces cs, relined ((margin? (lines cs)).getD 0) line = line := by
  generalize hm : (margin? (lines cs)).getD 0 = m
  obtain ⟨qs, last, hp⟩ := (List.eq_nil_or_concat _).resolve_left (pieces_ne_nil cs)
  rw [List.concat_eq_append] at hp
  have hlines : lines cs = qs.map dropReturn ++ lastLine last := Text.lines_eq hp
  have hall : qs ++ [last] = (lines cs).map (relined m) := by
    have hlength : (lines cs).length ≤ (relines (lines cs)).length := by
      rw [← h, hp, hlines]
      unfold lastLine
      split <;> simp
    rw [← hp, h, ← hm]
    exact (dropBlankEnds_sublist _).eq_of_length_le (by rwa [List.length_map])
  have hlast : last ≠ [] := by
    rintro rfl
    have hcount := congrArg List.length hall
    rw [hlines, lastLine, if_pos rfl] at hcount
    simp at hcount
  rw [lastLine, if_neg hlast] at hlines
  rw [hlines, List.map_append, List.map_map] at hall
  obtain ⟨hfront, hback⟩ := List.append_inj' hall rfl
  have hself : ∀ line ∈ pieces cs, relined m line = line := by
    rw [hp]
    refine List.forall_mem_append.2 ⟨fun q hq => ?_, List.forall_mem_singleton.2 (List.cons.inj hback).1.symm⟩
    have hq' : relined m (dropReturn q) = q := List.map_inj_left.1 (hfront.symm.trans (List.map_id qs).symm) q hq
    have hle := (relined_sublist m (dropReturn q)).length_le
    rw [hq'] at hle
    rwa [(dropReturn_sublist q).eq_of_length_le hle] at hq'
  refine ⟨?_, hself⟩
  rw [hlines, map_dropReturn fun q hq => (relined_eq_self (hself q (hp ▸ List.mem_append_left _ hq))).1, hp]

/-- If no line is changed, there is no margin to take away. -/
theorem exists_isFlush_of_relined (hself : ∀ line ∈ ls, relined ((margin? ls).getD 0) line = line) (hl : line ∈ ls)
    (hb : isBlankLine line = false) : ∃ line ∈ ls, isFlush line = true := by
  have hzero := (relined_eq_self (hself line hl)).2.2 hb
  cases hmargin : margin? ls with
  | none =>
    have hblank := isBlankLine_of_margin? hmargin hl
    rw [hb] at hblank
    cases hblank
  | some k =>
    rw [hmargin, Option.getD_some] at hzero
    rw [hzero, margin?, List.min?_eq_some_iff] at hmargin
    obtain ⟨flush, hf, hindent⟩ := List.mem_filterMap.1 hmargin.1
    exact ⟨flush, hf, isFlush_of_indent? hindent⟩

theorem square_of_reblocked {s : String} (hne : s ≠ "") (h : reblocked s = s) : Square s := by
  have hkept := pieces_of_reblocked hne h
  obtain ⟨hlines, hself⟩ := lines_of_relines hkept
  have hends := ends_dropBlankEnds ((lines s.toList).map (relined ((margin? (lines s.toList)).getD 0)))
  rw [← relines, ← hkept] at hends
  have hlast := hends.2 _ (List.getLast?_eq_some_getLast (pieces_ne_nil s.toList))
  rw [hlines] at hself
  have hflush := exists_isFlush_of_relined hself (List.getLast_mem (pieces_ne_nil s.toList)) hlast
  have hline := fun line hl => relined_eq_self (hself line hl)
  exact ⟨⟨hends.1, hends.2, hflush, fun line hl => (hline line hl).1⟩, fun line hl => (hline line hl).2.1⟩

theorem reblocked_of_square {s : String} (h : Square s) : reblocked s = s := by
  have hmargin : margin? (pieces s.toList) = some 0 := by
    have hzero := @margin?_indented [] (by simp) (pieces s.toList) [] h.flush (by simp)
    simpa [size] using hzero
  have hself : (pieces s.toList).map (relined 0) = pieces s.toList := by
    refine (List.map_congr_left fun line hl => ?_).trans (List.map_id _)
    rw [relined]
    split
    · rename_i hb
      exact (h.blank line hl hb).symm
    · rw [dropSize_zero, dropReturn_eq_self (h.noReturn line hl)]
      rfl
  have hends : dropBlankEnds (pieces s.toList) = pieces s.toList := by
    have hall := @dropBlankEnds_append [] (pieces s.toList) [] (by simp) (by simp) (pieces_ne_nil s.toList) h.first h.last
    rwa [List.nil_append, List.append_nil] at hall
  rw [reblocked, h.toFlush.lines, relines, hmargin, Option.getD_some, hself, hends, Text.unlines_pieces, String.ofList_toList]

/-- A string comes back from a printed block just if it had nothing to lose there. -/
theorem reblocked_eq_iff {s : String} (hne : s ≠ "") : reblocked s = s ↔ Square s :=
  ⟨square_of_reblocked hne, reblocked_of_square⟩

end GraphqlCodegen.Sdl.BlockString
