import GraphqlCodegen.Text.Lines

/-!
# Texts cut into lines

Lines that are written one below the other are the pieces of what is written, and what follows them is cut on its own
(`pieces_flatMap`). The lines are the pieces, but for what stands behind the last line feed (`lines_eq`).
-/

namespace GraphqlCodegen.Text

/-- The piece ends at the line feed behind it. -/
theorem pieces_append {l : List Char} (hl : '\n' ∉ l) (cs : List Char) : pieces (l ++ '\n' :: cs) = l :: pieces cs := by
  induction l with
  | nil => simp [pieces]
  | cons c l ih =>
    obtain ⟨hc, hl⟩ := not_or.1 (mt List.mem_cons.2 hl)
    rw [List.cons_append, pieces, if_neg (Ne.symm hc), ih hl]

theorem pieces_of_notMem {l : List Char} (hl : '\n' ∉ l) : pieces l = [l] := by
  induction l with
  | nil => rfl
  | cons c l ih =>
    obtain ⟨hc, hl⟩ := not_or.1 (mt List.mem_cons.2 hl)
    rw [pieces, if_neg (Ne.symm hc), ih hl]

theorem notMem_pieces {cs p : List Char} (h : p ∈ pieces cs) : '\n' ∉ p := by
  induction cs generalizing p with
  | nil => rw [pieces, List.mem_singleton] at h; simp [h]
  | cons c cs ih =>
    obtain ⟨q, qs, hq⟩ := List.exists_cons_of_ne_nil (pieces_ne_nil cs)
    rw [pieces, hq] at h
    rw [hq] at ih
    split at h
    · rcases List.mem_cons.1 h with rfl | h
      · simp
      · exact ih h
    · rename_i hc
      rcases List.mem_cons.1 h with rfl | h
      · simp [Ne.symm hc, ih List.mem_cons_self]
      · exact ih (List.mem_cons_of_mem _ h)

/-- The pieces of lines that are written one below the other, and of what follows them. -/
theorem pieces_flatMap {ls : List (List Char)} (h : ∀ l ∈ ls, '\n' ∉ l) (cs : List Char) :
    pieces (ls.flatMap (fun l => l ++ ['\n']) ++ cs) = ls ++ pieces cs := by
  induction ls with
  | nil => rfl
  | cons l ls ih =>
    rw [List.flatMap_cons, List.append_assoc, List.append_assoc, List.singleton_append,
      pieces_append (h l List.mem_cons_self), ih fun m hm => h m (List.mem_cons_of_mem _ hm), List.cons_append]

/-- What stands behind the last line feed is a line unless it is empty. -/
def lastLine (last : List Char) : List (List Char) := if last = [] then [] else [last]

theorem mem_lastLine {last l : List Char} : l ∈ lastLine last ↔ last ≠ [] ∧ l = last := by
  unfold lastLine
  split <;> simp_all

theorem lines_eq {cs last : List Char} {ps : List (List Char)} (h : pieces cs = ps ++ [last]) :
    lines cs = ps.map dropReturn ++ lastLine last := by
  simp only [lines, h, List.getLast?_concat, List.dropLast_concat]
  cases last <;> simp [lastLine]

end GraphqlCodegen.Text
