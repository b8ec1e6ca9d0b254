/-!
# Lines of a text

A line ends at a line feed, or at a carriage return followed by one. `pieces` cuts at every line
feed; `lines` gives the lines proper, without the ends and without the empty piece behind the last
line feed.
-/

namespace GraphqlCodegen.Text

/-- The pieces between line feeds, one more than there are line feeds. -/
def pieces : List Char → List (List Char)
  | [] => [[]]
  | c :: cs =>
    if c = '\n' then [] :: pieces cs
    else match pieces cs with
      | [] => [[c]]
      | p :: ps => (c :: p) :: ps

/-- A line without the carriage return in front of its line feed. -/
def dropReturn (line : List Char) : List Char :=
  if line.getLast? = some '\r' then line.dropLast else line

/-- The lines of a text. -/
def lines (cs : List Char) : List (List Char) :=
  let ps := pieces cs
  let ended := ps.dropLast.map dropReturn
  match ps.getLast? with
  | none | some [] => ended
  | some last => ended ++ [last]

/-- Lines put together again, a line feed between each two. -/
def unlines : List (List Char) → List Char
  | [] => []
  | [l] => l
  | l :: ls => l ++ '\n' :: unlines ls

/-- Strings one after the other, `sep` between each two. -/
def joined (sep : String) : List String → String
  | [] => ""
  | [s] => s
  | s :: ss => s ++ sep ++ joined sep ss

/-- Strings one after the other. -/
def concat : List String → String
  | [] => ""
  | s :: ss => s ++ concat ss

theorem pieces_ne_nil (cs : List Char) : pieces cs ≠ [] := by
  cases cs with
  | nil => simp [pieces]
  | cons c cs =>
    by_cases h : c = '\n'
    · simp [pieces, h]
    · cases hp : pieces cs <;> simp [pieces, h, hp]

theorem unlines_cons_head (c : Char) (p : List Char) (ps : List (List Char)) :
    unlines ((c :: p) :: ps) = c :: unlines (p :: ps) := by
  cases ps <;> rfl

/-- The pieces, put together, are the text. -/
theorem unlines_pieces (cs : List Char) : unlines (pieces cs) = cs := by
  induction cs with
  | nil => rfl
  | cons c cs ih =>
    obtain ⟨p, ps, hp⟩ := List.exists_cons_of_ne_nil (pieces_ne_nil cs)
    rw [hp] at ih
    by_cases h : c = '\n'
    · subst h
      show unlines ([] :: pieces cs) = _
      rw [hp]
      show [] ++ '\n' :: unlines (p :: ps) = _
      rw [ih]; rfl
    · rw [pieces, if_neg h, hp]
      exact (unlines_cons_head c p ps).trans (by rw [ih])

end GraphqlCodegen.Text
