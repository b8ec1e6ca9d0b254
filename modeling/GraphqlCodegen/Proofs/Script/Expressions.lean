import GraphqlCodegen.Script.Emit
import Mathlib.Data.List.Basic

/-!
# Expressions read from their texts

Strings, nested objects and constant casts are read back from their text, with any text behind it (`Expr.IsConstant.readAt`): a
string ends at the first quote that no backslash hides, a bare key at the first character that no identifier has, an object where
a line begins with a brace. So one text is that of one expression, whatever its keys and strings are made of
(`Expr.IsConstant.eq_of_textAt`). The indentation says nothing that the braces do not say: texts of different levels may be
compared.
-/

namespace GraphqlCodegen.Script

/-- Strings, objects with such expressions, and such expressions under constant casts. -/
inductive Expr.IsConstant : Expr → Prop
  | string (value : String) : IsConstant (.string value)
  | object {entries : List (String × Expr)} (h : ∀ p ∈ entries, IsConstant p.2) : IsConstant (.object entries)
  | cast {e : Expr} (h : IsConstant e) : IsConstant (.cast e (.ref "const"))

/-! ## Reading -/

/-- A string up to the quote that ends it, and what stands behind this quote. A backslash hides the character behind it. -/
def readString : List Char → Option (List Char × List Char)
  | [] => none
  | '"' :: rest => some ([], rest)
  | '\\' :: c :: cs => (readString cs).map fun (value, rest) => (c :: value, rest)
  | c :: cs => (readString cs).map fun (value, rest) => (c :: value, rest)

/-- A key in quotes or without. -/
def readKey : List Char → Option (String × List Char)
  | '"' :: cs => (readString cs).map fun (value, rest) => (String.ofList value, rest)
  | cs => some (String.ofList (cs.takeWhile isKeyChar), cs.dropWhile isKeyChar)

/-- The expression under all constant casts that follow. -/
def readCasts (e : Expr) : List Char → Expr × List Char
  | ' ' :: 'a' :: 's' :: ' ' :: 'c' :: 'o' :: 'n' :: 's' :: 't' :: rest => readCasts (.cast e (.ref "const")) rest
  | rest => (e, rest)

mutual

/-- An expression, and what stands behind it. Every level and every entry takes one of the steps that are given. -/
def readExpr : Nat → List Char → Option (Expr × List Char)
  | 0, _ => none
  | n + 1, cs =>
    match cs with
    | '"' :: cs => (readString cs).map fun (value, rest) => readCasts (.string (String.ofList value)) rest
    | '{' :: '}' :: rest => some (readCasts (.object []) rest)
    | '{' :: '\n' :: cs => (readEntries n cs).map fun (entries, rest) => readCasts (.object entries) rest
    | _ => none

/-- The entries of an object up to the brace that ends it. -/
def readEntries : Nat → List Char → Option (List (String × Expr) × List Char)
  | 0, _ => none
  | n + 1, cs =>
    match cs.dropWhile (· = ' ') with
    | '}' :: rest => some ([], rest)
    | cs => do
      let (key, rest) ← readKey cs
      let rest ← rest.dropPrefix? ": ".toList
      let (e, rest) ← readExpr n rest
      let rest ← rest.dropPrefix? ",\n".toList
      let (entries, rest) ← readEntries n rest
      return ((key, e) :: entries, rest)

end

@[simp] theorem dropPrefix?_toList (s : String) (cs : List Char) : (s.toList ++ cs).dropPrefix? s.toList = some cs :=
  List.dropPrefix?_append_of_beq cs BEq.rfl

/-! ## What is written is read -/

theorem readString_escapeChar (c : Char) (cs : List Char) :
    readString (escapeChar c ++ cs) = (readString cs).map fun (value, rest) => (c :: value, rest) := by
  unfold escapeChar
  split
  · rename_i h
    subst h
    rfl
  · rename_i hbackslash
    split
    · rename_i h
      subst h
      rfl
    · rename_i hquote
      rw [List.singleton_append, readString.eq_4 c cs hquote fun _ _ h _ => hbackslash h]

theorem readString_escape (cs rest : List Char) : readString (cs.flatMap escapeChar ++ '"' :: rest) = some (cs, rest) := by
  induction cs with
  | nil => rfl
  | cons c cs ih =>
    rw [List.flatMap_cons, List.append_assoc, readString_escapeChar, ih]
    rfl

/-! ### Keys -/

/-- A key stands in quotes, or is a word that stands bare. -/
theorem keyText_cases (key : String) : keyText key = quoted key ∨
    keyText key = key ∧ ∃ c cs, key.toList = c :: cs ∧ isKeyStart c = true ∧ ∀ x ∈ c :: cs, isKeyChar x = true := by
  unfold keyText
  split
  · exact .inl rfl
  · rename_i h
    unfold needsQuotes at h
    cases hkey : key.toList with
    | nil => simp [hkey] at h
    | cons c cs => exact .inr ⟨rfl, c, cs, rfl, by simp_all, by simp_all⟩

/-- A bare key begins with what neither opens a string nor ends an object. -/
theorem not_opens_of_bare {c : Char} (h : isKeyStart c = true) : c ≠ '"' ∧ c ≠ ' ' ∧ c ≠ '\x7d' := by
  refine ⟨?_, ?_, ?_⟩ <;> rintro rfl <;> simp [isKeyStart] at h

/-- Every key, with its quotes if there are any, begins with what is neither a space nor the end of an object. -/
theorem keyText_head (key : String) : ∃ c cs, (keyText key).toList = c :: cs ∧ c ≠ ' ' ∧ c ≠ '\x7d' := by
  rcases keyText_cases key with hquoted | ⟨hbare, c, cs, hkey, hstart, -⟩
  · exact ⟨_, _, by simpa [hquoted] using toList_quoted key [], by decide, by decide⟩
  · exact ⟨c, cs, by rw [hbare, hkey], (not_opens_of_bare hstart).2⟩

theorem readKey_keyText (key : String) (rest : List Char) :
    readKey ((keyText key).toList ++ ':' :: rest) = some (key, ':' :: rest) := by
  rcases keyText_cases key with hquoted | ⟨hbare, c, cs, hkey, hstart, hchars⟩
  · rw [hquoted, toList_quoted, readKey, readString_escape]
    simp
  · have hstop : isKeyChar ':' = false := by decide
    rw [hbare, hkey, List.cons_append, readKey.eq_2 _ fun _ h => (not_opens_of_bare hstart).1 (List.cons.inj h).1,
      ← List.cons_append, List.takeWhile_append_of_pos hchars, List.dropWhile_append_of_pos hchars]
    simp [hstop, ← hkey]

/-! ### Entries -/

theorem toList_entryTexts (level : Nat) (key : String) (e : Expr) (es : List (String × Expr)) :
    (Text.concat (Expr.entryTexts level ((key, e) :: es))).toList =
      (indentation level).toList ++ ((keyText key).toList ++ (": ".toList ++ ((e.textAt level).toList ++
        (",\n".toList ++ (Text.concat (Expr.entryTexts level es)).toList)))) := by
  simp [Expr.entryTexts, Text.concat]

/-- Spaces in front of an entry, or of the end of an object, are passed over. -/
theorem dropWhile_indentation (level : Nat) {c : Char} (hc : c ≠ ' ') (cs : List Char) :
    ((indentation level).toList ++ c :: cs).dropWhile (· = ' ') = c :: cs := by
  rw [indentation, String.toList_ofList, List.dropWhile_append_of_pos (by simp)]
  simp [hc]

/-- The expression is read from its text at a level, with the casts that stand behind it. -/
def Expr.ReadAt (e : Expr) (level : Nat) : Prop :=
  ∀ (n : Nat) (rest : List Char), (e.textAt level).toList.length < n →
    readExpr n ((e.textAt level).toList ++ rest) = some (readCasts e rest)

theorem readEntries_entry {e : Expr} {level n : Nat} (hread : e.ReadAt level) (hn : (e.textAt level).toList.length < n)
    (key : String) (rest : List Char) :
    readEntries (n + 1) ((indentation level).toList ++ ((keyText key).toList ++ (": ".toList ++
      ((e.textAt level).toList ++ (",\n".toList ++ rest))))) =
      (readEntries n rest).map fun (es, rest) => ((key, e) :: es, rest) := by
  obtain ⟨c, cs, hhead, hspace, hbrace⟩ := keyText_head key
  have hspaces := fun rest => dropWhile_indentation level hspace (cs ++ rest)
  have hkey : ∀ cs, readKey ((keyText key).toList ++ (": ".toList ++ cs)) = some (key, ": ".toList ++ cs) :=
    fun cs => readKey_keyText key (' ' :: cs)
  have hvalue : readExpr n ((e.textAt level).toList ++ (",\n".toList ++ rest)) = some (e, ",\n".toList ++ rest) := hread n _ hn
  rw [hhead] at hkey ⊢
  simp only [List.cons_append] at hkey ⊢
  rw [readEntries.eq_2, hspaces]
  split
  · rename_i h
    exact absurd (List.cons.inj h).1 hbrace
  · simp only [hkey, dropPrefix?_toList, hvalue, Option.bind_eq_bind, Option.bind_some]
    cases readEntries n rest with
    | none => rfl
    | some r => rfl

theorem readEntries_entryTexts (level outer : Nat) (rest : List Char) : ∀ {es : List (String × Expr)} {n : Nat},
    (∀ p ∈ es, p.2.ReadAt level) → (Text.concat (Expr.entryTexts level es)).toList.length < n →
    readEntries n ((Text.concat (Expr.entryTexts level es)).toList ++ ((indentation outer).toList ++ '\x7d' :: rest)) =
      some (es, rest)
  | _, 0, _, hn => absurd hn (by simp)
  | [], n + 1, _, _ => by
    have hspaces := dropWhile_indentation outer (c := '\x7d') (by decide) rest
    simp only [Expr.entryTexts, Text.concat, String.toList_empty, List.nil_append, readEntries, hspaces]
  | (key, e) :: es, n + 1, hread, hn => by
    -- An entry takes one step, and its text has more characters than that around its expression.
    have he : e.ReadAt level := hread (key, e) List.mem_cons_self
    have hes : ∀ p ∈ es, p.2.ReadAt level := fun p hp => hread p (List.mem_cons_of_mem _ hp)
    rw [toList_entryTexts] at hn ⊢
    simp only [List.length_append] at hn
    have hcomma : ",\n".toList.length = 2 := rfl
    have ih := readEntries_entryTexts level outer rest (n := n) hes (by omega)
    simp only [List.append_assoc]
    rw [readEntries_entry he (by omega), ih]
    rfl

/-! ### Expressions -/

theorem toList_textAt_object (level : Nat) (e : String × Expr) (es : List (String × Expr)) :
    ((Expr.object (e :: es)).textAt level).toList = '\x7b' :: '\n' ::
      ((Text.concat (Expr.entryTexts (level + 1) (e :: es))).toList ++ ((indentation level).toList ++ ['\x7d'])) := by
  simp [Expr.textAt]

theorem toList_textAt_cast (level : Nat) (e : Expr) :
    ((Expr.cast e (.ref "const")).textAt level).toList = (e.textAt level).toList ++ " as const".toList := by
  simp [Expr.textAt, Ty.text]

/-- Strings, objects and constant casts are read from their text at every level. -/
theorem Expr.IsConstant.readAt {e : Expr} (h : e.IsConstant) : ∀ level, e.ReadAt level := by
  induction h with
  | string value =>
    rintro level (_ | n) rest hn
    · simp at hn
    · rw [Expr.textAt, toList_quoted, readExpr, readString_escape]
      simp
  | @object entries _ ih =>
    rintro level (_ | n) rest hn
    · simp at hn
    · cases entries with
      | nil =>
        have htext : ((Expr.object []).textAt level).toList = ['\x7b', '\x7d'] := by simp [Expr.textAt]
        rw [htext, List.cons_append, List.singleton_append, readExpr]
      | cons e es =>
        rw [toList_textAt_object] at hn ⊢
        have hentries := readEntries_entryTexts (level + 1) level rest (n := n) (fun p hp => ih p hp (level + 1))
          (by simp at hn; omega)
        simp only [List.cons_append, List.append_assoc, List.nil_append, readExpr, hentries]
        rfl
  | @cast e _ ih =>
    intro level n rest hn
    -- The inner expression is read with all that follows it, and the cast is the first of what follows.
    rw [toList_textAt_cast] at hn ⊢
    rw [List.append_assoc, ih level n _ (by simp at hn; omega)]
    rfl

/-- A text is that of one expression at most. -/
theorem Expr.IsConstant.eq_of_textAt {e e' : Expr} (h : e.IsConstant) (h' : e'.IsConstant) {level level' : Nat}
    (htext : e.textAt level = e'.textAt level') : e = e' := by
  have hread := h.readAt level _ [] (Nat.lt_succ_self _)
  have hread' := h'.readAt level' _ [] (Nat.lt_succ_self _)
  rw [htext, hread'] at hread
  exact (congrArg Prod.fst (Option.some.inj hread)).symm

end GraphqlCodegen.Script
