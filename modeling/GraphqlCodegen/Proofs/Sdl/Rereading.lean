import GraphqlCodegen.Proofs.Sdl.Reblocking
import GraphqlCodegen.Proofs.Sdl.Requoting
import GraphqlCodegen.Proofs.Sdl.Soundness

/-!
# Printed values read again

A constant is printed as a text that is read as a constant again, unless a floating-point number is in it (`constant?_text`).
What comes back is built as what was printed, and only the strings in it may be others (`reread`): it is the same value just if
each of its strings lasts (`reread_eq_iff`).
-/

namespace GraphqlCodegen.Sdl

open Lexer (Lexes Nests Writes commas_writes readToken_append)

namespace Value

/-! ## Strings -/

/-- The string that is read where one was printed. -/
def respelled (s : String) : String := if isBlock s.toList then BlockString.reblocked s else requoted s

/-- A string that comes back: the lines of a block have nothing to lose, and between quotes every character stands for itself, is
written by a letter, or has a code of one digit. -/
def Lasting (s : String) : Prop :=
  if isBlock s.toList then BlockString.Square s else ∀ c ∈ s.toList, isSpelled c = true ∨ c.toNat < 10

theorem respelled_eq_iff (s : String) : respelled s = s ↔ Lasting s := by
  unfold respelled Lasting
  split
  · rename_i hblock
    refine BlockString.reblocked_eq_iff ?_
    rintro rfl
    exact absurd hblock (by decide)
  · exact requoted_eq_iff s

theorem readToken_stringText (s : String) :
    Lexer.readToken (stringText s.toList) = some (.string (respelled s), stringText s.toList, []) := by
  unfold stringText respelled
  split
  · have hbody := (BlockString.passes_printedBody s.toList).body []
    change Lexer.readString ('"' :: '"' :: '"' :: (BlockString.printedBody s.toList ++ ['"', '"', '"'])) = _
    simp only [Lexer.readString, hbody, Option.bind_eq_bind, Option.bind_some, BlockString.value_printed]
    rfl
  · exact readToken_quoted s

theorem writes_stringText (s : String) : Writes (String.ofList (stringText s.toList)) [.string (respelled s)] := by
  intro rest us hb hu
  rw [String.toList_ofList]
  exact .token (readToken_append hb (readToken_stringText s)) hu

/-! ## Values inside values -/

mutual

/-- All values inside a value, the value itself first. -/
def parts : Value → List Value
  | .list items => .list items :: partsOfItems items
  | .object entries => .object entries :: partsOfEntries entries
  | v => [v]

def partsOfItems : List Value → List Value
  | [] => []
  | v :: vs => v.parts ++ partsOfItems vs

def partsOfEntries : List (String × Value) → List Value
  | [] => []
  | (_, v) :: es => v.parts ++ partsOfEntries es

end

variable {room : Nat} {v : Value} {vs : List Value} {es : List (String × Value)}

theorem mem_partsOfItems {p : Value} : p ∈ partsOfItems vs ↔ ∃ v ∈ vs, p ∈ v.parts := by
  induction vs with
  | nil => simp [partsOfItems]
  | cons v vs ih => simp [partsOfItems, ih]

theorem mem_partsOfEntries {p : Value} : p ∈ partsOfEntries es ↔ ∃ e ∈ es, p ∈ e.2.parts := by
  induction es with
  | nil => simp [partsOfEntries]
  | cons e es ih => simp [partsOfEntries, ih]

/-- No floating-point number is in the value. -/
def FloatFree (v : Value) : Prop := ∀ x, .float x ∉ v.parts

theorem FloatFree.item (h : FloatFree (.list vs)) (hv : v ∈ vs) : v.FloatFree := fun x hx =>
  h x (List.mem_cons_of_mem _ (mem_partsOfItems.2 ⟨v, hv, hx⟩))

theorem FloatFree.entry (h : FloatFree (.object es)) {e : String × Value} (he : e ∈ es) : e.2.FloatFree := fun x hx =>
  h x (List.mem_cons_of_mem _ (mem_partsOfEntries.2 ⟨e, he, hx⟩))

mutual

/-- The value that is read where one was printed. -/
def reread : Value → Value
  | .string s => .string (respelled s)
  | .list items => .list (rereadItems items)
  | .object entries => .object (rereadEntries entries)
  | v => v

def rereadItems : List Value → List Value
  | [] => []
  | v :: vs => v.reread :: rereadItems vs

def rereadEntries : List (String × Value) → List (String × Value)
  | [] => []
  | (key, v) :: es => (key, v.reread) :: rereadEntries es

end

theorem rereadItems_eq (vs : List Value) : rereadItems vs = vs.map reread := by
  induction vs with
  | nil => rfl
  | cons v vs ih => rw [rereadItems, ih, List.map_cons]

theorem rereadEntries_eq (es : List (String × Value)) : rereadEntries es = es.map fun e => (e.1, e.2.reread) := by
  induction es with
  | nil => rfl
  | cons e es ih => rw [rereadEntries, ih, List.map_cons]

theorem map_eq_self_iff {α : Type} {f : α → α} {xs : List α} : xs.map f = xs ↔ ∀ x ∈ xs, f x = x := by
  simpa using @List.map_inj_left _ _ xs f id

/-- A value is read again just if all strings in it last. -/
theorem reread_eq_iff (h : v.Sound room) : v.reread = v ↔ ∀ s, .string s ∈ v.parts → Lasting s := by
  induction h with
  | int _ | float _ | boolean _ | null | enum _ _ => simp [reread, parts]
  | string s => simp [reread, parts, respelled_eq_iff]
  | @list _ vs _ ih =>
    have heach : rereadItems vs = vs ↔ ∀ v ∈ vs, ∀ s, .string s ∈ v.parts → Lasting s := by
      rw [rereadItems_eq, map_eq_self_iff]
      exact forall₂_congr ih
    simp only [reread, parts, list.injEq, heach, List.mem_cons, reduceCtorEq, false_or, mem_partsOfItems]
    exact ⟨fun h s ⟨v, hv, hs⟩ => h v hv s hs, fun h v hv s hs => h s ⟨v, hv, hs⟩⟩
  | @object _ es _ _ _ ih =>
    have heach : rereadEntries es = es ↔ ∀ e ∈ es, ∀ s, .string s ∈ e.2.parts → Lasting s := by
      rw [rereadEntries_eq, map_eq_self_iff]
      exact forall₂_congr fun e he => by rw [← ih e he, Prod.ext_iff, eq_self, true_and]
    simp only [reread, parts, object.injEq, heach, List.mem_cons, reduceCtorEq, false_or, mem_partsOfEntries]
    exact ⟨fun h s ⟨e, he, hs⟩ => h e he s hs, fun h e he s hs => h s ⟨e, he, hs⟩⟩

/-! ## Tokens -/

mutual

/-- The tokens of the text of a value that holds no floating-point number. -/
def tokens : Value → List Token
  | .variable name => [.mark '$', .name name]
  | .int i => [.int i]
  | .float x => [.float x]
  | .string s => [.string (respelled s)]
  | .boolean b => [.name (if b then "true" else "false")]
  | .null => [.name "null"]
  | .enum name => [.name name]
  | .list items => .mark '[' :: (itemTokens items ++ [.mark ']'])
  | .object entries => .mark '\x7b' :: (entryTokens entries ++ [.mark '\x7d'])

def itemTokens : List Value → List Token
  | [] => []
  | v :: vs => v.tokens ++ itemTokens vs

def entryTokens : List (String × Value) → List Token
  | [] => []
  | (key, v) :: es => .name key :: .mark ':' :: (v.tokens ++ entryTokens es)

end

theorem itemTokens_eq (vs : List Value) : itemTokens vs = vs.flatMap tokens := by
  induction vs with
  | nil => rfl
  | cons v vs ih => rw [itemTokens, ih, List.flatMap_cons]

theorem entryTokens_eq (es : List (String × Value)) :
    entryTokens es = es.flatMap fun e => .name e.1 :: .mark ':' :: e.2.tokens := by
  induction es with
  | nil => rfl
  | cons e es ih => rw [entryTokens, ih, List.flatMap_cons]; rfl

theorem itemTexts_eq (vs : List Value) : itemTexts vs = vs.map text := by
  induction vs with
  | nil => rfl
  | cons v vs ih => rw [itemTexts, ih, List.map_cons]

theorem entryTexts_eq (es : List (String × Value)) : entryTexts es = es.map fun e => e.1 ++ ": " ++ e.2.text := by
  induction es with
  | nil => rfl
  | cons e es ih => rw [entryTexts, ih, List.map_cons]

/-! ## Reading what was printed -/

/-- The text of the value is made up of its tokens, which leave room for the brackets around them, and from which the value is
read again. -/
structure Prints (room : Nat) (v : Value) : Prop where
  writes : Writes v.text v.tokens
  nests : Nests room v.tokens
  begins : ∃ t ts, v.tokens = t :: ts ∧ t ≠ .mark ']'
  reads : ReadsLocally (value true) v.tokens v.reread

theorem Prints.of_name {n : String} (hn : Lexer.isNameText n = true) (htext : v.text = n) (htokens : v.tokens = [.name n])
    (hv : v.reread = if n = "true" then .boolean true else if n = "false" then .boolean false else if n = "null" then .null
      else .enum n) : Prints room v where
  writes := by rw [htext, htokens]; exact Writes.name hn
  nests := by rw [htokens]; exact Nests.nil.cons rfl
  begins := ⟨_, _, htokens, nofun⟩
  reads := by rw [htokens, hv]; exact ReadsLocally.word n

theorem reads_items (h : ∀ v ∈ vs, Prints room v) :
    ReadsLocally (items true) (vs.flatMap tokens ++ [.mark ']']) (vs.map reread) := by
  induction vs with
  | nil => exact ReadsLocally.items_nil
  | cons v vs ih =>
    obtain ⟨hv, hvs⟩ := List.forall_mem_cons.1 h
    obtain ⟨t, ts, htokens, ht⟩ := hv.begins
    rw [List.flatMap_cons, List.append_assoc]
    exact ReadsLocally.items_cons (by simp [htokens]) (by simpa [htokens] using ht) (by simp) hv.reads (ih hvs)

theorem reads_entries (h : ∀ e ∈ es, Prints room e.2) : ReadsLocally (entries true)
    (es.flatMap (fun e => .name e.1 :: .mark ':' :: e.2.tokens) ++ [.mark '\x7d']) (es.map fun e => (e.1, e.2.reread)) := by
  induction es with
  | nil => exact ReadsLocally.entries_nil
  | cons e es ih =>
    obtain ⟨he, hes⟩ := List.forall_mem_cons.1 h
    rw [List.flatMap_cons, List.append_assoc]
    exact ReadsLocally.entries_cons (by simp) he.reads (ih hes)

theorem Prints.list (h : ∀ v ∈ vs, Prints room v) : Prints (room + 1) (.list vs) where
  writes := by
    rw [text, tokens, itemTexts_eq, itemTokens_eq]
    exact Writes.bracket rfl rfl (commas_writes fun v hv => (h v hv).writes)
  nests := by
    rw [tokens, itemTokens_eq]
    exact (Nests.flatMap fun v hv => (h v hv).nests).bracket rfl rfl
  begins := ⟨_, _, rfl, by simp⟩
  reads := by
    rw [tokens, itemTokens_eq, reread, rereadItems_eq]
    exact ReadsLocally.list (reads_items h)

theorem Prints.object (ho : Entries.Ordered es) (hkeys : ∀ e ∈ es, Lexer.isNameText e.1 = true) (h : ∀ e ∈ es, Prints room e.2) :
    Prints (room + 1) (.object es) where
  writes := by
    rw [text, tokens, entryTexts_eq, entryTokens_eq]
    refine Writes.bracket rfl rfl (commas_writes fun e he rest us hb hu => ?_)
    have hvalue := Lexes.mark (c := ':') rfl (.blank (c := ' ') rfl ((h e he).writes hb hu))
    simpa using Lexes.name (hkeys e he) rfl hvalue
  nests := by
    rw [tokens, entryTokens_eq]
    exact (Nests.flatMap fun e he => ((h e he).nests.cons rfl).cons rfl).bracket rfl rfl
  begins := ⟨_, _, rfl, by simp⟩
  reads := by
    have hordered : Entries.Ordered (es.map fun e => (e.1, e.2.reread)) := List.pairwise_map.2 ho
    have hlist : Entries.ofList (es.map fun e => (e.1, e.2.reread)) = es.map fun e => (e.1, e.2.reread) :=
      (Entries.ordered_ofList _).ext hordered fun _ => Entries.mem_ofList_of_nodup hordered.nodup_keys
    have hread := @ReadsLocally.object _ _ (reads_entries h)
    rw [hlist] at hread
    rwa [tokens, entryTokens_eq, reread, rereadEntries_eq]

/-- A constant without floating-point numbers is read again from what was printed of it. -/
theorem Sound.prints (h : v.Sound room) (hf : v.FloatFree) : Prints room v := by
  induction h with
  | int hi =>
    refine ⟨fun rest us hb hu => ?_, Nests.nil.cons rfl, ⟨_, _, rfl, nofun⟩, ReadsLocally.int _⟩
    rw [text, String.toList_ofList]
    exact Lexes.integer hi hb hu
  | float x => exact absurd List.mem_cons_self (hf x)
  | string s => exact ⟨writes_stringText s, Nests.nil.cons rfl, ⟨_, _, rfl, nofun⟩, ReadsLocally.string _⟩
  | boolean b => cases b <;> exact .of_name rfl rfl rfl rfl
  | null => exact .of_name rfl rfl rfl rfl
  | enum hn hw =>
    refine .of_name hn rfl rfl ?_
    simp only [List.mem_cons, List.not_mem_nil, or_false, not_or] at hw
    rw [if_neg hw.1, if_neg hw.2.1, if_neg hw.2.2]
    rfl
  | list _ ih => exact .list fun v hv => ih v hv (hf.item hv)
  | object ho hk _ ih => exact .object ho hk fun e he => ih e he (hf.entry he)

/-- The text of a constant is a constant. -/
theorem constant?_text (h : v.Sound nestingLimit) (hf : v.FloatFree) : constant? v.text = some v.reread := by
  have hprints := h.prints hf
  have hwrites := hprints.writes
  have hlexes : Lexes v.text.toList v.tokens := by simpa using @hwrites [] _ rfl .nil
  have hspells := Tokens.ofText_spells hlexes hprints.nests.le
  have hreads := @ReadsLocally.reads _ _ _ _ hprints.reads (2 * v.tokens.length + 2) []
  rw [List.append_nil] at hreads
  obtain ⟨T, hrun, hT⟩ := hreads.run (by omega) _ hspells
  cases hT
  simp only [constant?, hspells.length, hrun]

end Value
end GraphqlCodegen.Sdl
