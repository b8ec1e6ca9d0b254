import GraphqlCodegen.Proofs.Sdl.Lexing
import GraphqlCodegen.Sdl.Parser

/-!
# How readers read

`Reads fuel r ts x rest` says that the reader `r` reads `x` off the tokens `ts` and leaves `rest`,
whatever the places of the tokens. The fuel that all readers of a document share is bounded from
below once, in the definition, by the number of tokens; reading only takes tokens away, so the bound
holds again for what is left, and one reader after the other is plain composition (`Reads.bind`).
-/

namespace GraphqlCodegen.Sdl

open GraphqlCodegen.Schema (TypeRef)

namespace Reader

variable {α β : Type} {fuel : Nat}

/-- The reader reads a result off the first tokens, given the fuel that their number asks for. -/
structure Reads (fuel : Nat) (r : Reader α) (ts : List Token) (x : α) (rest : List Token) : Prop where
  le : rest.length ≤ ts.length
  run : 2 * ts.length < fuel → ∀ T : Tokens, T.Spells ts → ∃ T', r T = .ok (x, T') ∧ T'.Spells rest

theorem Reads.bind {r : Reader α} {f : α → Reader β} {x : α} {y : β} {ts us vs : List Token}
    (h : Reads fuel r ts x us) (hf : Reads fuel (f x) us y vs) : Reads fuel (r >>= f) ts y vs := by
  refine ⟨Nat.le_trans hf.le h.le, fun hb T hT => ?_⟩
  obtain ⟨U, hU, hUs⟩ := h.run hb T hT
  obtain ⟨V, hV, hVs⟩ := hf.run (by have := h.le; omega) U hUs
  refine ⟨V, ?_, hVs⟩
  show (r T >>= fun p => f p.1 p.2) = _
  rw [hU]
  exact hV

theorem Reads.pure (x : α) (ts : List Token) : Reads fuel (Pure.pure x) ts x ts :=
  ⟨Nat.le_refl _, fun _ T hT => ⟨T, rfl, hT⟩⟩

/-- A reader may use the bound on the fuel. -/
theorem Reads.of_fuel {r : Reader α} {x : α} {ts rest : List Token} (hl : rest.length ≤ ts.length)
    (h : 2 * ts.length < fuel → Reads fuel r ts x rest) : Reads fuel r ts x rest :=
  ⟨hl, fun hb => (h hb).run hb⟩

/-! ## Single tokens -/

theorem Reads.peek (ts : List Token) : Reads fuel Reader.peek ts ts.head? ts :=
  ⟨Nat.le_refl _, fun _ T hT => ⟨T, by rw [Reader.peek, hT.head?], hT⟩⟩

/-- Only an error tells the place of a token. -/
theorem Reads.here {f : Position → Reader β} {y : β} {ts us : List Token} (h : ∀ p, Reads fuel (f p) ts y us) :
    Reads fuel (Reader.here >>= f) ts y us := by
  refine ⟨(h .start).le, fun hb T hT => ?_⟩
  obtain ⟨U, hU, hUs⟩ := (h T.place).run hb T hT
  exact ⟨U, hU, hUs⟩

theorem Reads.skip (t : Token) (ts : List Token) : Reads fuel Reader.skip (t :: ts) () ts := by
  refine ⟨by simp, fun _ T hT => ?_⟩
  cases hT with
  | cons h => exact ⟨_, rfl, h⟩

theorem Reads.expect (t : Token) (ts : List Token) : Reads fuel (Reader.expect t) (t :: ts) () ts := by
  refine (Reads.peek _).bind ?_
  simp only [List.head?_cons, if_true]
  exact .skip t ts

theorem Reads.accept (t : Token) (ts : List Token) : Reads fuel (Reader.accept t) (t :: ts) true ts := by
  refine (Reads.peek _).bind ?_
  simp only [List.head?_cons, if_true]
  exact (Reads.skip t ts).bind (.pure _ _)

theorem Reads.decline {t : Token} {ts : List Token} (h : ts.head? ≠ some t) :
    Reads fuel (Reader.accept t) ts false ts := by
  refine (Reads.peek _).bind ?_
  rw [if_neg h]
  exact .pure _ _

theorem Reads.name (n : String) (ts : List Token) : Reads fuel Reader.name (.name n :: ts) n ts := by
  refine (Reads.peek _).bind ?_
  exact (Reads.skip _ ts).bind (.pure _ _)

/-! ## Repetition -/

/-- The tokens are those of one item of a repetition. What may stand behind an item is said by `ok`,
and another item may always stand there. -/
structure IsItem (fuel : Nat) (begins : Token → Bool) (ok : List Token → Prop) (item : Reader α)
    (ts : List Token) (x : α) : Prop where
  first : ∃ t us, ts = t :: us ∧ begins t = true
  follows : ∀ more, ok (ts ++ more)
  reads : ∀ more, ok more → Reads fuel item (ts ++ more) x more

variable {γ : Type} {begins : Token → Bool} {ok : List Token → Prop} {item : Reader α}
  {tok : γ → List Token} {val : γ → α} {rest : List Token}

theorem IsItem.follow {xs : List γ} (hok : ok rest) (h : ∀ x ∈ xs, IsItem fuel begins ok item (tok x) (val x)) :
    ok (xs.flatMap tok ++ rest) := by
  cases xs with
  | nil => exact hok
  | cons x xs =>
    rw [List.flatMap_cons, List.append_assoc]
    exact (h x (by simp)).follows _

theorem length_le_flatMap {xs : List γ} (h : ∀ x ∈ xs, IsItem fuel begins ok item (tok x) (val x)) :
    xs.length ≤ (xs.flatMap tok).length := by
  induction xs with
  | nil => simp
  | cons x xs ih =>
    obtain ⟨t, us, ht, -⟩ := (h x (by simp)).first
    have := ih fun y hy => h y (by simp [hy])
    rw [List.flatMap_cons, List.length_append, ht, List.length_cons, List.length_cons]
    omega

theorem Reads.many_upto (hstop : ∀ t, rest.head? = some t → begins t = false) (hok : ok rest) :
    ∀ {xs : List γ} {n : Nat}, xs.length < n → (∀ x ∈ xs, IsItem fuel begins ok item (tok x) (val x)) →
      Reads fuel (Reader.many begins item n) (xs.flatMap tok ++ rest) (xs.map val) rest
  | xs, 0, hn, _ => by omega
  | [], n + 1, _, _ => by
    refine (Reads.peek _).bind ?_
    cases rest with
    | nil => exact .pure _ _
    | cons t rest =>
      simp only [List.flatMap_nil, List.nil_append, List.head?_cons, hstop t rfl, Bool.false_eq_true, if_false]
      exact .pure _ _
  | x :: xs, n + 1, hn, h => by
    have hx := h x (by simp)
    have hxs : ∀ y ∈ xs, IsItem fuel begins ok item (tok y) (val y) := fun y hy => h y (by simp [hy])
    obtain ⟨t, us, ht, hb⟩ := hx.first
    refine (Reads.peek _).bind ?_
    rw [List.flatMap_cons, List.append_assoc]
    have hhead : (tok x ++ (xs.flatMap tok ++ rest)).head? = some t := by rw [ht]; rfl
    simp only [hhead, hb, if_true]
    exact (hx.reads _ (IsItem.follow hok hxs)).bind ((Reads.many_upto hstop hok (by simp at hn; omega) hxs).bind (.pure _ _))

theorem Reads.many {xs : List γ} (hstop : ∀ t, rest.head? = some t → begins t = false) (hok : ok rest)
    (h : ∀ x ∈ xs, IsItem fuel begins ok item (tok x) (val x)) :
    Reads fuel (Reader.many begins item fuel) (xs.flatMap tok ++ rest) (xs.map val) rest := by
  have hlen := length_le_flatMap h
  refine Reads.of_fuel (by simp) fun hf => ?_
  rw [List.length_append] at hf
  exact Reads.many_upto hstop hok (by omega) h

theorem stops_mark {c : Char} (h : rest.head? ≠ some (.mark c)) :
    ∀ t, rest.head? = some t → decide (t = .mark c) = false := by
  intro t ht
  rw [decide_eq_false_iff_not]
  rintro rfl
  exact h ht

/-- The tokens of items between brackets; none if there are no items. -/
def bracketTokens (left right : Char) (tok : γ → List Token) : List γ → List Token
  | [] => []
  | x :: xs => .mark left :: ((x :: xs).flatMap tok ++ [.mark right])

theorem Reads.bracketed {left right : Char} {xs : List γ} (hr : begins (.mark right) = false)
    (hok : ok (.mark right :: rest)) (hrest : rest.head? ≠ some (.mark left))
    (h : ∀ x ∈ xs, IsItem fuel begins ok item (tok x) (val x)) :
    Reads fuel (Reader.bracketed left right begins item fuel) (bracketTokens left right tok xs ++ rest)
      (xs.map val) rest := by
  cases xs with
  | nil => exact (Reads.decline hrest).bind (.pure _ _)
  | cons x xs =>
    have hxs : ∀ y ∈ xs, IsItem fuel begins ok item (tok y) (val y) := fun y hy => h y (by simp [hy])
    have hstop : ∀ t, (Token.mark right :: rest).head? = some t → begins t = false := by
      intro t ht; cases ht; exact hr
    simp only [bracketTokens, List.flatMap_cons, List.cons_append, List.append_assoc, List.nil_append]
    refine (Reads.accept _ _).bind ?_
    refine Reads.bind (((h x (by simp)).reads _ (IsItem.follow hok hxs)).bind ?_) ((Reads.expect _ _).bind (.pure _ _))
    exact (Reads.many hstop hok hxs).bind (.pure _ _)

/-- The tokens of items with a mark between each two. -/
def separatedTokens (sep : Char) (tok : γ → List Token) : List γ → List Token
  | [] => []
  | x :: xs => tok x ++ xs.flatMap fun y => .mark sep :: tok y

theorem Reads.separated {sep : Char} {xs : List γ} (hne : xs ≠ []) (hrest : rest.head? ≠ some (.mark sep))
    (hsep : ∀ x ∈ xs, (tok x).head? ≠ some (.mark sep) ∧ tok x ≠ [])
    (h : ∀ x ∈ xs, ∀ more, Reads fuel item (tok x ++ more) (val x) more) :
    Reads fuel (Reader.separated sep item fuel) (separatedTokens sep tok xs ++ rest) (xs.map val) rest := by
  cases xs with
  | nil => exact absurd rfl hne
  | cons x xs =>
    have hitems : ∀ y ∈ xs, IsItem fuel (· = .mark sep) (fun _ => True) (do Reader.expect (.mark sep); item)
        (.mark sep :: tok y) (val y) := fun y hy =>
      ⟨⟨_, _, rfl, by simp⟩, fun _ => trivial, fun more _ => (Reads.expect _ _).bind (h y (by simp [hy]) more)⟩
    obtain ⟨hx, hn⟩ := hsep x (by simp)
    simp only [separatedTokens, List.append_assoc]
    refine (Reads.decline ?_).bind ?_
    · cases ht : tok x with
      | nil => exact absurd ht hn
      | cons t us => rw [ht] at hx; simpa using hx
    · exact (h x (by simp) _).bind ((Reads.many (stops_mark hrest) trivial hitems).bind (.pure _ _))

end Reader

/-! ## Types -/

open Reader

variable {fuel : Nat}

/-- The tokens of a type. -/
def typeTokens : TypeRef → List Token
  | .named n => [.name n]
  | .list t => .mark '[' :: (typeTokens t ++ [.mark ']'])
  | .nonNull t => typeTokens t ++ [.mark '!']

/-- A type as it can be written: no two marks in a row. -/
def isWritable : TypeRef → Bool
  | .named _ => true
  | .list t => isWritable t
  | .nonNull (.nonNull _) => false
  | .nonNull t => isWritable t

/-- The tokens of a list type begin with a bracket, and what is read behind them is a type again. -/
theorem reads_list {t : TypeRef} {n : Nat} {f : TypeRef → Reader TypeRef} {x : TypeRef} {ts rest : List Token}
    (ht : ∀ more : List Token, more.head? ≠ some (.mark '!') → Reads fuel (typeRef n) (typeTokens t ++ more) t more)
    (hf : Reads fuel (f (.list t)) ts x rest) :
    Reads fuel (do
      let item ← typeRef n
      expect (.mark ']')
      let inner ← pure (TypeRef.list item)
      f inner) (typeTokens t ++ .mark ']' :: ts) x rest :=
  (ht _ (by simp)).bind ((Reads.expect _ _).bind ((Reads.pure _ _).bind hf))

theorem reads_typeRef_upto : ∀ (t : TypeRef) {n : Nat} {rest : List Token}, isWritable t = true →
    (typeTokens t).length ≤ n → rest.head? ≠ some (.mark '!') →
      Reads fuel (typeRef n) (typeTokens t ++ rest) t rest
  | t, 0, _, _, hn, _ => by cases t <;> simp [typeTokens] at hn
  | .named s, n + 1, rest, _, _, hrest => by
    refine Reads.bind (Reads.decline (t := .mark '[') (by simp [typeTokens])) ?_
    exact (Reads.name s rest).bind ((Reads.pure _ _).bind ((Reads.decline hrest).bind (.pure _ _)))
  | .list t, n + 1, rest, hw, hn, hrest => by
    simp only [typeTokens, List.length_cons, List.length_append, List.length_nil] at hn
    simp only [typeTokens, List.cons_append, List.append_assoc, List.nil_append]
    refine (Reads.accept _ _).bind (reads_list (fun more hm => reads_typeRef_upto t hw (by omega) hm) ?_)
    exact (Reads.decline hrest).bind (.pure _ _)
  | .nonNull (.named s), n + 1, rest, _, _, hrest => by
    refine Reads.bind (Reads.decline (t := .mark '[') (by simp [typeTokens])) ?_
    exact (Reads.name s _).bind ((Reads.pure _ _).bind ((Reads.accept _ rest).bind (.pure _ _)))
  | .nonNull (.list t), n + 1, rest, hw, hn, hrest => by
    simp only [typeTokens, List.length_cons, List.length_append, List.length_nil] at hn
    simp only [typeTokens, List.cons_append, List.append_assoc, List.nil_append]
    refine (Reads.accept _ _).bind (reads_list (fun more hm => reads_typeRef_upto t hw (by omega) hm) ?_)
    exact (Reads.accept _ _).bind (.pure _ _)
  | .nonNull (.nonNull _), _ + 1, _, hw, _, _ => by simp [isWritable] at hw

theorem reads_typeRef {t : TypeRef} {rest : List Token} (hw : isWritable t = true) (h : rest.head? ≠ some (.mark '!')) :
    Reads fuel (typeRef fuel) (typeTokens t ++ rest) t rest := by
  refine Reads.of_fuel (by simp) fun hf => ?_
  rw [List.length_append] at hf
  exact reads_typeRef_upto t hw (by omega) h

/-! ## Documents -/

variable {γ : Type} {tok : γ → List Token} {val : γ → Definition}

/-- The tokens are those of one definition, in front of others or of the end. -/
def IsDefinition (ok : List Token → Prop) (ts : List Token) (d : Definition) : Prop :=
  ∀ fuel, IsItem fuel (fun _ => true) ok (definition fuel) ts d

theorem document_last {n : Nat} {T : Tokens} {d : Definition} {p : Position} (h : definition n T = .ok (d, .finish p)) :
    document (n + 1) T = .ok ([d], .finish p) := by
  simp only [document, bind, StateT.bind, h]
  rfl

theorem document_more {n : Nat} {T U V : Tokens} {d : Definition} {ds : Document} {t : Token} {p : Position}
    (h : definition n T = .ok (d, .cons t p U)) (hs : document n (.cons t p U) = .ok (ds, V)) :
    document (n + 1) T = .ok (d :: ds, V) := by
  simp only [document, bind, StateT.bind, h]
  show (document n (.cons t p U) >>= fun q => _) = _
  rw [hs]
  rfl

theorem document_reads {ok : List Token → Prop} (hok : ok []) : ∀ (xs : List γ) (n : Nat) {T : Tokens}, xs ≠ [] →
    (∀ x ∈ xs, IsDefinition ok (tok x) (val x)) → T.Spells (xs.flatMap tok) → 2 * (xs.flatMap tok).length + 1 < n →
      ∃ T', document n T = .ok (xs.map val, T')
  | [], _, _, hne, _, _, _ => absurd rfl hne
  | x :: xs, n, T, _, h, hT, hn => by
    obtain ⟨n, rfl⟩ : ∃ k, n = k + 1 := ⟨n - 1, by omega⟩
    have hxs : ∀ y ∈ xs, IsDefinition ok (tok y) (val y) := fun y hy => h y (by simp [hy])
    have hx := h x (by simp) n
    obtain ⟨t, us, ht, -⟩ := hx.first
    rw [List.flatMap_cons] at hT hn
    obtain ⟨U, hU, hUs⟩ := (hx.reads _ (IsItem.follow hok fun y hy => hxs y hy n)).run
      (by rw [List.append_nil]; omega) T (by rwa [List.append_nil])
    rw [List.append_nil] at hUs
    cases xs with
    | nil =>
      cases hUs with
      | finish p => exact ⟨_, document_last hU⟩
    | cons y ys =>
      rw [ht, List.length_append, List.length_cons] at hn
      obtain ⟨V, hV⟩ := document_reads hok (y :: ys) n (by simp) hxs hUs (by omega)
      obtain ⟨s, vs, hs, -⟩ := (hxs y (by simp) n).first
      rw [List.flatMap_cons, hs] at hUs
      cases hUs with
      | cons _ => exact ⟨V, document_more hU hV⟩

/-- A text that is made up of the tokens of definitions is read as these definitions. -/
theorem parse_lexes {ok : List Token → Prop} (hok : ok []) {xs : List γ} (hne : xs ≠ [])
    (h : ∀ x ∈ xs, IsDefinition ok (tok x) (val x)) {text : String} (hl : Lexer.Lexes text.toList (xs.flatMap tok))
    (hn : Lexer.nesting (xs.flatMap tok) ≤ nestingLimit) : parse text = .ok (xs.map val) := by
  have hs := Tokens.ofText_spells hl hn
  obtain ⟨T, hT⟩ := document_reads hok xs _ hne h hs (Nat.lt_succ_self _)
  rw [← hs.length] at hT
  simp only [parse, hT]
  rfl

end GraphqlCodegen.Sdl
