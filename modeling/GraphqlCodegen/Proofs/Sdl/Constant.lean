import GraphqlCodegen.Proofs.Sdl.Reading

/-!
# Constant values

A text is a constant if it is read as one value that holds no variable, up to its end (`constant?`).
What the reader of values does depends on the tokens of the value alone: a value that was read once
is read again from the same tokens wherever they stand, whatever follows them (`reads_constant`).
-/

namespace GraphqlCodegen.Sdl

/-- The value of a text that is nothing but one constant. -/
def constant? (text : String) : Option Value :=
  let tokens := Tokens.ofText text.toList
  match value true (2 * tokens.length + 2) tokens with
  | .ok (v, .finish _) => some v
  | _ => none

/-- The tokens of a text that can be read to its end. -/
def constantTokens (text : String) : List Token := (Tokens.ofText text.toList).toList

/-- What begins with some tokens and goes on as something else. -/
inductive Tokens.Begins : Tokens → List Token → Tokens → Prop
  | nil (T : Tokens) : Begins T [] T
  | cons {t : Token} {p : Position} {T T' : Tokens} {ts : List Token} :
    Begins T ts T' → Begins (.cons t p T) (t :: ts) T'

theorem Tokens.Begins.append : ∀ {T T' T'' : Tokens} {ts us : List Token},
    T.Begins ts T' → T'.Begins us T'' → T.Begins (ts ++ us) T''
  | _, _, _, _, _, .nil _, h => h
  | _, _, _, _, _, .cons h, h' => .cons (h.append h')

theorem Tokens.Begins.toList : ∀ {T T' : Tokens} {ts : List Token}, T.Begins ts T' → T.toList = ts ++ T'.toList
  | _, _, _, .nil _ => rfl
  | _, _, _, .cons h => by rw [Tokens.toList, h.toList]; rfl

theorem Tokens.Spells.toList : ∀ {T : Tokens} {ts : List Token}, T.Spells ts → T.toList = ts
  | _, _, .finish _ => rfl
  | _, _, .cons h => by rw [Tokens.toList, h.toList]

theorem Tokens.Begins.head? {T T' : Tokens} {ts : List Token} (h : T.Begins ts T') (hne : ts ≠ []) :
    ts.head? = T.head? := by
  cases h with
  | nil => exact absurd rfl hne
  | cons _ => rfl

/-! ## What a reader did -/

namespace Reader

variable {α β : Type} {T T' T'' : Tokens}

theorem bind_ok {r : Reader α} {f : α → Reader β} {y : β} (h : (r >>= f) T = .ok (y, T'')) :
    ∃ x T', r T = .ok (x, T') ∧ f x T' = .ok (y, T'') := by
  change (r T >>= fun p => f p.1 p.2) = _ at h
  cases hr : r T with
  | error e => rw [hr] at h; cases h
  | ok p => rw [hr] at h; exact ⟨p.1, p.2, rfl, h⟩

theorem pure_ok {x y : α} (h : (pure x : Reader α) T = .ok (y, T')) : x = y ∧ T = T' := by
  cases h; exact ⟨rfl, rfl⟩

theorem head?_cons {t : Token} (h : T.head? = some t) : ∃ p rest, T = .cons t p rest := by
  cases T with
  | cons s p rest => cases h; exact ⟨p, rest, rfl⟩
  | finish p => cases h
  | stuck p => cases h

theorem expect_ok {t : Token} {u : Unit} (h : expect t T = .ok (u, T')) : ∃ p, T = .cons t p T' := by
  obtain ⟨x, U, hp, hs⟩ := bind_ok h
  cases hp
  split at hs
  · rename_i ht
    obtain ⟨p, rest, rfl⟩ := head?_cons ht
    cases hs
    exact ⟨p, rfl⟩
  · cases hs

theorem accept_ok {t : Token} {b : Bool} (h : accept t T = .ok (b, T')) :
    (b = true ∧ ∃ p, T = .cons t p T') ∨ (b = false ∧ T.head? ≠ some t ∧ T = T') := by
  obtain ⟨x, U, hp, hs⟩ := bind_ok h
  cases hp
  split at hs
  · rename_i ht
    obtain ⟨p, rest, rfl⟩ := head?_cons ht
    cases hs
    exact .inl ⟨rfl, p, rfl⟩
  · rename_i ht
    cases hs
    exact .inr ⟨rfl, ht, rfl⟩

theorem name_ok {n : String} (h : name T = .ok (n, T')) : ∃ p, T = .cons (.name n) p T' := by
  cases T with
  | finish p => cases h
  | stuck p => cases h
  | cons t p rest =>
    cases t with
    | name m => cases h; exact ⟨p, rfl⟩
    | _ => cases h

end Reader

open Reader
open Lexer (Balanced Closing nesting)

/-! ## Values are read from their tokens alone -/

/-- The reader reads the result from these tokens, with no regard to what follows them. -/
def ReadsLocally {α : Type} (r : Nat → Reader α) (ts : List Token) (x : α) : Prop :=
  ∀ {fuel n : Nat} (rest : List Token), ts.length ≤ n → Reads fuel (r n) (ts ++ rest) x rest

namespace ReadsLocally

variable {ts us : List Token} {x v : Value} {xs : List Value} {es : List (String × Value)}

theorem atom {t : Token} (h : ∀ (n fuel : Nat) (rest : List Token), Reads fuel (value true (n + 1)) (t :: rest) v rest) :
    ReadsLocally (value true) [t] v := by
  intro fuel n rest hn
  obtain ⟨n, rfl⟩ : ∃ k, n = k + 1 := ⟨n - 1, by simp at hn; omega⟩
  exact h n fuel rest

theorem word (s : String) : ReadsLocally (value true) [.name s]
    (if s = "true" then .boolean true else if s = "false" then .boolean false else if s = "null" then .null else .enum s) := by
  refine atom fun _ _ _ => (Reads.peek _).bind ?_
  exact (Reads.skip _ _).bind (.pure _ _)

theorem int (i : Int) : ReadsLocally (value true) [.int i] (.int i) := by
  refine atom fun _ _ _ => (Reads.peek _).bind ?_
  exact (Reads.skip _ _).bind (.pure _ _)

theorem float (x : Number.Binary64) : ReadsLocally (value true) [.float x] (.float x) := by
  refine atom fun _ _ _ => (Reads.peek _).bind ?_
  exact (Reads.skip _ _).bind (.pure _ _)

theorem string (s : String) : ReadsLocally (value true) [.string s] (.string s) := by
  refine atom fun _ _ _ => (Reads.peek _).bind ?_
  exact (Reads.skip _ _).bind (.pure _ _)

theorem bracket {α : Type} {r : Nat → Reader α} {y : α} {c : Char} (h : ReadsLocally r ts y)
    (hv : ∀ (n fuel : Nat) (us more : List Token), Reads fuel (r n) us y more →
      Reads fuel (value true (n + 1)) (.mark c :: us) v more) : ReadsLocally (value true) (.mark c :: ts) v := by
  intro fuel n more hn
  obtain ⟨n, rfl⟩ : ∃ k, n = k + 1 := ⟨n - 1, by simp at hn; omega⟩
  exact hv _ _ _ _ (h more (by simpa using hn))

theorem list (h : ReadsLocally (items true) ts xs) : ReadsLocally (value true) (.mark '[' :: ts) (.list xs) := by
  refine h.bracket fun _ _ _ _ hr => (Reads.peek _).bind ?_
  exact (Reads.skip _ _).bind (hr.bind (.pure _ _))

theorem object (h : ReadsLocally (entries true) ts es) :
    ReadsLocally (value true) (.mark '\x7b' :: ts) (.object (Entries.ofList es)) := by
  refine h.bracket fun _ _ _ _ hr => (Reads.peek _).bind ?_
  exact (Reads.skip _ _).bind (hr.bind (.pure _ _))

theorem items_nil : ReadsLocally (items true) [.mark ']'] [] := by
  intro fuel n more hn
  obtain ⟨n, rfl⟩ : ∃ k, n = k + 1 := ⟨n - 1, by simp at hn; omega⟩
  exact (Reads.accept _ _).bind (.pure _ _)

theorem items_cons (hts : ts ≠ []) (hhead : ts.head? ≠ some (.mark ']')) (hus : us ≠ []) (h : ReadsLocally (value true) ts x)
    (h' : ReadsLocally (items true) us xs) : ReadsLocally (items true) (ts ++ us) (x :: xs) := by
  intro fuel n more hn
  have htl := List.length_pos_iff.2 hts
  have hul := List.length_pos_iff.2 hus
  rw [List.length_append] at hn
  obtain ⟨n, rfl⟩ : ∃ k, n = k + 1 := ⟨n - 1, by omega⟩
  rw [List.append_assoc]
  have hdecline : (ts ++ (us ++ more)).head? ≠ some (.mark ']') := by
    rwa [List.head?_append, Option.or_of_isSome (by simpa using hts)]
  exact (Reads.decline hdecline).bind ((h _ (by omega)).bind ((h' _ (by omega)).bind (.pure _ _)))

theorem entries_nil : ReadsLocally (entries true) [.mark '\x7d'] [] := by
  intro fuel n more hn
  obtain ⟨n, rfl⟩ : ∃ k, n = k + 1 := ⟨n - 1, by simp at hn; omega⟩
  exact (Reads.accept _ _).bind (.pure _ _)

theorem entries_cons {key : String} (hus : us ≠ []) (h : ReadsLocally (value true) ts x) (h' : ReadsLocally (entries true) us es) :
    ReadsLocally (entries true) (.name key :: .mark ':' :: (ts ++ us)) ((key, x) :: es) := by
  intro fuel n more hn
  have hul := List.length_pos_iff.2 hus
  rw [List.length_cons, List.length_cons, List.length_append] at hn
  obtain ⟨n, rfl⟩ : ∃ k, n = k + 1 := ⟨n - 1, by omega⟩
  simp only [List.cons_append, List.append_assoc]
  refine (Reads.decline (by simp)).bind ((Reads.name _ _).bind ((Reads.expect _ _).bind ?_))
  exact (h _ (by omega)).bind ((h' _ (by omega)).bind (.pure _ _))

end ReadsLocally

/-- A reading of values, items or entries from `T` to `T'`: which tokens were read, and that they can
be read again. -/
def Repeats {α : Type} (shape : List Token → Prop) (r : Nat → Reader α) (T : Tokens) (x : α) (T' : Tokens) : Prop :=
  ∃ ts, ts ≠ [] ∧ shape ts ∧ T.Begins ts T' ∧ ReadsLocally r ts x

theorem repeats_atom {t : Token} {p : Position} {T : Tokens} {v : Value} (ht : Lexer.isBracket t = false)
    (h : ReadsLocally (value true) [t] v) : Repeats Balanced (value true) (.cons t p T) v T :=
  ⟨[t], by simp, Balanced.nil.cons ht, .cons (.nil _), h⟩

theorem repeats_bracket {α : Type} {r : Nat → Reader α} {c : Char} {p : Position} {T T' : Tokens} {x : α} {v : Value}
    (hc : Lexer.isOpening c = true) (h : Repeats Closing r T x T')
    (hv : ∀ {ts}, ReadsLocally r ts x → ReadsLocally (value true) (.mark c :: ts) v) :
    Repeats Balanced (value true) (.cons (.mark c) p T) v T' := by
  obtain ⟨ts, -, hs, hb, hr⟩ := h
  exact ⟨.mark c :: ts, by simp, hs.open hc, .cons hb, hv hr⟩

/-- Of the marks, only the two brackets begin a constant. -/
theorem value_mark {c : Char} {n : Nat} {p : Position} {rest : Tokens} (hl : c ≠ '[') (ho : c ≠ '\x7b') :
    value true (n + 1) (.cons (.mark c) p rest) = .error p := by
  by_cases hd : c = '$'
  · subst hd; rfl
  · simp only [value, bind, StateT.bind, Except.bind, peek, Tokens.head?]
    split <;> simp_all [refuse, Tokens.place]

/-- A value, if items and entries repeat. -/
theorem value_step {n : Nat} (ihi : ∀ T vs T', items true n T = .ok (vs, T') → Repeats Closing (items true) T vs T')
    (ihe : ∀ T es T', entries true n T = .ok (es, T') → Repeats Closing (entries true) T es T') {T T' : Tokens} {v : Value}
    (h : value true (n + 1) T = .ok (v, T')) : Repeats Balanced (value true) T v T' := by
  cases T with
  | finish p => cases h
  | stuck p => cases h
  | cons t p rest =>
    cases t with
    | name s =>
      cases h
      exact repeats_atom rfl (ReadsLocally.word s)
    | int i =>
      cases h
      exact repeats_atom rfl (ReadsLocally.int i)
    | float x =>
      cases h
      exact repeats_atom rfl (ReadsLocally.float x)
    | string s =>
      cases h
      exact repeats_atom rfl (ReadsLocally.string s)
    | spread => cases h
    | mark c =>
      by_cases hl : c = '['
      · subst hl
        obtain ⟨_, _, hp, hs⟩ := bind_ok h
        cases hp
        obtain ⟨_, _, hp, hs⟩ := bind_ok hs
        cases hp
        obtain ⟨vs, U, hp, hs⟩ := bind_ok hs
        obtain ⟨rfl, rfl⟩ := pure_ok hs
        exact repeats_bracket rfl (ihi _ _ _ hp) ReadsLocally.list
      · by_cases ho : c = '\x7b'
        · subst ho
          obtain ⟨_, _, hp, hs⟩ := bind_ok h
          cases hp
          obtain ⟨_, _, hp, hs⟩ := bind_ok hs
          cases hp
          obtain ⟨es, U, hp, hs⟩ := bind_ok hs
          obtain ⟨rfl, rfl⟩ := pure_ok hs
          exact repeats_bracket rfl (ihe _ _ _ hp) ReadsLocally.object
        · rw [value_mark hl ho] at h; cases h

theorem items_step {n : Nat} (ihv : ∀ T v T', value true n T = .ok (v, T') → Repeats Balanced (value true) T v T')
    (ihi : ∀ T vs T', items true n T = .ok (vs, T') → Repeats Closing (items true) T vs T') {T T' : Tokens} {vs : List Value}
    (h : items true (n + 1) T = .ok (vs, T')) : Repeats Closing (items true) T vs T' := by
  obtain ⟨b, U, hp, hs⟩ := bind_ok h
  rcases accept_ok hp with ⟨rfl, p, rfl⟩ | ⟨rfl, hne, rfl⟩
  · obtain ⟨rfl, rfl⟩ := pure_ok hs
    exact ⟨[.mark ']'], by simp, Closing.mark rfl, .cons (.nil _), ReadsLocally.items_nil⟩
  · obtain ⟨x, V, hx, hs⟩ := bind_ok hs
    obtain ⟨xs, W, hxs, hs⟩ := bind_ok hs
    obtain ⟨rfl, rfl⟩ := pure_ok hs
    obtain ⟨ts, hts, hst, hb, hr⟩ := ihv _ _ _ hx
    obtain ⟨us, hus, hsu, hb', hr'⟩ := ihi _ _ _ hxs
    have hhead : ts.head? ≠ some (.mark ']') := by rwa [hb.head? hts]
    exact ⟨ts ++ us, by simp [hts], hst.append_closing hsu, hb.append hb', ReadsLocally.items_cons hts hhead hus hr hr'⟩

theorem entries_step {n : Nat} (ihv : ∀ T v T', value true n T = .ok (v, T') → Repeats Balanced (value true) T v T')
    (ihe : ∀ T es T', entries true n T = .ok (es, T') → Repeats Closing (entries true) T es T') {T T' : Tokens}
    {es : List (String × Value)} (h : entries true (n + 1) T = .ok (es, T')) : Repeats Closing (entries true) T es T' := by
  obtain ⟨b, U, hp, hs⟩ := bind_ok h
  rcases accept_ok hp with ⟨rfl, p, rfl⟩ | ⟨rfl, -, rfl⟩
  · obtain ⟨rfl, rfl⟩ := pure_ok hs
    exact ⟨[.mark '\x7d'], by simp, Closing.mark rfl, .cons (.nil _), ReadsLocally.entries_nil⟩
  · obtain ⟨key, V, hk, hs1⟩ := bind_ok hs
    obtain ⟨p, rfl⟩ := name_ok hk
    obtain ⟨_, W, hc, hs2⟩ := bind_ok hs1
    obtain ⟨q, rfl⟩ := expect_ok hc
    obtain ⟨x, X, hx, hs3⟩ := bind_ok hs2
    obtain ⟨es, Y, hes, hs4⟩ := bind_ok hs3
    obtain ⟨rfl, rfl⟩ := pure_ok hs4
    obtain ⟨ts, hts, hst, hb, hr⟩ := ihv _ _ _ hx
    obtain ⟨us, hus, hsu, hb', hr'⟩ := ihe _ _ _ hes
    exact ⟨.name key :: .mark ':' :: (ts ++ us), by simp, ((hst.append_closing hsu).cons rfl).cons rfl,
      .cons (.cons (hb.append hb')), ReadsLocally.entries_cons hus hr hr'⟩

theorem value_repeats (n : Nat) :
    (∀ T v T', value true n T = .ok (v, T') → Repeats Balanced (value true) T v T') ∧
    (∀ T vs T', items true n T = .ok (vs, T') → Repeats Closing (items true) T vs T') ∧
    (∀ T es T', entries true n T = .ok (es, T') → Repeats Closing (entries true) T es T') := by
  induction n with
  | zero =>
    refine ⟨fun _ _ _ h => ?_, fun _ _ _ h => ?_, fun _ _ _ h => ?_⟩ <;> cases h
  | succ n ih =>
    obtain ⟨ihv, ihi, ihe⟩ := ih
    exact ⟨fun _ _ _ => value_step ihi ihe, fun _ _ _ => items_step ihv ihi, fun _ _ _ => entries_step ihv ihe⟩

/-- A constant is read from its tokens wherever they stand. -/
theorem reads_constant {text : String} {v : Value} {ts : List Token} (hl : Lexer.Lexes text.toList ts)
    (hn : nesting ts ≤ nestingLimit) (h : constant? text = some v) : Balanced ts ∧ ReadsLocally (value true) ts v := by
  have hs := Tokens.ofText_spells hl hn
  simp only [constant?] at h
  split at h
  · rename_i w p hv
    cases h
    obtain ⟨us, -, hs', hb, hr⟩ := (value_repeats _).1 _ _ _ hv
    have he := hb.toList
    rw [hs.toList] at he
    simp only [Tokens.toList, List.append_nil] at he
    rw [he]
    exact ⟨hs', fun more hm => hr more hm⟩
  · cases h

theorem ReadsLocally.reads {α : Type} {r : Nat → Reader α} {ts : List Token} {x : α} (h : ReadsLocally r ts x)
    {fuel : Nat} (rest : List Token) : Reads fuel (r fuel) (ts ++ rest) x rest := by
  refine Reads.of_fuel (by simp) fun hf => ?_
  rw [List.length_append] at hf
  exact h rest (by omega)

end GraphqlCodegen.Sdl
