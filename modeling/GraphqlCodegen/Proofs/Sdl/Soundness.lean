import GraphqlCodegen.Proofs.Sdl.Constant
import GraphqlCodegen.Proofs.Entries

/-!
# What a document is made of

All names of a document come from tokens, and a token is a name only if its text is one; an integer among the tokens fits into its
word. No more brackets are open at a time than the budget of the reader allows, so no value of a document nests deeper either.

`Ensures I r J` says that the reader `r` takes tokens of which `I` holds to a result and tokens of which `J` holds. The budget stands
in these assertions: a bracket that is opened takes from what is left for the tokens behind it, and one that is closed gives it
back, so what stands between brackets is read within less (`parse_sound`).
-/

namespace GraphqlCodegen.Sdl

open Lexer (isNameText fitsWord spend isOpening isClosing)

/-! ## Tokens -/

/-- A name has the text of one, and an integer fits into its word. -/
def Token.Sound : Token → Prop
  | .name n => isNameText n = true
  | .int i => fitsWord i = true
  | _ => True

/-- The tokens are sound, and the budget is enough for the brackets that they open. -/
def Tokens.Within : Tokens → Nat → Prop
  | .cons t _ rest, budget => t.Sound ∧ ∃ left, spend budget t = some left ∧ rest.Within left
  | _, _ => True

namespace Lexer

theorem numberToken_ne_name {word : List Char} {n : String} : numberToken word ≠ some (.name n) := by
  unfold numberToken
  split
  split <;> split <;> simp

theorem numberToken_int {word : List Char} {i : Int} (h : numberToken word = some (.int i)) : fitsWord i = true := by
  unfold numberToken at h
  split at h
  split at h
  · split at h <;> simp at h
  · split at h <;> simp at h
  · split at h <;> simp at h
  · split at h
    · rename_i hfits
      cases h
      exact (Bool.and_eq_true_iff.1 hfits).2
    · cases h

theorem readString_string {cs text rest : List Char} {t : Token} (h : readString cs = some (t, text, rest)) :
    ∃ s, t = .string s := by
  unfold readString at h
  split at h
  · obtain ⟨r, -, he⟩ := Option.bind_eq_some_iff.1 h
    cases he
    exact ⟨_, rfl⟩
  · obtain ⟨r, -, he⟩ := Option.bind_eq_some_iff.1 h
    obtain ⟨s, -, he⟩ := Option.bind_eq_some_iff.1 he
    cases he
    exact ⟨_, rfl⟩
  · cases h

theorem readToken_sound {cs text rest : List Char} {t : Token} (h : readToken cs = some (t, text, rest)) : t.Sound := by
  cases cs with
  | nil => cases h
  | cons c cs =>
    simp only [readToken] at h
    split at h
    · cases h
      trivial
    · split at h
      · rename_i hstart
        cases h
        simp only [Token.Sound, isNameText, String.toList_ofList, hstart, Bool.true_and]
        exact List.all_takeWhile
      · split at h
        · obtain ⟨u, hu, he⟩ := Option.map_eq_some_iff.1 h
          cases he
          cases t with
          | name n => exact absurd hu numberToken_ne_name
          | int i => exact numberToken_int hu
          | _ => trivial
        · split at h
          · obtain ⟨s, rfl⟩ := readString_string h
            trivial
          · split at h <;> cases h
            trivial

theorem tokensFrom_within : ∀ (fuel budget : Nat) (p : Position) (cs : List Char), (tokensFrom fuel budget p cs).Within budget
  | 0, _, _, _ => trivial
  | fuel + 1, budget, p, cs => by
    rw [tokensFrom]
    split
    · trivial
    · split
      · trivial
      · rename_i t text rest ht
        split
        · trivial
        · rename_i left hleft
          exact ⟨readToken_sound ht, left, hleft, tokensFrom_within fuel left _ _⟩

theorem spend_open {b c : Nat} {l : Char} (hl : isOpening l = true) (h : spend b (.mark l) = some c) : b = c + 1 := by
  unfold isOpening at hl
  simp only [spend, hl, if_true] at h
  split at h <;> cases h
  rfl

theorem spend_close {r : Char} (hr : isClosing r = true) (b : Nat) : spend b (.mark r) = some (b + 1) := by
  simp only [isClosing, Bool.or_eq_true, decide_eq_true_eq] at hr
  rcases hr with (rfl | rfl) | rfl <;> rfl

end Lexer

/-! ## Readers -/

namespace Reader

variable {α β : Type} {b c : Nat} {P P' : α → Prop} {Q : β → Prop} {I : Tokens → Prop} {J : α → Tokens → Prop}
  {K : β → Tokens → Prop} {r : Reader α} {f : α → Reader β}

/-- If the first assertion holds of the tokens, the second holds of the result and of the tokens that are left. -/
def Ensures (I : Tokens → Prop) (r : Reader α) (J : α → Tokens → Prop) : Prop := ∀ T x T', r T = .ok (x, T') → I T → J x T'

/-- The reader is content with the budget and leaves it as it was; its results have the property. -/
abbrev Yields (b : Nat) (P : α → Prop) (r : Reader α) : Prop := Ensures (·.Within b) r fun x T => P x ∧ T.Within b

/-- As `Yields`, with nothing said of the results. -/
abbrev Passes (b : Nat) (r : Reader α) : Prop := Yields b (fun _ => True) r

theorem Ensures.bind (h : Ensures I r J) (hf : ∀ x, Ensures (J x) (f x) K) : Ensures I (r >>= f) K := by
  intro T y T' hr hI
  obtain ⟨x, U, hx, hy⟩ := bind_ok hr
  exact hf x U y T' hy (h T x U hx hI)

theorem Ensures.assume {p : Prop} (h : p → Ensures I r J) : Ensures (fun T => p ∧ I T) r J :=
  fun T x T' hr hI => h hI.1 T x T' hr hI.2

theorem Yields.imp (h : Yields b P r) (hp : ∀ x, P x → P' x) : Yields b P' r := fun T x T' hr hT =>
  ⟨hp x (h T x T' hr hT).1, (h T x T' hr hT).2⟩

theorem Yields.passes (h : Yields b P r) : Passes b r := h.imp fun _ _ => trivial

/-- What the first reader gives may be used of its result. -/
theorem Yields.bind (h : Yields b P r) (hf : ∀ x, P x → Ensures (·.Within b) (f x) K) : Ensures (·.Within b) (r >>= f) K :=
  Ensures.bind h fun x => .assume (hf x)

theorem Ensures.pure {x : α} (h : P x) : Yields b P (Pure.pure x : Reader α) := by
  intro T y T' hr hT
  obtain ⟨rfl, rfl⟩ := pure_ok hr
  exact ⟨h, hT⟩

theorem Ensures.ite {p : Prop} [Decidable p] {s : Reader α} (h : Ensures I r J) (hs : Ensures I s J) :
    Ensures I (if p then r else s) J := by
  split
  · exact h
  · exact hs

theorem ensures_refuse : Ensures I (refuse : Reader α) J := fun _ _ _ h => by cases h

theorem ensures_refuseAt (p : Position) : Ensures I (refuseAt p : Reader α) J := fun _ _ _ h => by cases h

theorem passes_here : Passes b here := by
  intro T x T' h hT
  cases h
  exact ⟨trivial, hT⟩

theorem passes_peek : Passes b peek := by
  intro T x T' h hT
  cases h
  exact ⟨trivial, hT⟩

/-! ### Single tokens -/

theorem within_cons {t : Token} {p : Position} {T : Tokens} (h : (Tokens.cons t p T).Within b) {c : Nat} (hs : spend b t = some c) :
    T.Within c := by
  obtain ⟨-, left, hleft, hT⟩ := h
  rw [hs] at hleft
  rwa [Option.some.inj hleft]

/-- A token that has been looked at is sound. -/
theorem Ensures.peek {f : Option Token → Reader β}
    (hsome : ∀ t, t.Sound → Ensures (fun T => T.head? = some t ∧ T.Within b) (f (some t)) K)
    (hnone : Ensures (·.Within b) (f none) K) : Ensures (·.Within b) (peek >>= f) K := by
  intro T y T' hr hT
  obtain ⟨x, U, hx, hy⟩ := bind_ok hr
  cases hx
  cases T with
  | cons t p rest => exact hsome t hT.1 _ y T' hy ⟨rfl, hT⟩
  | finish p => exact hnone _ y T' hy hT
  | stuck p => exact hnone _ y T' hy hT

theorem Ensures.skip {t : Token} {f : Unit → Reader β} (h : ∀ c, spend b t = some c → Ensures (·.Within c) (f ()) K) :
    Ensures (fun T => T.head? = some t ∧ T.Within b) (skip >>= f) K := by
  rintro T y T' hr ⟨hhead, hT⟩
  obtain ⟨x, U, hx, hy⟩ := bind_ok hr
  obtain ⟨p, rest, rfl⟩ := head?_cons hhead
  cases hx
  obtain ⟨left, hleft, hrest⟩ := hT.2
  exact h left hleft _ y T' hy hrest

theorem Ensures.stay {t : Token} (h : Ensures (·.Within b) r J) : Ensures (fun T => T.head? = some t ∧ T.Within b) r J :=
  fun T x T' hr hT => h T x T' hr hT.2

theorem Ensures.expect {t : Token} {f : Unit → Reader β} (h : ∀ c, spend b t = some c → Ensures (·.Within c) (f ()) K) :
    Ensures (·.Within b) (expect t >>= f) K := by
  intro T y T' hr hT
  obtain ⟨x, U, hx, hy⟩ := bind_ok hr
  obtain ⟨p, rfl⟩ := expect_ok hx
  obtain ⟨left, hleft, hrest⟩ := hT.2
  exact h left hleft _ y T' hy hrest

theorem Ensures.accept {t : Token} {f : Bool → Reader β} (h : ∀ c, spend b t = some c → Ensures (·.Within c) (f true) K)
    (hf : Ensures (·.Within b) (f false) K) : Ensures (·.Within b) (accept t >>= f) K := by
  intro T y T' hr hT
  obtain ⟨x, U, hx, hy⟩ := bind_ok hr
  rcases accept_ok hx with ⟨rfl, p, rfl⟩ | ⟨rfl, -, rfl⟩
  · obtain ⟨left, hleft, hrest⟩ := hT.2
    exact h left hleft _ y T' hy hrest
  · exact hf _ y T' hy hT

/-- A token that is no bracket costs nothing. -/
theorem passes_expect {t : Token} (ht : spend b t = some b) : Passes b (expect t) := by
  intro T x T' hr hT
  obtain ⟨p, rfl⟩ := expect_ok hr
  exact ⟨trivial, within_cons hT ht⟩

theorem passes_accept {t : Token} (ht : spend b t = some b) : Passes b (accept t) := by
  intro T x T' hr hT
  rcases accept_ok hr with ⟨rfl, p, rfl⟩ | ⟨rfl, -, rfl⟩
  · exact ⟨trivial, within_cons hT ht⟩
  · exact ⟨trivial, hT⟩

theorem yields_name : Yields b (isNameText · = true) name := by
  intro T n T' hr hT
  obtain ⟨p, rfl⟩ := name_ok hr
  obtain ⟨hn, left, hleft, hrest⟩ := hT
  cases hleft
  exact ⟨hn, hrest⟩

/-! ### Repetition -/

theorem yields_many (begins : Token → Bool) (h : Yields b P r) : ∀ fuel, Yields b (∀ x ∈ ·, P x) (many begins r fuel)
  | 0 => ensures_refuse
  | fuel + 1 => by
    refine passes_peek.bind fun t _ => ?_
    split
    · refine Ensures.ite (h.bind fun x hx => (yields_many begins h fuel).bind fun xs hxs => .pure ?_) (.pure (by simp))
      simpa using ⟨hx, hxs⟩
    · exact .pure (by simp)

theorem yields_many1 (begins : Token → Bool) (h : Yields b P r) (fuel : Nat) :
    Yields b (∀ x ∈ ·, P x) (many1 begins r fuel) :=
  h.bind fun _ hx => (yields_many begins h fuel).bind fun _ hxs => .pure (List.forall_mem_cons.2 ⟨hx, hxs⟩)

/-- What stands between brackets is read within what is left. -/
theorem yields_bracketed {left right : Char} (hleft : isOpening left = true) (hright : isClosing right = true)
    (begins : Token → Bool) (h : ∀ c, b = c + 1 → Yields c P r) (fuel : Nat) :
    Yields b (∀ x ∈ ·, P x) (bracketed left right begins r fuel) := by
  refine Ensures.accept (fun c hc => ?_) (.pure (by simp))
  have hb := Lexer.spend_open hleft hc
  refine (yields_many1 begins (h c hb) fuel).bind fun xs hxs => Ensures.expect fun d hd => ?_
  rw [Lexer.spend_close hright] at hd
  cases hd
  exact hb ▸ .pure hxs

theorem yields_separated {sep : Char} (hsep : ∀ b, spend b (.mark sep) = some b) (h : Yields b P r) (fuel : Nat) :
    Yields b (∀ x ∈ ·, P x) (separated sep r fuel) :=
  (passes_accept (hsep b)).bind fun _ _ => h.bind fun _ hx =>
    (yields_many _ ((passes_expect (hsep b)).bind fun _ _ => h) fuel).bind fun _ hxs => .pure (List.forall_mem_cons.2 ⟨hx, hxs⟩)

end Reader

open Reader

/-! ## Types and values -/

theorem passes_description {b : Nat} : Passes b description := by
  refine Ensures.peek (fun t _ => ?_) (.pure trivial)
  cases t with
  | string s =>
    refine Ensures.skip fun c hc => ?_
    cases hc
    exact .pure trivial
  | _ => exact (Ensures.pure trivial).stay

theorem passes_typeRef : ∀ (fuel : Nat) {b : Nat}, Passes b (typeRef fuel)
  | 0, _ => ensures_refuse
  | fuel + 1, b => by
    have hend : ∀ {b : Nat} (inner : Schema.TypeRef),
        Passes b (do if ← accept (.mark '!') then return Schema.TypeRef.nonNull inner else return inner) :=
      fun _ => (passes_accept rfl).bind fun _ _ => (Ensures.pure trivial).ite (.pure trivial)
    refine Ensures.accept (fun c hc => ?_) (yields_name.bind fun _ _ => hend _)
    have hb := Lexer.spend_open rfl hc
    refine (passes_typeRef fuel).bind fun _ _ => Ensures.expect fun d hd => ?_
    cases hd
    exact hb ▸ hend _

/-- A constant that can be written within the budget: its names and numbers are read again, and it nests no deeper. -/
inductive Value.Sound : Nat → Value → Prop
  | int {b : Nat} {i : Int} : fitsWord i = true → Sound b (.int i)
  | float {b : Nat} (x : Number.Binary64) : Sound b (.float x)
  | string {b : Nat} (s : String) : Sound b (.string s)
  | boolean {b : Nat} (x : Bool) : Sound b (.boolean x)
  | null {b : Nat} : Sound b .null
  | enum {b : Nat} {n : String} : isNameText n = true → n ∉ ["true", "false", "null"] → Sound b (.enum n)
  | list {b : Nat} {items : List Value} : (∀ v ∈ items, Sound b v) → Sound (b + 1) (.list items)
  | object {b : Nat} {entries : List (String × Value)} : Entries.Ordered entries →
    (∀ e ∈ entries, isNameText e.1 = true) → (∀ e ∈ entries, Sound b e.2) → Sound (b + 1) (.object entries)

theorem Value.Sound.mono {b c : Nat} {v : Value} (h : v.Sound b) (hbc : b ≤ c) : v.Sound c := by
  induction h generalizing c with
  | int hi => exact .int hi
  | float x => exact .float x
  | string s => exact .string s
  | boolean x => exact .boolean x
  | null => exact .null
  | enum hn hw => exact .enum hn hw
  | list _ ih =>
    obtain ⟨d, rfl⟩ := Nat.exists_eq_add_of_le' (Nat.lt_of_lt_of_le (Nat.succ_pos _) hbc)
    exact .list fun v hv => ih v hv (by omega)
  | object ho hk _ ih =>
    obtain ⟨d, rfl⟩ := Nat.exists_eq_add_of_le' (Nat.lt_of_lt_of_le (Nat.succ_pos _) hbc)
    exact .object ho hk fun e he => ih e he (by omega)

/-- A name as a value. -/
theorem sound_name {b : Nat} {n : String} (hn : isNameText n = true) :
    (if n = "true" then Value.boolean true else if n = "false" then .boolean false else if n = "null" then .null
      else .enum n).Sound b := by
  split
  · exact .boolean _
  · split
    · exact .boolean _
    · split
      · exact .null
      · exact .enum hn (by simp_all)

mutual

theorem yields_value (constant : Bool) : ∀ (fuel : Nat) {b : Nat},
    Yields b (fun v => constant = true → v.Sound b) (value constant fuel)
  | 0, _ => by rw [value]; exact ensures_refuse
  | fuel + 1, b => by
    rw [value]
    refine Ensures.peek (fun t ht => ?_) ensures_refuse
    cases t with
    | name n =>
      refine Ensures.skip fun c hc => ?_
      cases hc
      exact .pure fun _ => sound_name ht
    | int i =>
      refine Ensures.skip fun c hc => ?_
      cases hc
      exact .pure fun _ => .int ht
    | float x =>
      refine Ensures.skip fun c hc => ?_
      cases hc
      exact .pure fun _ => .float x
    | string s =>
      refine Ensures.skip fun c hc => ?_
      cases hc
      exact .pure fun _ => .string s
    | spread => exact ensures_refuse
    | mark m =>
      by_cases hl : m = '['
      · subst hl
        refine Ensures.skip fun c hc => ?_
        rw [Lexer.spend_open rfl hc]
        exact Ensures.bind (ensures_items constant fuel) fun vs => .assume fun hvs => .pure fun hcon => .list (hvs hcon)
      · by_cases ho : m = '\x7b'
        · subst ho
          refine Ensures.skip fun c hc => ?_
          rw [Lexer.spend_open rfl hc]
          exact Ensures.bind (ensures_entries constant fuel) fun es => .assume fun hes => .pure fun hcon =>
            .object (Entries.ordered_ofList es) (fun e he => (hes hcon e (Entries.of_mem_ofList he)).1)
              fun e he => (hes hcon e (Entries.of_mem_ofList he)).2
        · by_cases hd : m = '$'
          · subst hd
            cases constant with
            | true => exact ensures_refuse
            | false =>
              refine Ensures.skip fun c hc => ?_
              cases hc
              exact yields_name.bind fun n _ => .pure (by simp)
          · split <;> first | exact ensures_refuse | simp_all

theorem ensures_items (constant : Bool) : ∀ (fuel : Nat) {b : Nat}, Ensures (·.Within b) (items constant fuel)
    fun vs T => (constant = true → ∀ v ∈ vs, v.Sound b) ∧ T.Within (b + 1)
  | 0, _ => by rw [items]; exact ensures_refuse
  | fuel + 1, b => by
    rw [items]
    refine Ensures.accept (fun c hc => ?_) ?_
    · cases hc
      exact .pure (by simp)
    · exact (yields_value constant fuel).bind fun v hv => Ensures.bind (ensures_items constant fuel) fun vs => .assume fun hvs =>
        .pure fun hc => List.forall_mem_cons.2 ⟨hv hc, hvs hc⟩

theorem ensures_entries (constant : Bool) : ∀ (fuel : Nat) {b : Nat}, Ensures (·.Within b) (entries constant fuel)
    fun es T => (constant = true → ∀ e ∈ es, isNameText e.1 = true ∧ e.2.Sound b) ∧ T.Within (b + 1)
  | 0, _ => by rw [entries]; exact ensures_refuse
  | fuel + 1, b => by
    rw [entries]
    refine Ensures.accept (fun c hc => ?_) ?_
    · cases hc
      exact .pure (by simp)
    · exact yields_name.bind fun key hkey => (passes_expect rfl).bind fun _ _ => (yields_value constant fuel).bind fun v hv =>
        Ensures.bind (ensures_entries constant fuel) fun es => .assume fun hes =>
          .pure fun hc => List.forall_mem_cons.2 ⟨⟨hkey, hv hc⟩, hes hc⟩

end

/-! ## Directives, arguments and fields -/

theorem passes_directives (fuel : Nat) {b : Nat} : Passes b (directives fuel) := by
  have hargument : ∀ {b : Nat}, Passes b (argument fuel) :=
    yields_name.bind fun _ _ => (passes_expect rfl).bind fun _ _ => (yields_value false fuel).bind fun _ _ => .pure trivial
  have hdirective : Passes b (directive fuel) :=
    (passes_expect rfl).bind fun _ _ => yields_name.bind fun _ _ =>
      (yields_bracketed rfl rfl _ (fun _ _ => hargument) fuel).bind fun _ _ => .pure trivial
  exact (yields_many _ hdirective fuel).passes

/-- The name is one, and the default can be written within a budget. -/
structure InputValue.Sound (i : InputValue) : Prop where
  name : isNameText i.name = true
  default : ∀ v, i.default = some v → v.Sound nestingLimit

structure Field.Sound (f : Field) : Prop where
  name : isNameText f.name = true
  arguments : ∀ a ∈ f.arguments, a.Sound

section

variable {b : Nat} (hb : b ≤ nestingLimit)
include hb

theorem yields_inputValue (fuel : Nat) : Yields b InputValue.Sound (inputValue fuel) := by
  refine passes_description.bind fun _ _ => yields_name.bind fun _ hn => (passes_expect rfl).bind fun _ _ =>
    (passes_typeRef fuel).bind fun _ _ => (passes_accept rfl).bind fun _ _ => Ensures.ite ?_ ?_
  · refine (yields_value true fuel).bind fun v hv => Yields.bind (P := (· = some v)) (.pure rfl) fun d hd =>
      (passes_directives fuel).bind fun _ _ => .pure ⟨hn, fun w hw => ?_⟩
    obtain rfl := Option.some.inj (hd.symm.trans hw)
    exact (hv rfl).mono hb
  · exact Yields.bind (P := (· = none)) (.pure rfl) fun d hd => (passes_directives fuel).bind fun _ _ =>
      .pure ⟨hn, fun w hw => by cases hd.symm.trans hw⟩

theorem yields_arguments (fuel : Nat) : Yields b (∀ a ∈ ·, a.Sound) (arguments fuel) :=
  yields_bracketed rfl rfl _ (fun _ hc => yields_inputValue (by omega) fuel) fuel

theorem yields_field (fuel : Nat) : Yields b Field.Sound (field fuel) :=
  passes_description.bind fun _ _ => yields_name.bind fun _ hn => (yields_arguments hb fuel).bind fun _ ha =>
    (passes_expect rfl).bind fun _ _ => (passes_typeRef fuel).bind fun _ _ => (passes_directives fuel).bind fun _ _ => .pure ⟨hn, ha⟩

theorem yields_fields (fuel : Nat) : Yields b (∀ f ∈ ·, f.Sound) (fields fuel) :=
  yields_bracketed rfl rfl _ (fun _ hc => yields_field (by omega) fuel) fuel

end

theorem passes_enumValue (fuel : Nat) {b : Nat} : Passes b (enumValue fuel) :=
  passes_description.bind fun _ _ => yields_name.bind fun _ _ => (passes_directives fuel).bind fun _ _ => .pure trivial

theorem passes_implemented (fuel : Nat) {b : Nat} : Passes b (implemented fuel) :=
  (passes_accept rfl).bind fun _ _ => (yields_separated (fun _ => rfl) yields_name fuel).passes.ite (.pure trivial)

/-! ## Definitions -/

/-- The fields of an object or an interface. -/
def TypeBody.fields : TypeBody → List Field
  | .object _ fields => fields
  | .interface _ fields => fields
  | _ => []

/-- The members of a union. -/
def TypeBody.members : TypeBody → List String
  | .union members => members
  | _ => []

/-- The fields of an input object. -/
def TypeBody.inputs : TypeBody → List InputValue
  | .input fields => fields
  | _ => []

structure TypeBody.Sound (b : TypeBody) : Prop where
  fields : ∀ f ∈ b.fields, f.Sound
  members : ∀ m ∈ b.members, isNameText m = true
  inputs : ∀ i ∈ b.inputs, i.Sound

structure Definition.Sound (d : Definition) : Prop where
  types : ∀ t, d = .type t → isNameText t.name = true ∧ t.body.Sound
  extensions : ∀ e, d = .extension e → e.body.Sound

section

variable {b : Nat}

theorem yields_namedBody (hb : b ≤ nestingLimit) (fuel : Nat) (k : TypeKeyword) :
    Yields b (fun n => isNameText n.name = true ∧ n.body.Sound) (namedBody fuel k) := by
  cases k with
  | scalar =>
    exact yields_name.bind fun _ hn => (passes_directives fuel).bind fun _ _ =>
      .pure ⟨hn, by constructor <;> simp [TypeBody.fields, TypeBody.members, TypeBody.inputs]⟩
  | object =>
    exact yields_name.bind fun _ hn => (passes_implemented fuel).bind fun _ _ => (passes_directives fuel).bind fun _ _ =>
      (yields_fields hb fuel).bind fun _ hf => .pure ⟨hn, hf, by simp [TypeBody.members], by simp [TypeBody.inputs]⟩
  | interface =>
    exact yields_name.bind fun _ hn => (passes_implemented fuel).bind fun _ _ => (passes_directives fuel).bind fun _ _ =>
      (yields_fields hb fuel).bind fun _ hf => .pure ⟨hn, hf, by simp [TypeBody.members], by simp [TypeBody.inputs]⟩
  | union =>
    refine yields_name.bind fun _ hn => (passes_directives fuel).bind fun _ _ => (passes_accept rfl).bind fun _ _ => Ensures.ite ?_ ?_
    · exact (yields_separated (fun _ => rfl) yields_name fuel).bind fun _ hm =>
        .pure ⟨hn, by simp [TypeBody.fields], hm, by simp [TypeBody.inputs]⟩
    · exact .pure ⟨hn, by constructor <;> simp [TypeBody.fields, TypeBody.members, TypeBody.inputs]⟩
  | enum =>
    exact yields_name.bind fun _ hn => (passes_directives fuel).bind fun _ _ =>
      (yields_bracketed rfl rfl _ (fun _ _ => passes_enumValue fuel) fuel).bind fun _ _ =>
        .pure ⟨hn, by constructor <;> simp [TypeBody.fields, TypeBody.members, TypeBody.inputs]⟩
  | input =>
    exact yields_name.bind fun _ hn => (passes_directives fuel).bind fun _ _ =>
      (yields_bracketed rfl rfl _ (fun _ hc => yields_inputValue (by omega) fuel) fuel).bind fun _ hi =>
        .pure ⟨hn, by simp [TypeBody.fields], by simp [TypeBody.members], hi⟩

theorem passes_schemaBlock (fuel : Nat) (place : Position) : Passes b (schemaBlock fuel place) := by
  have hentry : ∀ {b : Nat}, Passes b rootEntry :=
    yields_name.bind fun _ _ => (passes_expect rfl).bind fun _ _ => yields_name.bind fun _ _ => .pure trivial
  refine (passes_directives fuel).bind fun _ _ => Ensures.expect fun c hc => (yields_many _ hentry fuel).bind fun _ _ =>
    Ensures.expect fun d hd => ?_
  cases hd
  rw [Lexer.spend_open rfl hc]
  split
  · exact .pure trivial
  · exact ensures_refuseAt _

theorem passes_directiveDefinition (hb : b ≤ nestingLimit) (fuel : Nat) (text : Option String) :
    Passes b (directiveDefinition fuel text) := by
  have hlocation : Passes b location :=
    passes_here.bind fun _ _ => yields_name.bind fun _ _ => (Ensures.pure trivial).ite (ensures_refuseAt _)
  refine (passes_expect rfl).bind fun _ _ => yields_name.bind fun _ _ => (yields_arguments hb fuel).bind fun _ _ =>
    (passes_accept rfl).bind fun _ _ => (passes_expect rfl).bind fun _ _ => passes_peek.bind fun _ _ => ?_
  split
  · exact (yields_separated (fun _ => rfl) hlocation fuel).bind fun _ _ => .pure trivial
  · exact (yields_separated (fun _ => rfl) hlocation fuel).bind fun _ _ => .pure trivial
  · exact .pure trivial

theorem yields_described (hb : b ≤ nestingLimit) (fuel : Nat) (text : Option String) :
    Yields b Definition.Sound (described fuel text) := by
  refine Ensures.peek (fun t _ => ?_) ensures_refuse
  cases t with
  | name keyword =>
    dsimp only
    split
    · refine Ensures.skip fun c hc => ?_
      cases hc
      refine (yields_namedBody hb fuel _).bind fun n hn => .pure ⟨fun t ht => ?_, by simp⟩
      cases ht
      exact hn
    · refine Ensures.ite (Ensures.skip fun c hc => ?_) ensures_refuse
      cases hc
      exact (passes_directiveDefinition hb fuel text).bind fun _ _ => .pure ⟨by simp, by simp⟩
  | _ => exact ensures_refuse

theorem yields_extension (hb : b ≤ nestingLimit) (fuel : Nat) : Yields b (·.body.Sound) (extension fuel) := by
  refine passes_here.bind fun _ _ => yields_name.bind fun _ _ => ?_
  split
  · exact (yields_namedBody hb fuel _).bind fun _ hn => Ensures.ite (.pure hn.2) (ensures_refuseAt _)
  · exact ensures_refuseAt _

theorem yields_definition (hb : b ≤ nestingLimit) (fuel : Nat) : Yields b Definition.Sound (definition fuel) := by
  have hdescribed : Yields b Definition.Sound (do described fuel (← description)) :=
    passes_description.bind fun text _ => yields_described hb fuel text
  refine passes_here.bind fun _ _ => Ensures.peek (fun t _ => ?_) hdescribed
  split
  · rename_i h
    refine Ensures.skip fun c hc => ?_
    cases h
    cases hc
    exact (passes_schemaBlock fuel _).bind fun _ _ => .pure ⟨by simp, by simp⟩
  · rename_i h
    refine Ensures.skip fun c hc => ?_
    cases h
    cases hc
    refine (yields_extension hb fuel).bind fun e he => .pure ⟨by simp, fun x hx => ?_⟩
    cases hx
    exact he
  · exact hdescribed.stay

theorem yields_document (hb : b ≤ nestingLimit) : ∀ fuel, Yields b (∀ d ∈ ·, d.Sound) (document fuel)
  | 0 => ensures_refuse
  | fuel + 1 => by
    have hget : Passes b (get : Reader Tokens) := fun T x T' h hT => by cases h; exact ⟨trivial, hT⟩
    refine (yields_definition hb fuel).bind fun d hd => hget.bind fun _ _ => ?_
    split
    · exact .pure (by simpa using hd)
    · exact (yields_document hb fuel).bind fun _ hds => .pure (List.forall_mem_cons.2 ⟨hd, hds⟩)

end

/-- What is read as a document is sound. -/
theorem parse_sound {text : String} {d : Document} (h : parse text = .ok d) : ∀ e ∈ d, e.Sound := by
  unfold parse at h
  simp only [bind, Except.bind] at h
  split at h
  · cases h
  · rename_i p hp
    cases h
    exact (yields_document (Nat.le_refl _) _ _ p.1 p.2 hp (Lexer.tokensFrom_within _ _ _ _)).1

/-! ## Field names -/

/-- The names of the fields are texts of names. -/
def TypeBody.Named (b : TypeBody) : Prop := ∀ f ∈ b.fields, isNameText f.name = true

def Definition.Named : Definition → Prop
  | .type t => t.body.Named
  | .extension e => e.body.Named
  | _ => True

/-- The fields of a document that was read have texts of names as their names. -/
theorem parse_named {text : String} {d : Document} (h : parse text = .ok d) : ∀ e ∈ d, e.Named := by
  intro e he
  have hsound := parse_sound h e he
  cases e with
  | type t => exact fun f hf => ((hsound.types t rfl).2.fields f hf).name
  | extension x => exact fun f hf => ((hsound.extensions x rfl).fields f hf).name
  | _ => trivial

end GraphqlCodegen.Sdl
