import GraphqlCodegen.Proofs.Introspection.Meaning

/-!
# The tokens of what is written

Each printer succeeds on what is well formed, and what it writes is made up of the tokens that are
given here beside it (`Writes`); the brackets among them fit into the room that well-formedness
leaves (`Nests`). The text of a part may be followed by anything that begins apart from it.
-/

namespace GraphqlCodegen.Introspection

open Sdl (Token typeTokens isWritable constant? constantTokens nestingLimit)
open Sdl.Reader (bracketTokens separatedTokens)
open Sdl.Lexer

/-! ## References -/

theorem TypeRef.type_named {kind : Kind} {name : String} {ofType : Option TypeRef} (hl : kind ≠ .list)
    (hn : kind ≠ .nonNull) : (TypeRef.mk kind (some name) ofType).type = .named name := by
  cases kind <;> first | rfl | exact absurd rfl hl | exact absurd rfl hn

theorem TypeRef.text_named {kind : Kind} {name : String} {ofType : Option TypeRef} (hl : kind ≠ .list)
    (hn : kind ≠ .nonNull) : (TypeRef.mk kind (some name) ofType).text = .ok name := by
  cases kind <;> first | rfl | exact absurd rfl hl | exact absurd rfl hn

/-- A well-formed reference is written as the tokens of its type. -/
theorem TypeRef.WellFormed.writes {room : Nat} {r : TypeRef} (h : r.WellFormed room) :
    isWritable r.type = true ∧ Nests room (typeTokens r.type) ∧
      ∃ text, r.text = .ok text ∧ Writes text (typeTokens r.type) := by
  induction h with
  | named hl hn hname =>
    rw [type_named hl hn]
    exact ⟨rfl, Nests.nil.cons rfl, _, text_named hl hn, Writes.name hname⟩
  | @list room name inner _ ih =>
    obtain ⟨hw, hn, text, ht, hs⟩ := ih
    refine ⟨hw, hn.bracket rfl rfl, "[" ++ text ++ "]", ?_, hs.bracket rfl rfl⟩
    rw [TypeRef.text, ht]
    rfl
  | @nonNull room name inner hk hi ih =>
    obtain ⟨hw, hn, text, ht, hs⟩ := ih
    refine ⟨?_, hn.append (Nests.nil.cons rfl), text ++ "!", ?_, fun rest us hb hr => ?_⟩
    · cases hi with
      | named h1 h2 _ => rw [TypeRef.type, type_named h1 h2]; rfl
      | list _ => exact hw
      | nonNull _ _ => exact absurd rfl hk
    · rw [TypeRef.text, ht]; rfl
    · have h := @hs ('!' :: rest) _ rfl (Lexes.mark (c := '!') rfl hr)
      simpa [TypeRef.type, typeTokens] using h

/-- A plain reference is written as its name. -/
theorem TypeRef.IsPlain.text {r : TypeRef} (h : r.IsPlain) :
    r.text = .ok r.type.baseName ∧ isNameText r.type.baseName = true := by
  obtain ⟨hr, hk⟩ := h
  cases hr with
  | named hl hn hname => rw [type_named hl hn, text_named hl hn]; exact ⟨rfl, hname⟩
  | nonNull _ _ => exact absurd rfl hk

/-! ## Descriptions and deprecations -/

def descriptionTokens (indent : String) (description : Option String) : List Token :=
  (readDescription indent description).toList.map .string

theorem readDescription_some {indent d : String} (hd : d ≠ "") :
    readDescription indent (some d) = some (Sdl.BlockString.writtenValue indent.toList d) := by
  unfold readDescription; split <;> simp_all

theorem descriptionText_some {indent d : String} (hd : d ≠ "") :
    descriptionText (some d) indent = String.ofList (Sdl.BlockString.written indent.toList d.toList) := by
  unfold descriptionText; split <;> simp_all

theorem descriptionText_writes {indent : String} (hi : ∀ c ∈ indent.toList, c = ' ') (description : Option String) :
    WritesLine (descriptionText description indent) (descriptionTokens indent description) := by
  intro rest us hr
  cases description with
  | none => exact hr
  | some d =>
    by_cases hd : d = ""
    · subst hd; exact hr
    · rw [descriptionText_some hd, String.toList_ofList, descriptionTokens, readDescription_some hd]
      exact Lexes.written hi d hr

theorem nests_description (room : Nat) (indent : String) (description : Option String) :
    Nests room (descriptionTokens indent description) := by
  unfold descriptionTokens
  cases readDescription indent description with
  | none => exact Nests.nil
  | some s => exact Nests.nil.cons rfl

/-- The directives behind a deprecated member: one, with the reason that it states. -/
def deprecations (isDeprecated : Bool) (reason : Option String) : List (Option String) :=
  if isDeprecated then [reason.filter (· ≠ defaultReason)] else []

def reasonTokens (r : String) : List Token := [.name "reason", .mark ':', .string (quotedValue r)]

def deprecatedTokens (reason : Option String) : List Token :=
  .mark '@' :: .name "deprecated" :: bracketTokens '(' ')' reasonTokens reason.toList

def deprecationTokens (isDeprecated : Bool) (reason : Option String) : List Token :=
  (deprecations isDeprecated reason).flatMap deprecatedTokens

theorem deprecationText_writes (isDeprecated : Bool) (reason : Option String) :
    Writes (deprecationText isDeprecated reason) (deprecationTokens isDeprecated reason) := by
  intro rest us hb hr
  have hbare : Lexes (" @deprecated".toList ++ rest) (.mark '@' :: .name "deprecated" :: us) :=
    .blank rfl (Lexes.mark rfl (@Lexes.name "deprecated" rest us rfl hb hr))
  unfold deprecationText deprecationTokens deprecations
  cases isDeprecated with
  | false => exact hr
  | true =>
    cases reason with
    | none => exact hbare
    | some r =>
      by_cases hd : r = defaultReason
      · simp only [hd, Bool.not_true, Bool.false_eq_true, if_true, if_false, Option.filter]
        exact hbare
      · have hq := @Lexes.quoted r (')' :: rest) _ rfl (Lexes.mark (c := ')') rfl hr)
        have hn := @Lexes.name "reason" (':' :: ' ' :: _) _ rfl rfl (Lexes.mark rfl (.blank rfl hq))
        have hp := @Lexes.name "deprecated" ('(' :: _) _ rfl rfl (Lexes.mark rfl hn)
        have h := Lexes.blank (c := ' ') rfl (Lexes.mark (c := '@') rfl hp)
        simpa [hd, Option.filter, deprecatedTokens, bracketTokens, reasonTokens] using h

theorem atBoundary_deprecation (isDeprecated : Bool) (reason : Option String) (rest : List Char) :
    atBoundary ((deprecationText isDeprecated reason).toList ++ '\n' :: rest) = true := by
  unfold deprecationText
  split
  · rfl
  · cases reason with
    | none => rfl
    | some r =>
      by_cases hd : r = defaultReason
      · simp only [hd, if_true]; rfl
      · simp only [hd, if_false]
        rw [String.toList_append, String.toList_append, List.append_assoc, List.append_assoc]
        rfl

/-! ## Several parts -/

/-- If each part can be printed, all can. -/
theorem mapM_printed {α : Type} {f : α → Printer String} {P : α → String → Prop} :
    ∀ {xs : List α}, (∀ x ∈ xs, ∃ t, f x = .ok t ∧ P x t) →
      ∃ g : α → String, xs.mapM f = .ok (xs.map g) ∧ ∀ x ∈ xs, P x (g x) := by
  intro xs h
  refine ⟨fun x => match f x with | .ok t => t | .error _ => "", ?_, fun x hx => ?_⟩
  · induction xs with
    | nil => rfl
    | cons x xs ih =>
      obtain ⟨t, ht, -⟩ := h x (by simp)
      rw [List.mapM_cons, ih fun y hy => h y (by simp [hy]), ht]
      simp only [List.map_cons, ht]
      rfl
  · obtain ⟨t, ht, hp⟩ := h x hx
    simp only [ht]
    exact hp

/-! ## Values and members -/

def defaultTokens : Option String → List Token
  | some d => .mark '=' :: constantTokens d
  | none => []

def InputValue.tokens (v : InputValue) : List Token :=
  .name v.name :: .mark ':' :: (typeTokens v.type.type ++ defaultTokens v.defaultValue)

theorem IsConstant.spec {room : Nat} {d : String} (hr : room ≤ nestingLimit) (h : IsConstant room d) :
    Lexes d.toList (constantTokens d) ∧ Nests room (constantTokens d) ∧
      ∃ x, constant? d = some x ∧ Sdl.ReadsLocally (Sdl.value true) (constantTokens d) x := by
  obtain ⟨⟨ts, hl, hn⟩, hc⟩ := h
  obtain ⟨x, hx⟩ := Option.isSome_iff_exists.1 hc
  have hlim := Nat.le_trans hn hr
  have ht : constantTokens d = ts := (Sdl.Tokens.ofText_spells hl hlim).toList
  obtain ⟨hb, hread⟩ := Sdl.reads_constant hl hlim hx
  rw [ht]
  exact ⟨hl, ⟨hb, hn⟩, x, hx, hread⟩

theorem InputValue.WellFormed.writes {room : Nat} {v : InputValue} (hr : room ≤ nestingLimit)
    (h : v.WellFormed room) : Nests room v.tokens ∧ ∃ text, v.text = .ok text ∧ Writes text v.tokens := by
  obtain ⟨-, hn, type, ht, hs⟩ := h.type.writes
  cases hd : v.defaultValue with
  | none =>
    refine ⟨?_, v.name ++ ": " ++ type ++ "", by rw [InputValue.text, ht, hd]; rfl, fun rest us hb hu => ?_⟩
    · rw [InputValue.tokens, hd, defaultTokens, List.append_nil]
      exact (hn.cons rfl).cons rfl
    · have h1 := @Lexes.name v.name _ _ h.name rfl (Lexes.mark (c := ':') rfl (.blank (c := ' ') rfl (hs hb hu)))
      simpa [InputValue.tokens, hd, defaultTokens] using h1
  | some d =>
    obtain ⟨hl, hnd, -⟩ := (h.default d hd).spec hr
    refine ⟨?_, v.name ++ ": " ++ type ++ (" = " ++ d), by rw [InputValue.text, ht, hd]; rfl, fun rest us hb hu => ?_⟩
    · rw [InputValue.tokens, hd, defaultTokens]
      exact ((hn.append (hnd.cons rfl)).cons rfl).cons rfl
    · have h1 := hl.append hb hu
      have h2 := Lexes.blank (c := ' ') rfl (Lexes.mark (c := '=') rfl (.blank (c := ' ') rfl h1))
      have h3 := @Lexes.name v.name _ _ h.name rfl (Lexes.mark (c := ':') rfl (.blank (c := ' ') rfl (hs rfl h2)))
      simpa [InputValue.tokens, hd, defaultTokens] using h3

theorem nests_bracketTokens {room : Nat} {l r : Char} (hl : isOpening l = true) (hr : isClosing r = true) {xs : List α}
    (h : ∀ x ∈ xs, Nests room (tok x)) : Nests (room + 1) (bracketTokens l r tok xs) := by
  cases xs with
  | nil => exact Nests.nil
  | cons x xs => exact (Nests.flatMap h).bracket hl hr

theorem nests_deprecation (room : Nat) (isDeprecated : Bool) (reason : Option String) :
    Nests (room + 1) (deprecationTokens isDeprecated reason) := by
  refine Nests.flatMap fun r _ => Nests.cons rfl (Nests.cons rfl ?_)
  exact nests_bracketTokens rfl rfl fun _ _ => ((Nests.nil.cons rfl).cons rfl).cons rfl

/-- What is written for arguments stays apart from the name in front of it. -/
theorem arguments_writes {room : Nat} (hr : room ≤ nestingLimit) {args : List InputValue}
    (h : ∀ a ∈ args, a.WellFormed room) :
    ∃ text, argumentsText args = .ok text ∧ Writes text (bracketTokens '(' ')' InputValue.tokens args) ∧
      ∀ rest, atBoundary rest = true → atBoundary (text.toList ++ rest) = true := by
  cases args with
  | nil => exact ⟨"", rfl, fun _ _ _ hu => hu, fun _ hb => hb⟩
  | cons a as =>
    obtain ⟨g, hg, hw⟩ := mapM_printed fun x hx => ((h x hx).writes hr).2
    refine ⟨"(" ++ Text.joined ", " ((a :: as).map g) ++ ")", ?_, (commas_writes hw).bracket rfl rfl, fun rest _ => ?_⟩
    · rw [argumentsText, hg]; rfl
    · rw [String.toList_append, String.toList_append]; rfl

def Field.tokens (f : Field) : List Token :=
  descriptionTokens "  " f.description ++ .name f.name :: (bracketTokens '(' ')' InputValue.tokens f.args ++
    .mark ':' :: (typeTokens f.type.type ++ deprecationTokens f.isDeprecated f.deprecationReason))

theorem indent_blank : ∀ c ∈ "  ".toList, c = ' ' := by simp

theorem Field.WellFormed.writes {f : Field} (h : f.WellFormed) :
    Nests (nestingLimit - 1) f.tokens ∧ ∃ text, f.text = .ok text ∧ WritesLine text f.tokens := by
  obtain ⟨args, ha, hwa, hba⟩ := arguments_writes (by decide) h.args
  obtain ⟨-, hn, type, ht, hwt⟩ := h.type.writes
  refine ⟨?_, _, by rw [Field.text, ha, ht]; rfl, fun rest us hu => ?_⟩
  · have hargs : Nests (nestingLimit - 1) (bracketTokens '(' ')' InputValue.tokens f.args) :=
      nests_bracketTokens rfl rfl fun a hm => ((h.args a hm).writes (by decide)).1
    have hd : Nests (nestingLimit - 1) (deprecationTokens f.isDeprecated f.deprecationReason) := nests_deprecation _ _ _
    exact (nests_description _ _ _).append ((hargs.append ((hn.append hd).cons rfl)).cons rfl)
  · have h1 := @deprecationText_writes f.isDeprecated f.deprecationReason ('\n' :: rest) _ rfl (.blank rfl hu)
    have h2 := hwt (atBoundary_deprecation _ _ _) h1
    have h3 := @hwa (':' :: ' ' :: _) _ rfl (Lexes.mark rfl (.blank rfl h2))
    have h4 := Lexes.name h.name (hba _ rfl) h3
    have h5 := descriptionText_writes indent_blank f.description (.blank (c := ' ') rfl (.blank (c := ' ') rfl h4))
    simpa [Field.tokens] using h5

def EnumValue.tokens (v : EnumValue) : List Token :=
  descriptionTokens "  " v.description ++ .name v.name :: deprecationTokens v.isDeprecated v.deprecationReason

theorem EnumValue.WellFormed.writes {v : EnumValue} (h : v.WellFormed) :
    Nests (nestingLimit - 1) v.tokens ∧ WritesLine v.text v.tokens := by
  refine ⟨?_, fun rest us hu => ?_⟩
  · have hd : Nests (nestingLimit - 1) (deprecationTokens v.isDeprecated v.deprecationReason) := nests_deprecation _ _ _
    exact (nests_description _ _ _).append (hd.cons rfl)
  · have h1 := @deprecationText_writes v.isDeprecated v.deprecationReason ('\n' :: rest) _ rfl (.blank rfl hu)
    have h2 := Lexes.name h.name (atBoundary_deprecation _ _ _) h1
    have h3 := descriptionText_writes indent_blank v.description (.blank (c := ' ') rfl (.blank (c := ' ') rfl h2))
    simpa [EnumValue.tokens, EnumValue.text] using h3

def inputFieldTokens (v : InputValue) : List Token := descriptionTokens "  " v.description ++ v.tokens

theorem InputField.WellFormed.writes {v : InputValue} (h : InputField.WellFormed v) :
    Nests (nestingLimit - 1) (inputFieldTokens v) ∧
      ∃ text, inputFieldText v = .ok text ∧ WritesLine text (inputFieldTokens v) := by
  obtain ⟨hn, text, ht, hw⟩ := h.value.writes (by decide)
  refine ⟨(nests_description _ _ _).append hn, _, by rw [inputFieldText, ht]; rfl, fun rest us hu => ?_⟩
  have h1 := @hw ('\n' :: rest) _ rfl (.blank rfl hu)
  have h2 := descriptionText_writes indent_blank v.description (.blank (c := ' ') rfl (.blank (c := ' ') rfl h1))
  simpa [inputFieldTokens] using h2

/-! ## Types -/

theorem plain_texts {refs : List TypeRef} (h : ∀ r ∈ refs, r.IsPlain) :
    refs.mapM TypeRef.text = .ok (refs.map fun r => r.type.baseName) := by
  induction refs with
  | nil => rfl
  | cons r rs ih =>
    rw [List.mapM_cons, (h r (by simp)).text.1, ih fun s hs => h s (by simp [hs])]
    rfl

/-- The tokens of names with a mark between each two. -/
def namesTokens (sep : Char) (names : List String) : List Token := separatedTokens sep (fun n => [.name n]) names

theorem nests_names {room : Nat} {sep : Char} (hs : isBracket (.mark sep) = false) (names : List String) :
    Nests room (namesTokens sep names) := by
  cases names with
  | nil => exact Nests.nil
  | cons n ns => exact (Nests.flatMap fun m _ => (Nests.nil.cons rfl).cons hs).cons rfl

theorem names_writes {sep : String} {c : Char} (hb : ∀ rest, atBoundary (sep.toList ++ rest) = true)
    (hs : WritesLine sep [.mark c]) {names : List String} (hne : names ≠ []) (h : ∀ n ∈ names, isNameText n = true) :
    Writes (Text.joined sep names) (namesTokens c names) := by
  cases names with
  | nil => exact absurd rfl hne
  | cons n ns =>
    have hw : ∀ m ∈ n :: ns, Writes (id m) [.name m] := fun m hm => Writes.name (h m hm)
    have hj : Writes (Text.joined sep ((n :: ns).map id)) _ := joined_writes hb hs hw
    rw [List.map_id] at hj
    exact hj

def implementsTokens : List String → List Token
  | [] => []
  | n :: ns => .name "implements" :: namesTokens '&' (n :: ns)

theorem nests_implements {room : Nat} (names : List String) : Nests room (implementsTokens names) := by
  cases names with
  | nil => exact Nests.nil
  | cons n ns => exact (nests_names rfl _).cons rfl

theorem implements_writes {refs : Option (List TypeRef)} (h : ∀ r ∈ refs.getD [], r.IsPlain) :
    ∃ text, implementsText (refs.getD []) = .ok text ∧ Writes text (implementsTokens (namesOf refs)) ∧
      ∀ rest, atBoundary rest = true → atBoundary (text.toList ++ rest) = true := by
  have hnames : ∀ n ∈ namesOf refs, isNameText n = true := by
    intro n hn
    obtain ⟨r, hr, rfl⟩ := List.mem_map.1 hn
    exact (h r hr).text.2
  have ht : implementsText (refs.getD []) =
      .ok (if (namesOf refs).isEmpty then "" else " implements " ++ Text.joined " & " (namesOf refs)) := by
    rw [implementsText, plain_texts h]; rfl
  rw [ht]
  cases hn : namesOf refs with
  | nil => exact ⟨"", rfl, fun _ _ _ hu => hu, fun _ hb => hb⟩
  | cons n ns =>
    rw [hn] at hnames
    have hsep : WritesLine " & " [.mark '&'] := fun _ _ hu => .blank rfl (Lexes.mark rfl (.blank rfl hu))
    refine ⟨_, rfl, fun rest us hb hu => ?_, fun rest _ => ?_⟩
    · have h1 := names_writes (fun _ => rfl) hsep (by simp) hnames hb hu
      have h2 := Lexes.blank (c := ' ') rfl (@Lexes.name "implements" (' ' :: _) _ rfl rfl (.blank rfl h1))
      simpa [implementsTokens] using h2
    · simp only [List.isEmpty_cons, Bool.false_eq_true, if_false, String.toList_append]; rfl

theorem braced_writes {head : String} {ts : List Token} {members : List String} {ms : List Token} (hh : Writes head ts)
    (hm : WritesLine (Text.concat members) ms) :
    WritesLine (bracedText head members) (ts ++ .mark '\x7b' :: (ms ++ [.mark '\x7d'])) := by
  intro rest us hu
  have h1 := hm (Lexes.mark (c := '\x7d') rfl (.blank (c := '\n') rfl hu))
  have h2 := hh rfl (Lexes.blank (c := ' ') rfl (Lexes.mark (c := '\x7b') rfl (.blank (c := '\n') rfl h1)))
  simpa [bracedText] using h2

/-- The tokens of a type with members between braces. -/
def bracedTokens (keyword name : String) (interfaces : List String) (tok : α → List Token) (members : List α) : List Token :=
  .name keyword :: .name name :: (implementsTokens interfaces ++ bracketTokens '\x7b' '\x7d' tok members)

theorem nests_braced {keyword name : String} {interfaces : List String} {members : List α}
    (h : ∀ m ∈ members, Nests (nestingLimit - 1) (tok m)) : Nests nestingLimit (bracedTokens keyword name interfaces tok members) :=
  (((nests_implements _).append (nests_bracketTokens (by decide) (by decide) h)).cons rfl).cons rfl

/-- A keyword with a blank behind it, a name, and text that stays apart from the name. -/
theorem head_writes {head keyword name text : String} {ts : List Token} (hh : head.toList = keyword.toList ++ [' '])
    (hk : isNameText keyword = true) (hn : isNameText name = true)
    (hb : ∀ rest, atBoundary rest = true → atBoundary (text.toList ++ rest) = true) (hw : Writes text ts) :
    Writes (head ++ name ++ text) (.name keyword :: .name name :: ts) := by
  intro rest us hr hu
  have h1 := Lexes.name hn (hb _ hr) (hw hr hu)
  have h2 := @Lexes.name keyword (' ' :: _) _ hk rfl (.blank rfl h1)
  simpa [hh] using h2

/-- A type with braces is written as its tokens if its members are. -/
theorem type_writes {head keyword name text : String} {interfaces : List String} {members : List α}
    (hh : head.toList = keyword.toList ++ [' ']) (hk : isNameText keyword = true) (hn : isNameText name = true)
    (hm : members ≠ []) (hb : ∀ rest, atBoundary rest = true → atBoundary (text.toList ++ rest) = true)
    (hw : Writes text (implementsTokens interfaces)) (h : ∀ x ∈ members, WritesLine (g x) (tok x)) :
    WritesLine (bracedText (head ++ name ++ text) (members.map g))
      (bracedTokens keyword name interfaces tok members) := by
  have hs := braced_writes (head_writes hh hk hn hb hw) (concat_writes h)
  cases members with
  | nil => exact absurd rfl hm
  | cons x xs => simpa [bracedTokens, bracketTokens] using hs

theorem bare_writes {head keyword name : String} {members : List α} (hh : head.toList = keyword.toList ++ [' '])
    (hk : isNameText keyword = true) (hn : isNameText name = true) (hm : members ≠ [])
    (h : ∀ x ∈ members, WritesLine (g x) (tok x)) :
    WritesLine (bracedText (head ++ name) (members.map g)) (bracedTokens keyword name [] tok members) := by
  have hnone : Writes "" (implementsTokens []) := fun _ _ _ hu => hu
  have hw := type_writes hh hk hn hm (fun _ hb => by rwa [String.toList_empty]) hnone h
  rwa [String.append_empty] at hw

namespace FullType

/-- The tokens behind a type's description. -/
def bodyTokens (t : FullType) : List Token :=
  match t.kind with
  | .object => bracedTokens "type" t.name (namesOf t.interfaces) Field.tokens (t.fields.getD [])
  | .interface => bracedTokens "interface" t.name (namesOf t.interfaces) Field.tokens (t.fields.getD [])
  | .union => .name "union" :: .name t.name :: .mark '=' :: namesTokens '|' (namesOf t.possibleTypes)
  | .enum => bracedTokens "enum" t.name [] EnumValue.tokens (t.enumValues.getD [])
  | .inputObject => bracedTokens "input" t.name [] inputFieldTokens (t.inputFields.getD [])
  | .scalar | .list | .nonNull => [.name "scalar", .name t.name]

def tokens (t : FullType) : List Token := descriptionTokens "" t.description ++ t.bodyTokens

theorem WellFormed.nests {t : FullType} (h : t.WellFormed) : Nests nestingLimit t.tokens := by
  refine (nests_description _ _ _).append ?_
  have hm := h.members
  unfold MembersWellFormed at hm
  unfold bodyTokens
  cases hk : t.kind <;> rw [hk] at hm <;> simp only at hm ⊢
  case scalar => exact (Nests.nil.cons rfl).cons rfl
  case object => exact nests_braced fun f hf => (hm.2.2 f hf).writes.1
  case interface => exact nests_braced fun f hf => (hm.2.2 f hf).writes.1
  case union => exact (((nests_names rfl _).cons rfl).cons rfl).cons rfl
  case enum => exact nests_braced fun v hv => (hm.2 v hv).writes.1
  case inputObject => exact nests_braced fun v hv => (hm.2 v hv).writes.1

/-- A well-formed type is written, and what is written is made up of its tokens. -/
theorem WellFormed.writes {t : FullType} (h : t.WellFormed) :
    ∃ text, t.text = .ok text ∧ WritesLine text t.tokens := by
  have hname := h.name
  suffices hs : ∃ body, t.text = .ok (descriptionText t.description "" ++ body) ∧ WritesLine body t.bodyTokens by
    obtain ⟨body, ht, hw⟩ := hs
    refine ⟨_, ht, fun rest us hu => ?_⟩
    have hi : ∀ c ∈ "".toList, c = ' ' := by simp
    have hd := descriptionText_writes hi t.description (hw hu)
    simpa [tokens] using hd
  have hm := h.members
  unfold MembersWellFormed at hm
  unfold bodyTokens text
  cases hk : t.kind <;> rw [hk] at hm <;> simp only at hm ⊢
  case scalar =>
    refine ⟨_, rfl, fun rest us hu => ?_⟩
    have h1 := @Lexes.name _ ('\n' :: rest) _ hname rfl (.blank rfl hu)
    have h2 := @Lexes.name "scalar" (' ' :: _) _ rfl rfl (.blank rfl h1)
    simpa using h2
  case object =>
    obtain ⟨text, ht, hw, hb⟩ := implements_writes hm.1
    obtain ⟨g, hg, hf⟩ := mapM_printed fun f hf => (hm.2.2 f hf).writes.2
    exact ⟨_, by rw [ht, hg]; rfl, type_writes (by decide) rfl hname hm.2.1 hb hw hf⟩
  case interface =>
    obtain ⟨text, ht, hw, hb⟩ := implements_writes hm.1
    obtain ⟨g, hg, hf⟩ := mapM_printed fun f hf => (hm.2.2 f hf).writes.2
    exact ⟨_, by rw [ht, hg]; rfl, type_writes (by decide) rfl hname hm.2.1 hb hw hf⟩
  case union =>
    have hne : namesOf t.possibleTypes ≠ [] := by simpa [namesOf] using hm.1
    have hnames : ∀ n ∈ namesOf t.possibleTypes, isNameText n = true := by
      intro n hn
      obtain ⟨r, hr, rfl⟩ := List.mem_map.1 hn
      exact (hm.2 r hr).text.2
    have hsep : WritesLine " | " [.mark '|'] := fun _ _ hu => .blank rfl (Lexes.mark rfl (.blank rfl hu))
    refine ⟨_, by rw [plain_texts hm.2]; rfl, fun rest us hu => ?_⟩
    have h1 := @names_writes _ _ (fun _ => rfl) hsep _ hne hnames ('\n' :: rest) _ rfl (.blank rfl hu)
    have h2 := @Lexes.name _ (' ' :: _) _ hname rfl (.blank rfl (Lexes.mark (c := '=') rfl (.blank (c := ' ') rfl h1)))
    have h3 := @Lexes.name "union" (' ' :: _) _ rfl rfl (.blank rfl h2)
    simpa [namesOf] using h3
  case enum =>
    exact ⟨_, rfl, bare_writes (by decide) rfl hname hm.1 fun v hv => (hm.2 v hv).writes.2⟩
  case inputObject =>
    obtain ⟨g, hg, hf⟩ := mapM_printed fun v hv => (hm.2 v hv).writes.2
    exact ⟨_, by rw [hg]; rfl, bare_writes (by decide) rfl hname hm.1 hf⟩

end FullType

/-! ## Schemas -/

/-- Parts that end their lines, with blank lines between them. -/
theorem parts_write : ∀ {xs : List α}, (∀ x ∈ xs, WritesLine (g x) (tok x)) →
    WritesLine (Text.joined "\n" (xs.map g)) (xs.flatMap tok)
  | [], _ => fun _ _ hr => hr
  | [x], h => by
    intro rest us hr
    have hx := h x (by simp) hr
    simpa [Text.joined] using hx
  | x :: y :: ys, h => by
    intro rest us hr
    have hys : ∀ z ∈ y :: ys, WritesLine (g z) (tok z) := fun z hz => h z (List.mem_cons_of_mem _ hz)
    have hx := h x (by simp) (.blank (c := '\n') rfl (parts_write hys hr))
    simpa [Text.joined] using hx

namespace Schema

/-- The operations that start from a type, with its name. -/
def rootEntries (s : Schema) : List (String × String) :=
  s.roots.filterMap fun (operation, _, root) => root.map (operation, ·)

def rootText (e : String × String) : String := "  " ++ e.1 ++ ": " ++ e.2 ++ "\n"

def rootTokens (e : String × String) : List Token := [.name e.1, .mark ':', .name e.2]

def blockTokens (s : Schema) : List Token :=
  .name "schema" :: .mark '\x7b' :: (s.rootEntries.flatMap rootTokens ++ [.mark '\x7d'])

def tokens (s : Schema) : List Token :=
  (if s.needsBlock then s.blockTokens else []) ++ s.printed.flatMap FullType.tokens

theorem blockText_eq (s : Schema) : s.blockText = bracedText "schema" (s.rootEntries.map rootText) := by
  unfold blockText rootEntries
  rw [List.map_filterMap]
  congr 2
  funext e
  rw [Option.map_map]
  rfl

theorem WellFormed.rootEntries {s : Schema} (h : s.WellFormed) :
    ∀ e ∈ s.rootEntries, isNameText e.1 = true ∧ isNameText e.2 = true := by
  intro e he
  obtain ⟨⟨op, d, root⟩, hr, hroot⟩ := List.mem_filterMap.1 he
  obtain ⟨n, hn, rfl⟩ := Option.map_eq_some_iff.1 hroot
  simp only [roots, List.mem_cons, List.not_mem_nil, or_false, Prod.mk.injEq] at hr
  show isNameText op = true ∧ isNameText n = true
  rcases hr with ⟨rfl, rfl, rfl⟩ | ⟨rfl, rfl, rfl⟩ | ⟨rfl, rfl, rfl⟩
  · exact ⟨by decide, h.query n hn⟩
  · exact ⟨by decide, h.mutation n hn⟩
  · exact ⟨by decide, h.subscription n hn⟩

theorem nests_block (s : Schema) : Nests nestingLimit s.blockTokens := by
  have he : ∀ e ∈ s.rootEntries, Nests (nestingLimit - 1) (rootTokens e) :=
    fun e _ => ((Nests.nil.cons rfl).cons rfl).cons rfl
  exact ((Nests.flatMap he).bracket (by decide) (by decide)).cons rfl

theorem WellFormed.block_writes {s : Schema} (h : s.WellFormed) : WritesLine s.blockText s.blockTokens := by
  have he : ∀ e ∈ s.rootEntries, WritesLine (rootText e) (rootTokens e) := by
    intro e he rest us hu
    obtain ⟨h1, h2⟩ := h.rootEntries e he
    have h3 := @Lexes.name e.2 ('\n' :: rest) _ h2 rfl (.blank rfl hu)
    have h4 := @Lexes.name e.1 (':' :: ' ' :: _) _ h1 rfl (Lexes.mark rfl (.blank rfl h3))
    have h5 := Lexes.blank (c := ' ') rfl (.blank (c := ' ') rfl h4)
    simpa [rootText, rootTokens] using h5
  rw [blockText_eq]
  exact braced_writes (Writes.name (by decide)) (concat_writes he)

/-- A well-formed schema is written, and what is written is made up of its tokens. -/
theorem WellFormed.writes {s : Schema} (h : s.WellFormed) :
    Nests nestingLimit s.tokens ∧ ∃ text, s.toSdl = .ok text ∧ Lexes text.toList s.tokens := by
  obtain ⟨g, hg, hw⟩ := mapM_printed fun t ht => (h.types t ht).writes
  have hblock : Nests nestingLimit (if s.needsBlock then s.blockTokens else []) := by
    split
    · exact s.nests_block
    · exact Nests.nil
  refine ⟨hblock.append (Nests.flatMap fun t ht => (h.types t ht).nests),
    Text.joined "\n" ((if s.needsBlock then [s.blockText] else []) ++ s.printed.map g), ?_, ?_⟩
  · have ht : (s.types.filter FullType.isPrinted).mapM FullType.text = .ok (s.printed.map g) := hg
    rw [toSdl, ht]; rfl
  · have hparts : ∀ p ∈ (if s.needsBlock then [(s.blockText, s.blockTokens)] else []) ++
        s.printed.map fun t => (g t, t.tokens), WritesLine p.1 p.2 := by
      intro p hp
      rcases List.mem_append.1 hp with hp | hp
      · split at hp
        · rw [List.mem_singleton.1 hp]; exact h.block_writes
        · cases hp
      · obtain ⟨t, ht, rfl⟩ := List.mem_map.1 hp
        exact hw t ht
    have hl := parts_write hparts .nil
    cases hb : s.needsBlock <;> simpa [hb, tokens, List.flatMap_map, Function.comp_def] using hl

end Schema

end GraphqlCodegen.Introspection
