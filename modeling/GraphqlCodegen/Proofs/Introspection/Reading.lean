import GraphqlCodegen.Proofs.Introspection.Printing
import GraphqlCodegen.Run

/-!
# What is read back

The tokens of each part are read as the definition that the part stands for, whatever follows, as
long as it ends the part (`EndsPart`): a closing bracket, or the beginning of something new.
-/

namespace GraphqlCodegen.Introspection

open Sdl (Token typeTokens constant? constantTokens nestingLimit)
open Sdl.Reader (Reads IsItem bracketTokens separatedTokens)
open Sdl.Lexer

variable {fuel : Nat} {rest : List Token}

/-- No mark comes next, other than a closing bracket. -/
def EndsPart (ts : List Token) : Prop := ∀ c, ts.head? = some (.mark c) → isClosing c = true

theorem EndsPart.ne {c : Char} (h : EndsPart rest) (hc : isClosing c = false) : rest.head? ≠ some (.mark c) := by
  intro hr
  rw [h c hr] at hc
  cases hc

/-! ## Descriptions and directives -/

theorem reads_description {text : Option String} (h : ∀ s, rest.head? ≠ some (.string s)) :
    Reads fuel Sdl.description (text.toList.map .string ++ rest) text rest := by
  cases text with
  | some s => exact (Reads.peek _).bind ((Reads.skip _ _).bind (.pure _ _))
  | none =>
    refine (Reads.peek _).bind ?_
    cases rest with
    | nil => exact .pure _ _
    | cons t ts =>
      cases t with
      | string s => exact absurd rfl (h s)
      | _ => exact .pure _ _

/-- What is read for a deprecation. -/
def deprecated (reason : Option String) : Sdl.Directive :=
  ⟨"deprecated", reason.toList.map fun r => ("reason", .string (quotedValue r))⟩

theorem reads_reason (r : String) (rest : List Token) :
    Reads fuel (Sdl.argument fuel) (reasonTokens r ++ rest) ("reason", .string (quotedValue r)) rest := by
  refine Reads.of_fuel (by simp) fun hf => ?_
  obtain ⟨n, rfl⟩ : ∃ k, fuel = k + 1 := ⟨fuel - 1, by omega⟩
  refine (Reads.name _ _).bind ((Reads.expect _ _).bind (Reads.bind ?_ (.pure _ _)))
  exact (Reads.peek _).bind ((Reads.skip _ _).bind (.pure _ _))

theorem reads_deprecated (reason : Option String) (h : rest.head? ≠ some (.mark '(')) :
    Reads fuel (Sdl.directive fuel) (deprecatedTokens reason ++ rest) (deprecated reason) rest := by
  refine (Reads.expect _ _).bind ((Reads.name _ _).bind (Reads.bind ?_ (.pure _ _)))
  have hitem : ∀ r ∈ reason.toList, IsItem fuel Sdl.isName (fun _ => True) (Sdl.argument fuel) (reasonTokens r)
      ("reason", .string (quotedValue r)) :=
    fun r _ => ⟨⟨_, _, rfl, rfl⟩, fun _ => trivial, fun more _ => reads_reason r more⟩
  exact Reads.bracketed rfl trivial h hitem

theorem reads_deprecations (isDeprecated : Bool) (reason : Option String) (h : EndsPart rest) :
    Reads fuel (Sdl.directives fuel) (deprecationTokens isDeprecated reason ++ rest)
      ((deprecations isDeprecated reason).map deprecated) rest := by
  have hitem : ∀ r ∈ deprecations isDeprecated reason, IsItem fuel (· = .mark '@') (·.head? ≠ some (.mark '('))
      (Sdl.directive fuel) (deprecatedTokens r) (deprecated r) :=
    fun r _ => ⟨⟨_, _, rfl, rfl⟩, fun more => by simp [deprecatedTokens], fun more hm => reads_deprecated r hm⟩
  exact Reads.many (Sdl.Reader.stops_mark (h.ne rfl)) (h.ne rfl) hitem

theorem reads_no_directives (h : rest.head? ≠ some (.mark '@')) : Reads fuel (Sdl.directives fuel) rest [] rest :=
  @Reads.many _ _ _ _ (fun _ => True) _ (fun _ : Unit => []) (fun _ => deprecated none) _ [] (Sdl.Reader.stops_mark h)
    trivial (by simp)

/-! ## Members -/

/-- What an argument or an input field is read as. -/
def InputValue.definition (text : Option String) (v : InputValue) : Sdl.InputValue :=
  ⟨text, v.name, v.type.type, v.defaultValue.bind constant?, []⟩

theorem reads_inputValue {room : Nat} {v : InputValue} (hr : room ≤ nestingLimit) (hv : v.WellFormed room)
    (text : Option String) (h : EndsPart rest) :
    Reads fuel (Sdl.inputValue fuel) (text.toList.map .string ++ (v.tokens ++ rest)) (v.definition text) rest := by
  obtain ⟨hw, -, -⟩ := hv.type.writes
  refine (reads_description (by simp [InputValue.tokens])).bind ?_
  refine (Reads.name _ _).bind ((Reads.expect _ _).bind ?_)
  unfold InputValue.definition
  cases hd : v.defaultValue with
  | none =>
    simp only [defaultTokens, List.append_nil]
    refine (Sdl.reads_typeRef hw (h.ne rfl)).bind ?_
    refine (Reads.decline (h.ne rfl)).bind ((Reads.pure _ _).bind ?_)
    exact (reads_no_directives (h.ne rfl)).bind (.pure _ _)
  | some d =>
    obtain ⟨-, -, x, hx, hc⟩ := (hv.default d hd).spec hr
    simp only [defaultTokens, Option.bind_some, hx]
    rw [List.append_eq, List.append_assoc]
    refine (Sdl.reads_typeRef hw (by simp)).bind ?_
    refine (Reads.accept _ _).bind ((hc.reads rest).bind ((Reads.pure _ _).bind ?_))
    exact (reads_no_directives (h.ne rfl)).bind (.pure _ _)

/-- Members begin with a name or a string, and end in front of the next member or a bracket. -/
theorem begins_member (text : Option String) (n : String) (ts : List Token) :
    (∃ t us, text.toList.map .string ++ .name n :: ts = t :: us ∧ Sdl.beginsDescribed t = true) ∧
      ∀ more, EndsPart (text.toList.map .string ++ .name n :: ts ++ more) := by
  cases text with
  | none => exact ⟨⟨_, _, rfl, rfl⟩, fun _ _ hc => by cases hc⟩
  | some s => exact ⟨⟨_, _, rfl, rfl⟩, fun _ _ hc => by cases hc⟩

theorem isItem_inputValue {room : Nat} {v : InputValue} (hr : room ≤ nestingLimit) (hv : v.WellFormed room)
    (text : Option String) :
    IsItem fuel Sdl.beginsDescribed EndsPart (Sdl.inputValue fuel) (text.toList.map .string ++ v.tokens)
      (v.definition text) := by
  obtain ⟨hf, ho⟩ := begins_member text v.name (.mark ':' :: (typeTokens v.type.type ++ defaultTokens v.defaultValue))
  refine ⟨hf, ho, fun more hm => ?_⟩
  rw [List.append_assoc]
  exact reads_inputValue hr hv text hm

theorem endsPart_mark {c : Char} (hc : isClosing c = true) (ts : List Token) : EndsPart (.mark c :: ts) := by
  intro d hd; cases hd; exact hc

theorem reads_arguments {room : Nat} {args : List InputValue} (hr : room ≤ nestingLimit)
    (h : ∀ a ∈ args, a.WellFormed room) (hrest : rest.head? ≠ some (.mark '(')) :
    Reads fuel (Sdl.arguments fuel) (bracketTokens '(' ')' InputValue.tokens args ++ rest)
      (args.map (InputValue.definition none)) rest :=
  Reads.bracketed rfl (endsPart_mark rfl _) hrest fun a ha => isItem_inputValue hr (h a ha) none

def Field.definition (f : Field) : Sdl.Field :=
  ⟨readDescription "  " f.description, f.name, f.args.map (InputValue.definition none), f.type.type,
    (deprecations f.isDeprecated f.deprecationReason).map deprecated⟩

theorem isItem_field {f : Field} (h : f.WellFormed) :
    IsItem fuel Sdl.beginsDescribed EndsPart (Sdl.field fuel) f.tokens f.definition := by
  obtain ⟨hf, ho⟩ := begins_member (readDescription "  " f.description) f.name
    (bracketTokens '(' ')' InputValue.tokens f.args ++ .mark ':' ::
      (typeTokens f.type.type ++ deprecationTokens f.isDeprecated f.deprecationReason))
  refine ⟨hf, ho, fun more hm => ?_⟩
  obtain ⟨hw, -, -⟩ := h.type.writes
  have hdep : (deprecationTokens f.isDeprecated f.deprecationReason ++ more).head? ≠ some (.mark '!') := by
    unfold deprecationTokens deprecations
    split
    · simp [deprecatedTokens]
    · exact hm.ne rfl
  simp only [Field.tokens, descriptionTokens, List.append_assoc, List.cons_append]
  refine (reads_description (by simp)).bind ((Reads.name _ _).bind ?_)
  refine (reads_arguments (by decide) h.args (by simp)).bind ((Reads.expect _ _).bind ?_)
  exact (Sdl.reads_typeRef hw hdep).bind ((reads_deprecations _ _ hm).bind (.pure _ _))

def EnumValue.definition (v : EnumValue) : Sdl.EnumValue :=
  ⟨readDescription "  " v.description, v.name, (deprecations v.isDeprecated v.deprecationReason).map deprecated⟩

theorem isItem_enumValue (v : EnumValue) :
    IsItem fuel Sdl.beginsDescribed EndsPart (Sdl.enumValue fuel) v.tokens v.definition := by
  obtain ⟨hf, ho⟩ := begins_member (readDescription "  " v.description) v.name
    (deprecationTokens v.isDeprecated v.deprecationReason)
  refine ⟨hf, ho, fun more hm => ?_⟩
  simp only [EnumValue.tokens, descriptionTokens, List.append_assoc, List.cons_append]
  refine (reads_description (by simp)).bind ((Reads.name _ _).bind ?_)
  exact (reads_deprecations _ _ hm).bind (.pure _ _)

/-! ## Types -/

theorem reads_names {sep : Char} {names : List String} (hne : names ≠ []) (h : rest.head? ≠ some (.mark sep)) :
    Reads fuel (Sdl.Reader.separated sep Sdl.Reader.name fuel) (namesTokens sep names ++ rest) names rest := by
  have hr := @Reads.separated _ fuel _ Sdl.Reader.name (fun n => [.name n]) id rest sep names hne h (by simp)
    fun n _ more => Reads.name n more
  rwa [List.map_id] at hr

theorem reads_implemented (names : List String) (h : rest.head? = some (.mark '\x7b')) :
    Reads fuel (Sdl.implemented fuel) (implementsTokens names ++ rest) names rest := by
  cases names with
  | nil => exact (Reads.decline (by simp [implementsTokens, h])).bind (.pure _ _)
  | cons n ns => exact (Reads.accept _ _).bind (reads_names (by simp) (by simp [h]))

/-- What stands behind the last keyword in front of the members. -/
theorem reads_members {α β : Type} {item : Sdl.Reader β} {tok : α → List Token} {val : α → β} {xs : List α}
    (hne : xs ≠ []) (hrest : EndsPart rest)
    (h : ∀ x ∈ xs, IsItem fuel Sdl.beginsDescribed EndsPart item (tok x) (val x)) :
    (bracketTokens '\x7b' '\x7d' tok xs ++ rest).head? = some (.mark '\x7b') ∧
      Reads fuel (Sdl.directives fuel) (bracketTokens '\x7b' '\x7d' tok xs ++ rest) []
        (bracketTokens '\x7b' '\x7d' tok xs ++ rest) ∧
      Reads fuel (Sdl.Reader.bracketed '\x7b' '\x7d' Sdl.beginsDescribed item fuel)
        (bracketTokens '\x7b' '\x7d' tok xs ++ rest) (xs.map val) rest := by
  have hb : (bracketTokens '\x7b' '\x7d' tok xs ++ rest).head? = some (.mark '\x7b') := by
    cases xs with
    | nil => exact absurd rfl hne
    | cons x xs => rfl
  exact ⟨hb, reads_no_directives (by simp [hb]), Reads.bracketed rfl (endsPart_mark rfl _) (hrest.ne rfl) h⟩

theorem reads_keyword (keyword : String) {k : Sdl.TypeKeyword} {text : Option String} {n : String}
    {ds : List Sdl.Directive} {body : Sdl.TypeBody} {ts : List Token} (hk : Sdl.TypeKeyword.ofName keyword = some k)
    (h : Reads fuel (Sdl.namedBody fuel k) ts ⟨n, ds, body⟩ rest) :
    Reads fuel (Sdl.described fuel text) (.name keyword :: ts) (.type ⟨text, n, ds, body⟩) rest := by
  refine (Reads.peek _).bind ?_
  simp only [List.head?_cons, hk]
  exact (Reads.skip _ _).bind (h.bind (.pure _ _))

/-- The other keywords begin no definition of a type. -/
theorem reads_definition {text : Option String} {keyword : String} {ts : List Token} {d : Sdl.Definition}
    (hs : keyword ≠ "schema") (he : keyword ≠ "extend")
    (h : Reads fuel (Sdl.described fuel text) (.name keyword :: ts) d rest) :
    Reads fuel (Sdl.definition fuel) (text.toList.map .string ++ .name keyword :: ts) d rest := by
  have hd := (reads_description (by simp)).bind h
  refine Reads.here fun p => (Reads.peek _).bind ?_
  cases text with
  | some s => exact hd
  | none =>
    simp only [Option.toList_none, List.map_nil, List.nil_append, List.head?_cons] at hd ⊢
    split
    · rename_i hn; cases hn; exact absurd rfl hs
    · rename_i hn; cases hn; exact absurd rfl he
    · exact hd

namespace FullType

def typeBody (t : FullType) : Sdl.TypeBody :=
  match t.kind with
  | .object => .object (namesOf t.interfaces) ((t.fields.getD []).map Field.definition)
  | .interface => .interface (namesOf t.interfaces) ((t.fields.getD []).map Field.definition)
  | .union => .union (namesOf t.possibleTypes)
  | .enum => .enum ((t.enumValues.getD []).map EnumValue.definition)
  | .inputObject => .input ((t.inputFields.getD []).map fun v => v.definition (readDescription "  " v.description))
  | .scalar | .list | .nonNull => .scalar

/-- What a type is read as. -/
def definition (t : FullType) : Sdl.TypeDefinition := ⟨readDescription "" t.description, t.name, [], t.typeBody⟩

theorem WellFormed.reads_body {t : FullType} (h : t.WellFormed) (text : Option String) (hrest : EndsPart rest) :
    Reads fuel (Sdl.described fuel text) (t.bodyTokens ++ rest) (.type ⟨text, t.name, [], t.typeBody⟩) rest := by
  have hm := h.members
  unfold MembersWellFormed at hm
  unfold bodyTokens typeBody bracedTokens
  cases hk : t.kind <;> rw [hk] at hm <;> simp only [List.cons_append, List.append_assoc] at hm ⊢
  case scalar =>
    refine reads_keyword "scalar" (k := .scalar) rfl ((Reads.name _ _).bind ?_)
    exact (reads_no_directives (hrest.ne rfl)).bind (.pure _ _)
  case object =>
    obtain ⟨hb, hd, hr⟩ := reads_members hm.2.1 hrest fun f hf => isItem_field (hm.2.2 f hf)
    refine reads_keyword "type" (k := .object) rfl ((Reads.name _ _).bind ?_)
    exact (reads_implemented _ hb).bind (hd.bind (hr.bind (.pure _ _)))
  case interface =>
    obtain ⟨hb, hd, hr⟩ := reads_members hm.2.1 hrest fun f hf => isItem_field (hm.2.2 f hf)
    refine reads_keyword "interface" (k := .interface) rfl ((Reads.name _ _).bind ?_)
    exact (reads_implemented _ hb).bind (hd.bind (hr.bind (.pure _ _)))
  case union =>
    have hne : namesOf t.possibleTypes ≠ [] := by simpa [namesOf] using hm.1
    refine reads_keyword "union" (k := .union) rfl ((Reads.name _ _).bind ?_)
    refine (reads_no_directives (by simp)).bind ((Reads.accept _ _).bind ?_)
    exact (reads_names hne (hrest.ne rfl)).bind (.pure _ _)
  case enum =>
    obtain ⟨-, hd, hr⟩ := reads_members hm.1 hrest fun v _ => isItem_enumValue v
    refine reads_keyword "enum" (k := .enum) rfl ((Reads.name _ _).bind ?_)
    exact hd.bind (hr.bind (.pure _ _))
  case inputObject =>
    obtain ⟨-, hd, hr⟩ := reads_members hm.1 hrest fun v hv =>
      isItem_inputValue (by decide) (hm.2 v hv).value (readDescription "  " v.description)
    refine reads_keyword "input" (k := .input) rfl ((Reads.name _ _).bind ?_)
    exact hd.bind (hr.bind (.pure _ _))

theorem WellFormed.reads {t : FullType} (h : t.WellFormed) :
    Sdl.IsDefinition EndsPart t.tokens (.type t.definition) := by
  intro fuel
  have hb : ∃ n ts, t.bodyTokens = .name n :: ts ∧ n ≠ "schema" ∧ n ≠ "extend" := by
    unfold bodyTokens
    cases t.kind <;> exact ⟨_, _, rfl, by decide, by decide⟩
  obtain ⟨n, ts, hts, hs, he⟩ := hb
  have hfirst := begins_member (readDescription "" t.description) n ts
  rw [← hts] at hfirst
  refine ⟨?_, hfirst.2, fun more hmore => ?_⟩
  · obtain ⟨s, us, hus, -⟩ := hfirst.1
    exact ⟨s, us, hus, rfl⟩
  · have hbody := @WellFormed.reads_body fuel more t h (readDescription "" t.description) hmore
    rw [hts] at hbody
    rw [tokens, hts, descriptionTokens, List.append_assoc]
    exact reads_definition hs he hbody

end FullType

/-! ## Schemas -/

namespace Schema

/-- What the schema block is read as. -/
def block (s : Schema) : Sdl.SchemaBlock := ⟨[], s.queryType, s.mutationType, s.subscriptionType⟩

theorem rootEntries_block (s : Schema) :
    s.rootEntries.foldlM Sdl.SchemaBlock.set? ⟨[], none, none, none⟩ = some s.block := by
  obtain ⟨q, m, n, types⟩ := s
  cases q <;> cases m <;> cases n <;> rfl

theorem reads_block (s : Schema) : Sdl.IsDefinition EndsPart s.blockTokens (.schema s.block) := by
  intro fuel
  refine ⟨⟨_, _, rfl, rfl⟩, fun _ _ hc => (by cases hc), fun more _ => ?_⟩
  have hitem : ∀ e ∈ s.rootEntries, IsItem fuel Sdl.isName (fun _ => True) Sdl.rootEntry (rootTokens e) e :=
    fun e _ => ⟨⟨_, _, rfl, rfl⟩, fun _ => trivial, fun rest _ =>
      (Reads.name _ _).bind ((Reads.expect _ _).bind ((Reads.name _ _).bind (.pure _ _)))⟩
  have hstop : ∀ t, (Token.mark '\x7d' :: more).head? = some t → Sdl.isName t = false := by
    intro t ht; cases ht; rfl
  have hmany := Reads.many hstop trivial hitem
  rw [List.map_id'] at hmany
  simp only [blockTokens, List.cons_append, List.append_assoc, List.nil_append]
  refine Reads.here fun p => (Reads.peek _).bind ((Reads.skip _ _).bind (Reads.bind ?_ (.pure _ _)))
  refine (reads_no_directives (by simp)).bind ((Reads.expect _ _).bind (hmany.bind ((Reads.expect _ _).bind ?_)))
  rw [rootEntries_block]
  exact .pure _ _

/-- What a schema is read as. -/
def document (s : Schema) : Sdl.Document :=
  (if s.needsBlock then [.schema s.block] else []) ++ s.printed.map fun t => .type t.definition

theorem WellFormed.parses {s : Schema} (h : s.WellFormed) :
    ∃ text, s.toSdl = .ok text ∧ Sdl.parse text = .ok s.document := by
  obtain ⟨hn, text, ht, hl⟩ := h.writes
  refine ⟨text, ht, ?_⟩
  let parts : List (List Token × Sdl.Definition) :=
    (if s.needsBlock then [(s.blockTokens, .schema s.block)] else []) ++ s.printed.map fun t => (t.tokens, .type t.definition)
  have hparts : ∀ p ∈ parts, Sdl.IsDefinition EndsPart p.1 p.2 := by
    intro p hp
    rcases List.mem_append.1 hp with hp | hp
    · split at hp
      · rw [List.mem_singleton.1 hp]; exact s.reads_block
      · cases hp
    · obtain ⟨t, ht, rfl⟩ := List.mem_map.1 hp
      exact (h.types t ht).reads
  have hne : parts ≠ [] := by
    intro hp
    exact h.nonempty (List.map_eq_nil_iff.1 (List.append_eq_nil_iff.1 hp).2)
  have htok : parts.flatMap Prod.fst = s.tokens := by
    cases hb : s.needsBlock <;> simp [parts, hb, tokens, List.flatMap_map]
  have hdoc : parts.map Prod.snd = s.document := by
    cases hb : s.needsBlock <;> simp [parts, hb, document]
  rw [← htok] at hl hn
  rw [← hdoc]
  exact Sdl.parse_lexes (fun _ hc => by cases hc) hne hparts hl hn.le

end Schema

end GraphqlCodegen.Introspection
