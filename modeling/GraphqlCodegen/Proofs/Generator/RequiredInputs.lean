import Mathlib.Data.List.Nodup
import GraphqlCodegen.Proofs.JsonSchema.Document
import GraphqlCodegen.Proofs.Bindings.Properties

/-!
# Inputs that have to be given

The arguments of fields and the fields of input objects, as the two descriptions of a schema have them. The document
lists an input as required if its type is non-null (`required_at`), whether or not it has a default; the
property in the map of selections is not optional if besides there is no default (`properties_at`). So the two
disagree about a non-null input with a default, and about no other (`required_agree_iff`).
-/

namespace GraphqlCodegen

open Schema JsonSchema Bindings Script

/-! ## Positions of inputs -/

/-- Where inputs stand. -/
inductive Position where
  | arguments (type field : String)
  | fields (type : String)

/-- The inputs of a tree that stand at a position. -/
inductive Takes (t : Tree) : Position → List InputValue → Prop
  | arguments {n f} : n ∈ t.nodes → f ∈ n.fields → f.args ≠ [] → Takes t (.arguments n.name f.name) f.args
  | fields {n inputs} : n ∈ t.nodes → n.kind = .input inputs → Takes t (.fields n.name) inputs

theorem Takes.nodup {t : Tree} {position : Position} {inputs : List InputValue} (hd : t.Distinct)
    (h : Takes t position inputs) : (inputs.map InputValue.name).Nodup := by
  cases h with
  | arguments hn hf _ => exact hd.arguments _ hn _ hf
  | fields hn hk => simpa [Node.inputs, hk] using hd.inputs _ hn

/-- Where a document lists the inputs of a position that are required. -/
def Position.requiredPath : Position → List String
  | .arguments type field => ["definitions", type, "properties", field, "properties", "arguments", "required"]
  | .fields type => ["definitions", type, "required"]

/-- The properties of the map of selections for the inputs of a position. -/
def propertiesAt? (m : Module) : Position → Option (List (Property Ty))
  | .arguments type field => do
    let entry ← property? m valueMap type
    let selection ← (fieldsOf entry.type).find? (·.name = field)
    return argumentsOf selection.type
  | .fields type => do
    let entry ← property? m valueMap type
    return fieldsOf entry.type

variable {t : Tree} {position : Position} {inputs : List InputValue} {i : InputValue}

/-! ## The document -/

/-- Whatever a description is put beside stays where it is. -/
theorem at?_describe {key : String} (ne : key ≠ "description") (path : List String) (description : Option String) (s : Members) :
    (Json.Value.object (describe description s)).at? (key :: path) = (Json.Value.object s).at? (key :: path) := by
  cases description with
  | none => rfl
  | some text =>
    rw [Json.Value.at?_cons, Json.Value.at?_cons, Json.Value.get?, Json.Value.get?]
    exact congrArg (Option.bind · _) (Entries.get?_put_ne ne _ _)

theorem get?_properties (parts : List (String × TypeRef × Members)) :
    (Json.Value.object (objectSchema parts)).get? "properties" =
      some (Json.Value.ofPairs (parts.map fun p => (p.1, .object p.2.2))) := by
  simp [Json.Value.get?, objectSchema, Entries.get?_ofList]

theorem get?_required (parts : List (String × TypeRef × Members)) :
    (Json.Value.object (objectSchema parts)).get? "required" =
      some (.array ((parts.filter (·.2.1.isNonNull)).map fun p => .string p.1)) := by
  simp [Json.Value.get?, objectSchema, Entries.get?_ofList]

/-- What has to be given of several inputs. -/
def nonNullNames (inputs : List InputValue) : List String := (inputs.filter (·.type.isNonNull)).map InputValue.name

theorem required_inputsSchema {s : Members} (h : inputsSchema t inputs = .ok s) :
    (Json.Value.object s).at? ["required"] = some (.array ((nonNullNames inputs).map .string)) := by
  obtain ⟨schemaOf, -, rfl⟩ := inputsSchema_ok.1 h
  rw [Json.Value.at?_cons, get?_required, nonNullNames]
  simp [List.filter_map, Function.comp_def]

theorem kindSchema_fields {n : Node} (h : n.fields ≠ []) : kindSchema t n = fieldsSchema t n.fields := by
  rw [kindSchema]
  rw [Node.fields] at h ⊢
  cases hk : n.kind with
  | object interfaces fields => rfl
  | interface fields => rfl
  | _ => rw [hk] at h; exact absurd rfl h

theorem property_fieldsSchema {fields : List Field} {f : Field} {s : Members} (hnd : (fields.map Field.name).Nodup)
    (hf : f ∈ fields) (h : fieldsSchema t fields = .ok s) : ∃ schema, fieldSchema t f = .ok schema ∧
      (Json.Value.object s).at? ["properties", f.name] = some (.object schema) := by
  obtain ⟨schemaOf, hall, rfl⟩ := fieldsSchema_ok.1 h
  refine ⟨schemaOf f, hall f hf, ?_⟩
  have hget : (Json.Value.ofPairs (fields.map fun f => (f.name, .object (schemaOf f)))).get? f.name =
      some (.object (schemaOf f)) := by
    refine Entries.get?_ofList_of_mem ?_ (List.mem_map.2 ⟨f, hf, rfl⟩)
    rw [List.map_map]
    exact hnd
  simp only [Json.Value.at?_cons, get?_properties, Option.bind_some, List.map_map]
  exact congrArg (Option.bind · some) hget

theorem arguments_fieldSchema {f : Field} {s : Members} (hargs : f.args ≠ []) (h : fieldSchema t f = .ok s) :
    ∃ arguments, inputsSchema t f.args = .ok arguments ∧
      (Json.Value.object s).at? ["properties", "arguments"] = some (.object arguments) := by
  obtain ⟨returns, -, ⟨hnil, -⟩ | ⟨-, arguments, ha, rfl⟩⟩ := fieldSchema_ok.1 h
  · exact absurd hnil hargs
  · refine ⟨arguments, ha, ?_⟩
    rw [at?_describe (by simp)]
    simp [Json.Value.get?, withArguments, Json.Value.ofPairs, Entries.get?_ofList]

theorem required_at {v : Json.Value} (hd : t.Distinct) (hv : document t = .ok v) (h : Takes t position inputs) :
    v.at? position.requiredPath = some (.array ((nonNullNames inputs).map .string)) := by
  obtain ⟨schemaOf, hs, rfl⟩ := document_ok.1 hv
  have hdefinition : ∀ {n}, n ∈ t.nodes → ∃ s, kindSchema t n = .ok s ∧ ∀ key path, key ≠ "description" →
      (assembled t schemaOf).at? (["definitions", n.name] ++ key :: path) = (Json.Value.object s).at? (key :: path) := by
    intro n hn
    obtain ⟨s, hk, he⟩ := definition_ok.1 (hs n hn)
    refine ⟨s, hk, fun key path ne => ?_⟩
    rw [Json.Value.at?_append, at?_definitions, hd.last? hn, Option.map_some, Option.bind_some, he, at?_describe ne]
  cases h with
  | @arguments n f hn hf hargs =>
    obtain ⟨s, hk, hat⟩ := hdefinition hn
    rw [kindSchema_fields (List.ne_nil_of_mem hf)] at hk
    obtain ⟨schema, hschema, hproperty⟩ := property_fieldsSchema (hd.fields n hn) hf hk
    obtain ⟨arguments, ha, hargument⟩ := arguments_fieldSchema hargs hschema
    calc (assembled t schemaOf).at? (Position.arguments n.name f.name).requiredPath
      _ = (Json.Value.object s).at? (["properties", f.name] ++ (["properties", "arguments"] ++ ["required"])) :=
        hat _ _ (by simp)
      _ = (Json.Value.object arguments).at? ["required"] := by
        rw [Json.Value.at?_append, hproperty, Option.bind_some, Json.Value.at?_append, hargument, Option.bind_some]
      _ = some (.array ((nonNullNames f.args).map .string)) := required_inputsSchema ha
  | @fields n _ hn hk =>
    obtain ⟨s, hs, hat⟩ := hdefinition hn
    rw [kindSchema, hk] at hs
    exact (hat "required" [] (by simp)).trans (required_inputsSchema hs)

/-! ## The map of selections -/

theorem properties_at (hd : t.Distinct) (o : Options) (host : Option String) (h : Takes t position inputs) :
    propertiesAt? (indexModule t o host) position = some (inputs.map (inputProperty t)) := by
  cases h with
  | arguments hn hf hargs =>
    simp [propertiesAt?, property?_valueMap hd o host hn, find?_fieldsOf hd hn hf, argumentsOf_selectionProperty hargs]
  | fields hn hk =>
    simp [propertiesAt?, property?_valueMap hd o host hn, fieldsOf_valueType_input hk]

/-! ## Agreement -/

theorem mem_nonNullNames (hnd : (inputs.map InputValue.name).Nodup) (hi : i ∈ inputs) :
    i.name ∈ nonNullNames inputs ↔ i.type.isNonNull := by
  rw [nonNullNames, List.mem_map]
  constructor
  · rintro ⟨j, hj, he⟩
    obtain ⟨hj, hn⟩ := List.mem_filter.1 hj
    rwa [List.inj_on_of_nodup_map hnd hj hi he] at hn
  · exact fun hn => ⟨i, List.mem_filter.2 ⟨hi, hn⟩, rfl⟩

theorem filter_inputProperties (hnd : (inputs.map InputValue.name).Nodup) (hi : i ∈ inputs) :
    (inputs.map (inputProperty t)).filter (·.name = i.name) = [inputProperty t i] := by
  rw [List.filter_map, ← List.map_singleton, ← Entries.filter_of_nodup hnd hi]
  rfl

theorem optional_inputProperty : (inputProperty t i).optional = false ↔ i.type.isNonNull ∧ i.default = none := by
  simp [inputProperty, isOptionalInput]

/-- The document requires the inputs whose types are non-null, and the map of selections those of them that have no
default: the two agree about all inputs but those that are non-null and have a default. -/
theorem required_agree_iff (t : Tree) (o : Options) (host : Option String) (v : Json.Value) (position : Position)
    (inputs : List InputValue) (hd : t.Distinct) (hv : document t = .ok v) (h : Takes t position inputs) :
    ∃ (required : List String) (properties : List (Property Ty)),
      v.at? position.requiredPath = some (.array (required.map .string)) ∧
      propertiesAt? (indexModule t o host) position = some properties ∧
        ∀ i ∈ inputs, ∃ p, properties.filter (·.name = i.name) = [p] ∧
          (i.name ∈ required ↔ i.type.isNonNull) ∧ (p.optional = false ↔ i.type.isNonNull ∧ i.default = none) ∧
            ((i.name ∈ required ↔ p.optional = false) ↔ (i.type.isNonNull → i.default = none)) := by
  refine ⟨nonNullNames inputs, _, required_at hd hv h, properties_at hd o host h, fun i hi => ?_⟩
  have hrequired := mem_nonNullNames (h.nodup hd) hi
  refine ⟨inputProperty t i, filter_inputProperties (h.nodup hd) hi, hrequired, optional_inputProperty, ?_⟩
  rw [hrequired, optional_inputProperty, iff_self_and]

/-- An argument with a default, one without and one that may be null. -/
def genesTree : Tree where
  nodes := [⟨"Query", none, .object [] [⟨"genes", none, .list (.named "String"), [
    ⟨"first", none, .nonNull (.named "Int"), some "10"⟩, ⟨"species", none, .nonNull (.named "ID"), none⟩,
    ⟨"name", none, .named "String", none⟩]⟩]⟩]
  roots := ⟨some "Query", none, none⟩

def genesOptions : Options :=
  ⟨some "genes", "out", [], .post, .browser, .commonJs, false, .legacy, none, none, false, false⟩

theorem required_agree_iff_genes : ∃ (v : Json.Value) (required : List String) (properties : List (Property Ty))
    (p : Property Ty), document genesTree = .ok v ∧
      v.at? ["definitions", "Query", "properties", "genes", "properties", "arguments", "required"] =
        some (.array (required.map .string)) ∧
      propertiesAt? (indexModule genesTree genesOptions none) (.arguments "Query" "genes") = some properties ∧
        "first" ∈ required ∧ properties.filter (·.name = "first") = [p] ∧ p.optional = true := by
  have hd : genesTree.Distinct := ⟨by decide, by decide, by decide, by decide⟩
  have hok : (document genesTree).toOption.isSome = true := by decide
  obtain ⟨v, hv⟩ : ∃ v, document genesTree = .ok v := by
    cases h : document genesTree with
    | error e => rw [h] at hok; cases hok
    | ok v => exact ⟨v, rfl⟩
  have htakes : Takes genesTree (.arguments "Query" "genes") _ :=
    .arguments (n := genesTree.nodes[0]) (f := genesTree.nodes[0].fields[0]) (by decide) (by decide) (by decide)
  obtain ⟨required, properties, hrequired, hproperties, hall⟩ :=
    required_agree_iff genesTree genesOptions none v _ _ hd hv htakes
  obtain ⟨p, hp, hmem, hoptional, -⟩ := hall ⟨"first", none, .nonNull (.named "Int"), some "10"⟩ (by decide)
  refine ⟨v, required, properties, p, hv, hrequired, hproperties, hmem.2 rfl, hp, ?_⟩
  cases ho : p.optional with
  | true => rfl
  | false => cases (hoptional.1 ho).2

end GraphqlCodegen
