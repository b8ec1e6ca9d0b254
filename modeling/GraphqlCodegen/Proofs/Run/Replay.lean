import GraphqlCodegen.Proofs.Bindings.Host
import GraphqlCodegen.Proofs.Run.Saving
import GraphqlCodegen.Proofs.Run.Success

/-!
# Running again from the schema copy

A run without failures that was asked for a copy of the schema has written one from which all its files can be made again:
the same output from this copy has the same report, the same tree and the same files, up to the endpoint that is declared in
the client's module (`replay_schemaCopy`). The reason is that generators see no more of the source than its URL, and only
the client does (`madeAlike`).
-/

namespace GraphqlCodegen

open Disk (Held Stands placeOf)

variable {o : Options} {w : Surroundings} {outcome : Outcome} {input input' : SchemaInput} {report : Report}

/-- The same output from the schema in a file. -/
def Options.readingFrom (o : Options) (path : String) (headers : List String) (method : Method) (saveOnInput : Bool) :
    Options :=
  { o with source := some path, headers, method, saveOnInput }

/-- The client's files with an endpoint. -/
def Generator.clientFiles (o : Options) (constants front back : String) (host : Option String) : List Artifact :=
  [⟨constantsFile o, constants⟩, ⟨indexFile o, front ++ Bindings.hostDeclaration host ++ back⟩]

/-- All generators make the same files of both inputs, but for the endpoint in the client's module. -/
structure MadeAlike (o o' : Options) (input input' : SchemaInput) : Prop where
  requested : Generator.requested o' = Generator.requested o
  others : ∀ g : Generator, g ≠ .bindings → g.artifacts input' o' = g.artifacts input o
  client : ∃ constants front back,
    Generator.bindings.artifacts input o = .ok (Generator.clientFiles o constants front back input.source.url?) ∧
    Generator.bindings.artifacts input' o' = .ok (Generator.clientFiles o constants front back input'.source.url?)

theorem Generator.artifacts_bindings (o : Options) (input : SchemaInput) : Generator.bindings.artifacts input o =
    .ok (clientFiles o (Bindings.constantsModule input.tree).text (Bindings.beforeHost input.tree o)
      (Bindings.behindHost input.tree o) input.source.url?) := by
  rw [clientFiles, ← Bindings.indexModule_text]
  rfl

/-- Nothing but the text and the tree makes a difference to the files, apart from the endpoint. -/
theorem madeAlike (htext : input'.text = input.text) (htree : input'.tree = input.tree) (path : String) (headers : List String)
    (method : Method) (saveOnInput : Bool) : MadeAlike o (o.readingFrom path headers method saveOnInput) input input' := by
  refine ⟨rfl, fun g hg => ?_, ⟨_, _, _, Generator.artifacts_bindings o input, ?_⟩⟩
  · cases g with
    | bindings => exact absurd rfl hg
    | schemaCopy => unfold Generator.artifacts Generator.contents; rw [htext]; rfl
    | jsonSchema => unfold Generator.artifacts Generator.contents; rw [htree]; rfl
    | typedDocument => rfl
  · rw [Generator.artifacts_bindings, htree]
    rfl

/-- Where a generator can make its files of one input, it can make them of the other. -/
theorem MadeAlike.artifacts {o' : Options} (h : MadeAlike o o' input input')
    (ho : ∀ g ∈ Generator.requested o, g.artifacts input o = .ok (g.files input o)) :
    ∀ g ∈ Generator.requested o', g.artifacts input' o' = .ok (g.files input' o') := by
  rw [h.requested]
  intro g hg
  by_cases hb : g = .bindings
  · subst hb
    rw [Generator.files, Generator.artifacts_bindings]
    rfl
  · rw [Generator.files, h.others g hb, ho g hg]
    rfl

/-! ## The copy of the schema -/

theorem Destination.path_ne_empty {t : Destination} (h : Disk.IsName t.filename) : t.path ≠ "" := by
  intro he
  have hplace := Destination.placeOf_path h
  rw [he] at hplace
  exact absurd hplace (by simp [Disk.placeOf_empty])

/-- The path of the copy is taken for a source as it is. -/
theorem resolve_path {path : String} (hne : path ≠ "") (htrim : Text.trimmed path = path)
    (hpath : Source.classify path = .path path) (s : Settings) : resolve (some path) s = .ok ⟨.path path, true⟩ := by
  rw [← hpath]
  exact resolve_given (by simp [givenSource, htrim, hne]) s

/-- The copy of the schema has its text. -/
theorem Succeeded.copy_stands (h : Succeeded o w input outcome) {t : Destination} (ht : t ∈ Generator.schemaCopy.destinations o)
    (hsaves : ¬SavesAt o w (placeOf t.path)) : Stands outcome.disk t.path input.text := by
  obtain ⟨path, hpath, rfl⟩ := List.mem_map.1 ht
  have hgraphql : o.graphql = some path := Option.mem_toList.1 hpath
  have hrequested : Generator.schemaCopy ∈ Generator.requested o := by
    simp [Generator.requested, Generator.all, Generator.isRequested, hgraphql]
  refine h.stands _ hrequested ⟨_, input.text⟩ ?_ hsaves
  rw [Generator.files, Generator.artifacts, Generator.destinations, hgraphql]
  exact List.mem_singleton.2 rfl

/-- A run without failures that was asked for a copy of the schema can be done again from this copy, whatever else has been
written in the meantime, as long as nothing is written over the copy itself: it has the same report, reads the same tree, and
all files but the client's module are the same; this one is the same but for the endpoint. -/
theorem replay_schemaCopy (h : Runs o w outcome) (hr : outcome.result = .ok report) (hf : report.failures = [])
    {t : Destination} (ht : t ∈ Generator.schemaCopy.destinations o) (htrim : Text.trimmed t.path = t.path)
    (hpath : Source.classify t.path = .path t.path) :
    ∃ input, Succeeded o w input outcome ∧ (¬SavesAt o w (placeOf t.path) → outcome.disk.readText t.path = .ok input.text) ∧
    ∀ (between : List Step) (settings : Settings) (e : Http.Endpoint) (headers : List String) (method : Method)
      (saveOnInput : Bool),
      let o' := o.readingFrom t.path headers method saveOnInput
      let w' : Surroundings := ⟨settings, between.foldl (fun d s => (s.take d).1) outcome.disk, e⟩
      let input' : SchemaInput := ⟨input.text, input.tree, .path t.path⟩
      w'.disk.readText t.path = .ok input.text → ¬SavesAt o' w' (placeOf t.path) →
        MadeAlike o o' input input' ∧ Runs o' w' (run o' w') ∧
          ∀ outcome', Runs o' w' outcome' → outcome'.result = .ok report ∧ Succeeded o' w' input' outcome' := by
  obtain ⟨input, hsucceeded⟩ := h.succeeded hr hf
  refine ⟨input, hsucceeded, fun hsaves => (hsucceeded.copy_stands ht hsaves).readText, ?_⟩
  intro between settings e headers method saveOnInput o' w' input' hread hsaves
  have halike : MadeAlike o o' input input' := by
    refine madeAlike ?_ ?_ _ _ _ _ <;> rfl
  refine ⟨halike, runs_run o' w', fun outcome' h' => ?_⟩
  have hres : resolve o'.source w'.settings = .ok ⟨.path t.path, true⟩ :=
    resolve_path (Destination.path_ne_empty (Generator.filename_spec o _ t ht).1) htrim hpath settings
  have hheld : ∀ t ∈ Generator.requestedDestinations o', Held w'.disk t.path := by
    intro t ht
    refine List.foldlRecOn (motive := fun d => Held d t.path) between _ (hsucceeded.held t ht) fun d hd s _ => ?_
    exact Step.take_held hd s
  have hsucceeded' : Succeeded o' w' input' outcome' := h'.succeeded_of_stands hres rfl hsaves (Disk.readText_ok_iff.1 hread)
    hsucceeded.readSchema rfl (halike.artifacts hsucceeded.artifacts) hheld
  refine ⟨?_, hsucceeded'⟩
  rw [← hr, hsucceeded.result]
  exact hsucceeded'.result

def orchardText : String := "type Query \x7b pear: ID \x7d"

def orchardOptions : Options :=
  ⟨some "http://orchard", "out", [], .post, .browser, .commonJs, false, .legacy, some "copies", some "out", true, true⟩

def orchardSurroundings : Surroundings := ⟨.memory [], ⟨[]⟩, fun _ => some ⟨200, [], orchardText.toUTF8.toList, none⟩⟩

/-- The endpoint does not answer any more. -/
theorem replay_schemaCopy_orchard : ∃ report input, (run orchardOptions orchardSurroundings).result = .ok report ∧
    report.written = ["copies/schema.graphql", "out/schema.json", "out/zeus/const.ts", "out/zeus/index.ts",
      "out/zeus/typedDocumentNode.ts"] ∧
    Succeeded orchardOptions orchardSurroundings input (run orchardOptions orchardSurroundings) ∧
    let o' := orchardOptions.readingFrom "copies/schema.graphql" [] .get false
    let w' : Surroundings := ⟨.memory [], (run orchardOptions orchardSurroundings).disk, fun _ => none⟩
    MadeAlike orchardOptions o' input ⟨input.text, input.tree, .path "copies/schema.graphql"⟩ ∧
      (run o' w').result = .ok report ∧ Succeeded o' w' ⟨input.text, input.tree, .path "copies/schema.graphql"⟩ (run o' w') := by
  have hresult : (run orchardOptions orchardSurroundings).result.toOption = some ⟨["copies/schema.graphql", "out/schema.json",
      "out/zeus/const.ts", "out/zeus/index.ts", "out/zeus/typedDocumentNode.ts"], []⟩ := by decide +kernel
  cases hr : (run orchardOptions orchardSurroundings).result with
  | error f => rw [hr] at hresult; cases hresult
  | ok report =>
    rw [hr] at hresult
    obtain rfl := Option.some.inj hresult
    obtain ⟨input, hsucceeded, hcopy, hreplay⟩ := replay_schemaCopy (t := ⟨"copies", "schema.graphql"⟩)
      (runs_run orchardOptions orchardSurroundings) hr rfl (by decide +kernel) (by decide +kernel) (by decide +kernel)
    obtain ⟨halike, hrun, hall⟩ := hreplay [] (.memory []) (fun _ => none) [] .get false (hcopy not_savesAt_memory)
      not_savesAt_memory
    exact ⟨_, input, rfl, rfl, hsucceeded, halike, hall _ hrun⟩

end GraphqlCodegen
