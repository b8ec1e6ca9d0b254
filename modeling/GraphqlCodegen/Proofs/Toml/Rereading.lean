import GraphqlCodegen.Proofs.Toml.Documents
import GraphqlCodegen.Proofs.Toml.Quoting

/-!
# A document that was written is read back

The text of a sound document reads as the same document with its lines in the order of the text (`read?_text`). A document is
sound if each of its statements is read from its own text (`Document.Rereads`), as all statements of a text without
carriage returns are, and it stays sound when strings are set in it (`IsSound.set`).
-/

namespace GraphqlCodegen.Toml

/-! ## Statements and what they are arranged to -/

theorem arrange_lines (ls : List Line) (ss : List Statement) :
    arrange (ls.map .line ++ ss) = (ls ++ (arrange ss).1, (arrange ss).2) := by
  induction ls with
  | nil => rfl
  | cons l ls ih => rw [List.map_cons, List.cons_append, arrange, ih]; rfl

theorem arrange_statements (d : Document) : arrange d.statements = (d.lines, d.sections) := by
  have hsections : ∀ ss : List Section, arrange (ss.flatMap Section.statements) = ([], ss) := by
    intro ss
    induction ss with
    | nil => rfl
    | cons s ss ih =>
      rw [List.flatMap_cons, Section.statements, List.cons_append, arrange, arrange_lines, ih, List.append_nil]
  rw [Document.statements, arrange_lines, hsections, List.append_nil]

theorem statements_arrange (ss : List Statement) :
    (arrange ss).1.map .line ++ (arrange ss).2.flatMap Section.statements = ss := by
  induction ss with
  | nil => rfl
  | cons s ss ih =>
    cases s with
    | line l =>
      rw [arrange]
      exact congrArg (Statement.line l :: ·) ih
    | header h text =>
      rw [arrange]
      simp only [List.map_nil, List.nil_append, List.flatMap_cons, Section.statements, List.cons_append]
      rw [ih]

/-! ## Texts of statements -/

theorem statement_of_trivia {cs : List Char} (h : skipTrivia cs = []) : statement cs = none := by
  rw [statement_eq, h, Statement.front_pair (by simp), readPair, pair_eq]
  rfl

theorem length_text {s : Statement} {cs rest : List Char} (h : statement cs = some (s, rest)) : 0 < s.text.toList.length := by
  rw [statement_eq] at h
  obtain ⟨⟨f, rest₁⟩, hf, hmap⟩ := Option.bind_eq_some_iff.1 h
  obtain ⟨rest, -, he⟩ := Option.map_eq_some_iff.1 hmap
  cases he
  rw [Statement.text_front hf, endedLine, String.toList_ofList]
  split
  · rename_i hlast
    rw [List.length_pos_iff]
    intro h0
    rw [h0] at hlast
    cases hlast
  · simp

/-- The texts of statements and the trivia behind them are read as what they are. -/
theorem statements_texts {tail : List Char} (ht : skipTrivia tail = []) : ∀ {ss : List Statement} {n : Nat},
    (∀ s ∈ ss, s.Rereads) → (ss.flatMap (·.text.toList) ++ tail).length < n →
      statements n (ss.flatMap (·.text.toList) ++ tail) = some (ss, tail)
  | [], n, _, hn => by
    obtain ⟨n, rfl⟩ := exists_succ (n := n) (k := 0) (by omega)
    rw [List.flatMap_nil, List.nil_append, statements, ht]
  | s :: ss, n, hs, hn => by
    have hpos := length_text (hs s List.mem_cons_self)
    obtain ⟨n, rfl⟩ := exists_succ (n := n) (k := 0) (by omega)
    rw [List.flatMap_cons, List.append_assoc] at hn ⊢
    have hread := (hs s List.mem_cons_self).reads (ss.flatMap (·.text.toList) ++ tail)
    have hrest := statements_texts ht (n := n) (fun s' hs' => hs s' (List.mem_cons_of_mem _ hs'))
      (by rw [List.length_append] at hn; omega)
    rw [statements]
    split
    · rename_i hskip
      rw [statement_of_trivia hskip] at hread
      cases hread
    · simp only [hread, hrest, Option.bind_eq_bind, Option.bind_some]
      rfl

theorem statements_tail : ∀ {n : Nat} {cs : List Char} {ss : List Statement} {tail : List Char}, statements n cs = some (ss, tail) →
    skipTrivia tail = []
  | n + 1, cs, ss, tail, h => by
    rw [statements] at h
    split at h
    · rename_i hskip
      cases h
      exact hskip
    · obtain ⟨⟨s, rest⟩, -, hmore⟩ := Option.bind_eq_some_iff.1 (show Option.bind _ _ = _ from h)
      obtain ⟨⟨more, tail'⟩, hm, he⟩ := Option.bind_eq_some_iff.1 (show Option.bind _ _ = _ from hmore)
      cases he
      exact statements_tail hm

/-- The statements of a text without carriage returns are read from their own texts. -/
theorem statements_reread : ∀ {n : Nat} {cs : List Char} {ss : List Statement} {tail : List Char}, '\r' ∉ cs →
    statements n cs = some (ss, tail) → (∀ s ∈ ss, s.Rereads) ∧ '\r' ∉ tail
  | n + 1, cs, ss, tail, hr, h => by
    rw [statements] at h
    split at h
    · cases h
      exact ⟨by simp, hr⟩
    · obtain ⟨⟨s, rest⟩, hs, hmore⟩ := Option.bind_eq_some_iff.1 (show Option.bind _ _ = _ from h)
      obtain ⟨⟨more, tail'⟩, hm, he⟩ := Option.bind_eq_some_iff.1 (show Option.bind _ _ = _ from hmore)
      cases he
      obtain ⟨⟨v, rfl⟩, -⟩ := Statement.reads_text hr hs
      obtain ⟨hall, htail⟩ := statements_reread (fun hm => hr (List.mem_append_right _ hm)) hm
      refine ⟨fun s' hs' => ?_, htail⟩
      rcases List.mem_cons.1 hs' with rfl | hs'
      · exact Statement.rereads_of_read hr hs
      · exact hall s' hs'

/-- What begins with a byte order mark is no statement. -/
theorem dropByteOrderMark_of_statements {n : Nat} {cs : List Char} {r : List Statement × List Char}
    (h : statements n cs = some r) : dropByteOrderMark cs = cs := by
  cases n with
  | zero => cases h
  | succ n =>
    unfold dropByteOrderMark
    split
    · rename_i cs
      have hskip : skipTrivia ('\ufeff' :: cs) = '\ufeff' :: cs := skipTrivia_stop (by decide) cs
      have hnone : statement ('\ufeff' :: cs) = none := by
        rw [statement_eq, hskip, Statement.front_pair (by simp), readPair, pair_eq, key]
        have hkey : simpleKey ('\ufeff' :: cs) = none := by
          rw [simpleKey_quoted (List.takeWhile_cons_of_neg (by decide))]
          rfl
        rw [hkey]
        rfl
      rw [statements, hskip] at h
      simp only [hnone] at h
      cases h
    · rfl

/-! ## Documents -/

namespace Document

/-- Every statement of the document is read from its own text, and nothing else is in the text. -/
structure Rereads (d : Document) : Prop where
  statements : ∀ s ∈ d.statements, s.Rereads
  tail : skipTrivia d.tail.toList = []

/-- The document can be written and read back. -/
structure IsSound (d : Document) : Prop extends d.HasKeys, d.Rereads where
  consistent : d.IsConsistent
  noReturn : '\r' ∉ d.tail.toList

/-- The document that statements and the text behind them make up. -/
def ofStatements (ss : List Statement) (tail : List Char) : Document where
  keys := firsts ((arrange ss).1.map (root ·.path) ++ (arrange ss).2.map (root ·.header.path))
  lines := (arrange ss).1
  sections := (arrange ss).2
  tail := String.ofList (tail.filter (· != '\r'))

theorem read?_eq (text : String) : read? text =
    (Toml.statements ((dropByteOrderMark text.toList).length + 1) (dropByteOrderMark text.toList)).bind fun r =>
      if areConsistent r.1 then some (ofStatements r.1 r.2) else none := by
  unfold read?
  simp only [Option.bind_eq_bind]
  congr 1
  funext r
  obtain ⟨ss, tail⟩ := r
  cases areConsistent ss <;> rfl

theorem statements_ofStatements (ss : List Statement) (tail : List Char) : (ofStatements ss tail).statements = ss :=
  statements_arrange ss

theorem hasKeys_ofStatements (ss : List Statement) (tail : List Char) : (ofStatements ss tail).HasKeys :=
  ⟨nodup_firsts _, fun _ hl => mem_firsts.2 (List.mem_append_left _ (List.mem_map_of_mem hl))⟩

/-- Read from a text without carriage returns, a document can be read back. -/
theorem rereads_of_noReturn {text : String} {d : Document} (hr : '\r' ∉ text.toList) (h : read? text = some d) : d.Rereads := by
  rw [read?_eq] at h
  obtain ⟨⟨ss, tail⟩, hs, h⟩ := Option.bind_eq_some_iff.1 h
  simp only at h
  split at h
  · cases h
    have hcs : '\r' ∉ dropByteOrderMark text.toList := by
      unfold dropByteOrderMark
      split
      · rename_i cs hcs
        rw [hcs] at hr
        exact fun hm => hr (List.mem_cons_of_mem _ hm)
      · exact hr
    obtain ⟨hall, htail⟩ := statements_reread hcs hs
    refine ⟨by rwa [statements_ofStatements], ?_⟩
    have hfilter : tail.filter (· != '\r') = tail := List.filter_eq_self.2 fun c hc => by
      simp only [bne_iff_ne, ne_eq]
      rintro rfl
      exact htail hc
    rw [ofStatements, hfilter, String.toList_ofList]
    exact statements_tail hs
  · cases h

/-- A document that was read is sound if it can be read back. -/
theorem IsSound.of_read {text : String} {d : Document} (h : read? text = some d) (hd : d.Rereads) : d.IsSound := by
  rw [read?_eq] at h
  obtain ⟨⟨ss, tail⟩, -, h⟩ := Option.bind_eq_some_iff.1 h
  simp only at h
  split at h
  · rename_i hc
    cases h
    refine ⟨hasKeys_ofStatements ss tail, hd, ?_, by simp [ofStatements]⟩
    rw [IsConsistent, statements_ofStatements]
    exact hc
  · cases h

theorem isSound_empty : empty.IsSound :=
  ⟨⟨List.nodup_nil, nofun⟩, ⟨nofun, rfl⟩, rfl, by decide⟩

theorem mem_statements {d : Document} {s : Statement} : s ∈ d.statements ↔
    (∃ l ∈ d.lines, s = .line l) ∨ ∃ t ∈ d.sections, s = .header t.header t.head ∨ ∃ l ∈ t.lines, s = .line l := by
  simp only [statements, Section.statements, List.mem_append, List.mem_map, List.mem_flatMap, List.mem_cons]
  constructor
  · rintro (⟨l, hl, rfl⟩ | ⟨t, ht, rfl | ⟨l, hl, rfl⟩⟩)
    · exact .inl ⟨l, hl, rfl⟩
    · exact .inr ⟨t, ht, .inl rfl⟩
    · exact .inr ⟨t, ht, .inr ⟨l, hl, rfl⟩⟩
  · rintro (⟨l, hl, rfl⟩ | ⟨t, ht, rfl | ⟨l, hl, rfl⟩⟩)
    · exact .inl ⟨l, hl, rfl⟩
    · exact .inr ⟨t, ht, .inl rfl⟩
    · exact .inr ⟨t, ht, .inr ⟨l, hl, rfl⟩⟩

theorem IsSound.set {d : Document} (h : d.IsSound) (key value : String) : (d.set key value).IsSound := by
  refine ⟨h.toHasKeys.set key value, ⟨fun s hs => ?_, h.tail⟩, isConsistent_set key value h.consistent, h.noReturn⟩
  rcases mem_statements.1 hs with ⟨l, hl, rfl⟩ | ⟨t, ht, hs⟩
  · rcases List.mem_append.1 hl with hl | hl
    · exact h.statements _ (mem_statements.2 (.inl ⟨l, (List.mem_filter.1 hl).1, rfl⟩))
    · obtain rfl := List.mem_singleton.1 hl
      exact rereads_writeEntry key value
  · exact h.statements _ (mem_statements.2 (.inr ⟨t, (List.mem_filter.1 ht).1, hs⟩))

theorem IsSound.written {d : Document} (h : d.IsSound) : d.written.IsSound := by
  refine ⟨HasKeys.written, ⟨fun s hs => ?_, h.tail⟩, isConsistent_written h.toHasKeys h.consistent, h.noReturn⟩
  refine h.statements s (mem_statements.2 ?_)
  rcases mem_statements.1 hs with ⟨l, hl, rfl⟩ | ⟨t, ht, hs⟩
  · exact .inl ⟨l, h.toHasKeys.topLines_perm.mem_iff.1 hl, rfl⟩
  · obtain ⟨t, ht', rfl⟩ := List.mem_map.1 ht
    exact .inr ⟨t, ht', hs.imp_right fun ⟨l, hl, he⟩ => ⟨l, mem_ordered.1 hl, he⟩⟩

theorem toList_text (d : Document) : d.text.toList = d.written.statements.flatMap (·.text.toList) ++ d.tail.toList := by
  have hlines : ∀ ls : List Line, (ls.map Statement.line).flatMap (·.text.toList) = (ls.map Line.text).flatMap String.toList := by
    intro ls
    rw [List.flatMap_map, List.flatMap_map]
    rfl
  have hsection : ∀ s : Section, s.text.toList = s.written.statements.flatMap (·.text.toList) := by
    intro s
    rw [Section.text, Section.statements, String.toList_append, String.toList_join, ← hlines]
    rfl
  have hsections : (d.sections.map Section.text).flatMap String.toList =
      (d.written.sections.flatMap Section.statements).flatMap (·.text.toList) := by
    rw [List.flatMap_assoc, show d.written.sections = d.sections.map Section.written from rfl, List.flatMap_map, List.flatMap_map]
    simp only [hsection]
  rw [text, String.toList_append, String.toList_append, String.toList_join, String.toList_join, statements, List.flatMap_append,
    hlines, hsections]
  rfl

/-- The text of a sound document reads as the document in the order of the text. -/
theorem read?_text {d : Document} (h : d.IsSound) : read? d.text = some d.written := by
  have hw := h.written
  have hread := statements_texts hw.tail hw.statements (Nat.lt_succ_self _)
  have htail : d.tail.toList.filter (· != '\r') = d.tail.toList := List.filter_eq_self.2 fun c hc => by
    simp only [bne_iff_ne, ne_eq]
    rintro rfl
    exact h.noReturn hc
  rw [show d.written.tail = d.tail from rfl, ← toList_text] at hread
  rw [read?_eq, dropByteOrderMark_of_statements hread, hread, Option.bind_some]
  simp only [show areConsistent d.written.statements = true from hw.consistent, if_true]
  rw [ofStatements, arrange_statements, htail, String.ofList_toList]
  simp only [written, List.map_map]
  rfl

end Document
end GraphqlCodegen.Toml
