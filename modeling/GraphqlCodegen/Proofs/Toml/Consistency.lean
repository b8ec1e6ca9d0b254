import Mathlib.Data.List.Basic
import GraphqlCodegen.Toml.Document

/-!
# Each key at the top is defined on its own

A statement changes what one key at the top stands for, and whether it may do so depends on this key alone (`ActsAt`). So
the statements of a file are consistent just when those under each key are (`isSome_runs_iff`), and statements under
different keys change places once the keys are there (`runs_pull`).
-/

namespace GraphqlCodegen.Toml

/-! ## Tables as maps -/

/-- What a key stands for. -/
def at? (key : String) (cs : Children) : Option Node := (cs.find? (·.1 == key)).map (·.2)

/-- Lets a key stand for something, in its place if it is there. -/
def put (key : String) (n : Node) : Children → Children
  | [] => [(key, n)]
  | (k, m) :: rest => if k = key then (k, n) :: rest else (k, m) :: put key n rest

theorem at?_cons (key k : String) (n : Node) (rest : Children) :
    at? key ((k, n) :: rest) = if k = key then some n else at? key rest := by
  unfold at?
  rw [List.find?_cons]
  by_cases hk : k = key
  · simp [hk]
  · rw [show (k == key) = false by simpa using hk, if_neg hk]

@[simp] theorem at?_put_self (key : String) (n : Node) (cs : Children) : at? key (put key n cs) = some n := by
  induction cs with
  | nil => simp [put, at?_cons]
  | cons p rest ih =>
    obtain ⟨k, m⟩ := p
    by_cases hk : k = key
    · simp [put, hk, at?_cons]
    · simp [put, hk, at?_cons, ih]

theorem at?_put_ne {key other : String} (h : other ≠ key) (n : Node) (cs : Children) : at? other (put key n cs) = at? other cs := by
  induction cs with
  | nil => simp [put, at?_cons, h.symm]
  | cons p rest ih =>
    obtain ⟨k, m⟩ := p
    by_cases hk : k = key
    · subst hk; simp [put, at?_cons, h.symm]
    · simp [put, hk, at?_cons, ih]

@[simp] theorem put_put (key : String) (n m : Node) (cs : Children) : put key n (put key m cs) = put key n cs := by
  induction cs with
  | nil => simp [put]
  | cons p rest ih =>
    obtain ⟨k, l⟩ := p
    by_cases hk : k = key
    · simp [put, hk]
    · simp [put, hk, ih]

theorem put_same {key : String} {n : Node} {cs : Children} (h : at? key cs = some n) : put key n cs = cs := by
  induction cs with
  | nil => cases h
  | cons p rest ih =>
    obtain ⟨k, m⟩ := p
    rw [at?_cons] at h
    by_cases hk : k = key
    · rw [if_pos hk] at h
      cases h
      rw [put, if_pos hk]
    · rw [if_neg hk] at h
      rw [put, if_neg hk, ih h]

/-- A key that is there keeps its place, whichever of two keys is put first. -/
theorem put_comm {key other : String} (h : other ≠ key) {cs : Children} (hk : at? key cs ≠ none) (n m : Node) :
    put key n (put other m cs) = put other m (put key n cs) := by
  induction cs with
  | nil => exact absurd rfl hk
  | cons p rest ih =>
    obtain ⟨k, l⟩ := p
    rw [at?_cons] at hk
    by_cases h1 : k = key
    · subst h1
      simp [put, h.symm]
    · rw [if_neg h1] at hk
      by_cases h2 : k = other
      · subst h2; simp [put, h1]
      · simp [put, h1, h2, ih hk]

theorem change_eq (key : String) (f : Option Node → Option Node) (cs : Children) :
    change key f cs = (f (at? key cs)).map fun n => put key n cs := by
  induction cs with
  | nil => rfl
  | cons p rest ih =>
    obtain ⟨k, m⟩ := p
    by_cases hk : k = key
    · simp [change, hk, at?_cons, put]
    · simp only [change, if_neg hk, ih, at?_cons, Option.map_map, put]
      rfl

/-! ## What acts at one key -/

/-- The function changes what the key stands for, by what it stands for. -/
def ActsAt (key : String) (g : Children → Option Children) : Prop := ∃ f, g = change key f

theorem ActsAt.change (key : String) (f : Option Node → Option Node) : ActsAt key (change key f) := ⟨f, rfl⟩

theorem ActsAt.never (key : String) : ActsAt key fun _ => none :=
  ⟨fun _ => none, funext fun cs => by rw [change_eq]; rfl⟩

/-- One after the other at the same key. -/
theorem ActsAt.comp {key : String} {g h : Children → Option Children} (hg : ActsAt key g) (hh : ActsAt key h) :
    ActsAt key fun cs => (g cs).bind h := by
  obtain ⟨f, rfl⟩ := hg
  obtain ⟨f', rfl⟩ := hh
  refine ⟨fun o => (f o).bind fun n => f' (some n), funext fun cs => ?_⟩
  rw [change_eq, change_eq]
  cases f (at? key cs) with
  | none => rfl
  | some n =>
    simp only [Option.map_some, Option.bind_some]
    rw [change_eq, at?_put_self]
    simp

theorem ActsAt.foldlM {α : Type} {key : String} {g : α → Children → Option Children} {as : List α}
    (h : ∀ a ∈ as, ActsAt key (g a)) (hne : as ≠ []) : ActsAt key fun cs => as.foldlM (fun cs a => g a cs) cs := by
  induction as with
  | nil => exact absurd rfl hne
  | cons a as ih =>
    have ha := h a List.mem_cons_self
    cases as with
    | nil =>
      obtain ⟨f, hf⟩ := ha
      refine ⟨f, funext fun cs => ?_⟩
      rw [← hf, List.foldlM_cons]
      cases g a cs <;> rfl
    | cons b as =>
      have hrest := ih (fun x hx => h x (List.mem_cons_of_mem _ hx)) (by simp)
      exact ha.comp hrest

section Acting

variable {key : String} {g : Children → Option Children} (hg : ActsAt key g)

include hg

/-- Whether something can be done at a key, and what becomes of it, depends on this key alone. -/
theorem ActsAt.congr {cs ds : Children} (h : at? key cs = at? key ds) :
    (g cs).bind (at? key) = (g ds).bind (at? key) ∧ (g cs).isSome = (g ds).isSome := by
  obtain ⟨f, rfl⟩ := hg
  rw [change_eq, change_eq, h]
  cases f (at? key ds) <;> simp

theorem ActsAt.self {cs cs' : Children} (h : g cs = some cs') : at? key cs' ≠ none := by
  obtain ⟨f, rfl⟩ := hg
  rw [change_eq] at h
  obtain ⟨n, -, rfl⟩ := Option.map_eq_some_iff.1 h
  simp

theorem ActsAt.other {cs cs' : Children} (h : g cs = some cs') {other : String} (ho : other ≠ key) : at? other cs' = at? other cs := by
  obtain ⟨f, rfl⟩ := hg
  rw [change_eq] at h
  obtain ⟨n, -, rfl⟩ := Option.map_eq_some_iff.1 h
  exact at?_put_ne ho n cs

theorem ActsAt.comm {other : String} {h : Children → Option Children} (hh : ActsAt other h) (ho : other ≠ key) {cs : Children}
    (hk : at? key cs ≠ none) : (h cs).bind g = (g cs).bind h := by
  obtain ⟨f, rfl⟩ := hg
  obtain ⟨f', rfl⟩ := hh
  rw [change_eq, change_eq]
  cases hf : f (at? key cs) with
  | none =>
    cases hf' : f' (at? other cs) with
    | none => rfl
    | some m => simp [change_eq, at?_put_ne ho.symm, hf]
  | some n =>
    cases hf' : f' (at? other cs) with
    | none => simp [change_eq, at?_put_ne ho, hf']
    | some m => simp [change_eq, at?_put_ne ho.symm, at?_put_ne ho, hf, hf', put_comm ho hk]

end Acting

/-! ## Steps at several keys -/

/-- What is done to a table, with the key that it is done at. -/
abbrev Block := String × (Children → Option Children)

def runs (bs : List Block) (cs : Children) : Option Children := bs.foldlM (fun cs b => b.2 cs) cs

/-- The blocks act at their keys. -/
def Act (bs : List Block) : Prop := ∀ b ∈ bs, ActsAt b.1 b.2

theorem runs_cons (b : Block) (bs : List Block) (cs : Children) : runs (b :: bs) cs = (b.2 cs).bind (runs bs) := rfl

theorem runs_append (as bs : List Block) (cs : Children) : runs (as ++ bs) cs = (runs as cs).bind (runs bs) := by
  rw [runs, List.foldlM_append]
  rfl

theorem Act.tail {b : Block} {bs : List Block} (h : Act (b :: bs)) : Act bs := fun a ha => h a (List.mem_cons_of_mem _ ha)

theorem Act.filter {bs : List Block} (h : Act bs) (p : Block → Bool) : Act (bs.filter p) := fun b hb => h b (List.mem_filter.1 hb).1

theorem Act.actsAt {bs : List Block} (h : Act bs) {key : String} (hkey : ∀ b ∈ bs, b.1 = key) (hne : bs ≠ []) :
    ActsAt key (runs bs) := by
  refine ActsAt.foldlM (g := fun b => b.2) (fun b hb => ?_) hne
  rw [← hkey b hb]
  exact h b hb

theorem mem_filter_key {bs : List Block} {key : String} {b : Block} (h : b ∈ bs.filter (·.1 == key)) : b.1 = key := by
  simpa using (List.mem_filter.1 h).2

theorem isSome_runs_congr {bs : List Block} (h : Act bs) {key : String} (hkey : ∀ b ∈ bs, b.1 = key) {cs ds : Children}
    (hat : at? key cs = at? key ds) : (runs bs cs).isSome = (runs bs ds).isSome := by
  by_cases hne : bs = []
  · subst hne; rfl
  · exact ((h.actsAt hkey hne).congr hat).2

/-- Steps can be taken if for each key those at this key can be taken. -/
theorem isSome_runs_iff {bs : List Block} (h : Act bs) (cs : Children) :
    (runs bs cs).isSome = true ↔ ∀ key, (runs (bs.filter (·.1 == key)) cs).isSome = true := by
  induction bs generalizing cs with
  | nil => simp [runs]
  | cons b bs ih =>
    have hb := h b List.mem_cons_self
    have hself : (b :: bs).filter (·.1 == b.1) = b :: bs.filter (·.1 == b.1) := by simp
    have hother : ∀ {key}, key ≠ b.1 → (b :: bs).filter (·.1 == key) = bs.filter (·.1 == key) := fun hk => by
      rw [List.filter_cons_of_neg (by simpa using hk.symm)]
    -- the other keys are as before
    have hsame : ∀ {cs' key}, b.2 cs = some cs' → key ≠ b.1 →
        (runs (bs.filter (·.1 == key)) cs').isSome = (runs (bs.filter (·.1 == key)) cs).isSome := fun hcs hk =>
      isSome_runs_congr (h.tail.filter _) (fun _ => mem_filter_key) (hb.other hcs hk)
    rw [runs_cons]
    cases hcs : b.2 cs with
    | none =>
      simp only [Option.bind_none, Option.isSome_none, Bool.false_eq_true, false_iff, not_forall]
      exact ⟨b.1, by rw [hself, runs_cons, hcs]; simp⟩
    | some cs' =>
      rw [Option.bind_some, ih h.tail cs']
      constructor
      · intro hall key
        by_cases hk : key = b.1
        · rw [hk, hself, runs_cons, hcs]
          exact hall b.1
        · rw [hother hk, ← hsame hcs hk]
          exact hall key
      · intro hall key
        by_cases hk : key = b.1
        · have hkey := hall b.1
          rw [hself, runs_cons, hcs] at hkey
          rw [hk]
          exact hkey
        · rw [hsame hcs hk, ← hother hk]
          exact hall key

/-- The steps at a key that is there may be taken before the others. -/
theorem runs_pull {bs : List Block} (h : Act bs) {key : String} {cs : Children} (hk : at? key cs ≠ none) :
    runs bs cs = (runs (bs.filter (·.1 == key)) cs).bind (runs (bs.filter (·.1 != key))) := by
  induction bs generalizing cs with
  | nil => rfl
  | cons b bs ih =>
    have hb := h b List.mem_cons_self
    by_cases hbk : b.1 = key
    · rw [List.filter_cons_of_pos (by simpa using hbk), List.filter_cons_of_neg (by simpa using hbk), runs_cons, runs_cons]
      cases hcs : b.2 cs with
      | none => rfl
      | some cs' => exact ih h.tail (hbk ▸ hb.self hcs)
    · rw [List.filter_cons_of_neg (by simpa using hbk), List.filter_cons_of_pos (by simpa using hbk), runs_cons]
      have hcomm : (b.2 cs).bind (runs (bs.filter (·.1 == key))) = (runs (bs.filter (·.1 == key)) cs).bind b.2 := by
        by_cases hne : bs.filter (·.1 == key) = []
        · rw [hne, show runs [] = some from rfl, Option.bind_fun_some, Option.bind_some]
        · exact (Act.actsAt (h.tail.filter _) (fun _ => mem_filter_key) hne).comm hb hbk hk
      rw [show runs (b :: bs.filter (·.1 != key)) = fun cs => (b.2 cs).bind (runs (bs.filter (·.1 != key))) from rfl,
        ← Option.bind_assoc, ← hcomm, Option.bind_assoc]
      cases hcs : b.2 cs with
      | none => rfl
      | some cs' =>
        have hk' : at? key cs' ≠ none := by rwa [hb.other hcs (Ne.symm hbk)]
        exact ih h.tail hk'

/-! ## Statements -/

theorem assign_actsAt (path : List String) : ActsAt (root path) (assign path) := by
  cases path with
  | nil => exact .never _
  | cons k t =>
    cases t with
    | nil => exact .change _ _
    | cons j t => cases t <;> exact .change _ _

theorem inTable_actsAt (key : String) (keys : List String) (f : Children → Option Children) :
    ActsAt key (inTable (key :: keys) f) := .change _ _

theorem define_actsAt (h : Header) : ActsAt (root h.path) h.define := by
  obtain ⟨path, isElement⟩ := h
  cases path with
  | nil => exact .never _
  | cons k t =>
    cases t with
    | nil => exact .change _ _
    | cons j t =>
      obtain ⟨last, hlast⟩ : ∃ last, (k :: j :: t).getLast? = some last := ⟨_, List.getLast?_eq_some_getLast (by simp)⟩
      have heq : Header.define ⟨k :: j :: t, isElement⟩ =
          inTable (k :: (j :: t).dropLast) (Toml.change last (if isElement then openElement else openTable)) := funext fun cs => by
        simp only [Header.define, hlast, Option.bind_eq_bind, Option.bind_some]
        rfl
      rw [heq]
      exact inTable_actsAt _ _ _

/-! ## Documents -/

def Line.block (l : Line) : Block := (root l.path, assign l.path)

namespace Section

/-- Defines the table of a section and all that its lines define. -/
def define (s : Section) (cs : Children) : Option Children := (s.header.define cs).bind fun cs =>
  s.lines.foldlM (fun cs l => inTable s.header.path (assign l.path) cs) cs

def block (s : Section) : Block := (root s.header.path, s.define)

def statements (s : Section) : List Statement := .header s.header s.head :: s.lines.map .line

theorem define_actsAt (s : Section) : ActsAt (root s.header.path) s.define := by
  have hheader := Toml.define_actsAt s.header
  unfold define
  cases hp : s.header.path with
  | nil =>
    have hnone : ∀ cs, s.header.define cs = none := fun cs => by simp [Header.define, hp]
    simp only [hnone, Option.bind_none]
    exact .never _
  | cons k t =>
    rw [hp] at hheader
    by_cases hl : s.lines = []
    · rw [hl]
      have hpure : (fun cs => (s.header.define cs).bind fun cs => List.foldlM
          (fun cs (l : Line) => inTable (k :: t) (assign l.path) cs) cs []) = s.header.define := funext fun cs => Option.bind_fun_some _
      rwa [hpure]
    · exact hheader.comp (ActsAt.foldlM (g := fun (l : Line) => inTable (k :: t) (assign l.path))
        (fun _ _ => inTable_actsAt _ _ _) hl)

end Section

namespace Document

variable (d : Document)

def blocks : List Block := d.lines.map Line.block ++ d.sections.map Section.block

def statements : List Statement := d.lines.map .line ++ d.sections.flatMap Section.statements

theorem act_blocks : Act d.blocks := by
  intro b hb
  rcases List.mem_append.1 hb with hb | hb
  · obtain ⟨l, -, rfl⟩ := List.mem_map.1 hb
    exact assign_actsAt l.path
  · obtain ⟨s, -, rfl⟩ := List.mem_map.1 hb
    exact s.define_actsAt

end Document

theorem define_lines (under : List String) (ls : List Line) (cs : Children) :
    (ls.map Statement.line).foldlM Statement.define ⟨under, cs⟩ =
      (ls.foldlM (fun cs l => inTable under (assign l.path) cs) cs).map fun cs => ⟨under, cs⟩ := by
  induction ls generalizing cs with
  | nil => rfl
  | cons l ls ih =>
    rw [List.map_cons, List.foldlM_cons, List.foldlM_cons, Statement.define]
    cases inTable under (assign l.path) cs with
    | none => rfl
    | some cs' => exact ih cs'

/-- What the statements of sections define does not depend on the header that stands in front of them. -/
theorem define_sections (ss : List Section) (under : List String) (cs : Children) :
    ((ss.flatMap Section.statements).foldlM Statement.define ⟨under, cs⟩).isSome = (runs (ss.map Section.block) cs).isSome := by
  induction ss generalizing under cs with
  | nil => rfl
  | cons s ss ih =>
    rw [List.flatMap_cons, Section.statements, List.cons_append, List.foldlM_cons, List.map_cons, runs_cons, Statement.define]
    show _ = ((s.define cs).bind _).isSome
    rw [Section.define]
    cases s.header.define cs with
    | none => rfl
    | some cs' =>
      simp only [Option.map_some, Option.bind_eq_bind, Option.bind_some]
      rw [List.foldlM_append, define_lines]
      cases s.lines.foldlM (fun cs l => inTable s.header.path (assign l.path) cs) cs' with
      | none => rfl
      | some cs'' => exact ih s.header.path cs''

theorem areConsistent_statements (d : Document) : areConsistent d.statements = (runs d.blocks []).isSome := by
  rw [areConsistent, Document.statements, Document.blocks, List.foldlM_append, runs_append, define_lines]
  have hruns : ∀ cs, d.lines.foldlM (fun cs l => inTable [] (assign l.path) cs) cs = runs (d.lines.map Line.block) cs := by
    intro cs
    rw [runs, List.foldlM_map]
    rfl
  rw [hruns]
  cases runs (d.lines.map Line.block) [] with
  | none => rfl
  | some cs => exact define_sections d.sections [] cs

end GraphqlCodegen.Toml
