import Mathlib.Data.List.Induction
import Mathlib.Data.List.Nodup
import GraphqlCodegen.Entries

/-!
# Keys in order

Entries that were put one after the other stand in ascending order of their keys (`ordered_ofList`), so what
stands under a key is what is found under it (`mem_iff_get?`), and that is the value that was put there
last (`get?_ofList`). Pairs with different keys may be put in any order (`ofList_perm`).
-/

namespace GraphqlCodegen.Entries

variable {α : Type}

/-- Where no key is repeated, an element is the only one of its key. -/
theorem filter_of_nodup {key : α → String} {xs : List α} (hnd : (xs.map key).Nodup) {x : α} (hx : x ∈ xs) :
    xs.filter (key · = key x) = [x] := by
  induction xs with
  | nil => cases hx
  | cons y rest ih =>
    obtain ⟨hy, hrest⟩ := List.nodup_cons.1 hnd
    rcases List.mem_cons.1 hx with rfl | hx
    · have hnone : rest.filter (key · = key x) = [] :=
        List.filter_eq_nil_iff.2 fun z hz he => hy (of_decide_eq_true he ▸ List.mem_map_of_mem hz)
      simp [hnone]
    · have hne : key y ≠ key x := fun he => hy (he ▸ List.mem_map_of_mem hx)
      simp [hne, ih hrest hx]

theorem mem_put {key : String} {value : α} {p : String × α} {es : Entries α} :
    p ∈ put key value es → p = (key, value) ∨ p ∈ es := by
  induction es with
  | nil => simp [put]
  | cons q rest ih =>
    rw [put]
    split
    · simp
    · split
      · simp only [List.mem_cons]
        rintro (h | h)
        · exact .inl h
        · exact .inr (.inr h)
      · simp only [List.mem_cons]
        rintro (h | h)
        · exact .inr (.inl h)
        · exact (ih h).imp_right .inr

theorem mem_put_of_ne {key : String} {value : α} {p : String × α} {es : Entries α} (h : p ∈ es) (ne : p.1 ≠ key) :
    p ∈ put key value es := by
  induction es with
  | nil => cases h
  | cons q rest ih =>
    rw [put]
    split
    · exact List.mem_cons_of_mem _ h
    · rcases List.mem_cons.1 h with rfl | h
      · split
        · exact absurd (Eq.symm ‹key = _›) ne
        · exact List.mem_cons_self
      · split
        · exact List.mem_cons_of_mem _ h
        · exact List.mem_cons_of_mem _ (ih h)

/-- What stands under the other keys. -/
theorem mem_put_iff {key : String} {value : α} {p : String × α} {es : Entries α} (ne : p.1 ≠ key) :
    p ∈ put key value es ↔ p ∈ es := by
  refine ⟨fun h => (mem_put h).resolve_left ?_, fun h => mem_put_of_ne h ne⟩
  rintro rfl
  exact ne rfl

/-- The keys stand in ascending order, so each of them stands there once. -/
def Ordered (es : Entries α) : Prop := es.Pairwise fun p q => p.1 < q.1

theorem Ordered.put {es : Entries α} (h : Ordered es) (key : String) (value : α) : Ordered (put key value es) := by
  induction es with
  | nil => simp [Entries.put, Ordered]
  | cons q rest ih =>
    obtain ⟨hq, hrest⟩ := List.pairwise_cons.1 h
    rw [Entries.put]
    split
    · rename_i hlt
      refine List.pairwise_cons.2 ⟨fun p hp => ?_, h⟩
      rcases List.mem_cons.1 hp with rfl | hp
      · exact hlt
      · exact String.lt_trans hlt (hq p hp)
    · rename_i hlt
      split
      · rename_i heq
        exact List.pairwise_cons.2 ⟨fun p hp => heq ▸ hq p hp, hrest⟩
      · rename_i hne
        refine List.pairwise_cons.2 ⟨fun p hp => ?_, ih hrest⟩
        rcases mem_put hp with rfl | hp
        · -- the new key is neither before this one nor the same
          refine Decidable.byContradiction fun hn => hne ?_
          exact String.le_antisymm (String.not_lt.1 hn) (String.not_lt.1 hlt)
        · exact hq p hp

theorem mem_iff_get? {es : Entries α} (h : Ordered es) {key : String} {value : α} :
    (key, value) ∈ es ↔ get? key es = some value := by
  induction es with
  | nil => simp [get?]
  | cons q rest ih =>
    obtain ⟨k, v⟩ := q
    obtain ⟨hq, hrest⟩ := List.pairwise_cons.1 h
    rw [get?]
    split
    · rename_i heq
      subst heq
      have hn : (key, value) ∉ rest := fun hm => String.lt_irrefl key (hq _ hm)
      simp [hn, eq_comm]
    · rename_i hne
      simp [hne, ih hrest]

theorem ofList_concat (pairs : List (String × α)) (p : String × α) :
    ofList (pairs ++ [p]) = put p.1 p.2 (ofList pairs) := by
  simp [ofList]

theorem ordered_ofList (pairs : List (String × α)) : Ordered (ofList pairs) := by
  induction pairs using List.reverseRecOn with
  | nil => exact List.Pairwise.nil
  | append_singleton pairs p ih => rw [ofList_concat]; exact ih.put p.1 p.2

/-- Of a repeated key the last value is found. -/
theorem get?_ofList (key : String) (pairs : List (String × α)) :
    get? key (ofList pairs) = (pairs.filter (·.1 = key)).getLast?.map (·.2) := by
  induction pairs using List.reverseRecOn with
  | nil => rfl
  | append_singleton pairs p ih =>
    rw [ofList_concat, List.filter_append]
    by_cases h : p.1 = key
    · subst h; simp
    · rw [get?_put_ne (Ne.symm h), ih]
      simp [h]

theorem mem_ofList {pairs : List (String × α)} {key : String} {value : α} :
    (key, value) ∈ ofList pairs ↔ (pairs.filter (·.1 = key)).getLast? = some (key, value) := by
  rw [mem_iff_get? (ordered_ofList pairs), get?_ofList, Option.map_eq_some_iff]
  constructor
  · rintro ⟨p, hp, rfl⟩
    obtain ⟨-, hk⟩ := List.mem_filter.1 (List.mem_of_getLast? hp)
    rw [hp, ← of_decide_eq_true hk]
  · exact fun h => ⟨_, h, rfl⟩

theorem of_mem_ofList {pairs : List (String × α)} {p : String × α} (h : p ∈ ofList pairs) : p ∈ pairs :=
  (List.mem_filter.1 (List.mem_of_getLast? (mem_ofList.1 h))).1

/-- Every key that was put is there. -/
theorem mem_keys_ofList {pairs : List (String × α)} {key : String} :
    key ∈ (ofList pairs).map Prod.fst ↔ key ∈ pairs.map Prod.fst := by
  constructor
  · intro h
    obtain ⟨p, hp, rfl⟩ := List.mem_map.1 h
    exact List.mem_map_of_mem (of_mem_ofList hp)
  · intro h
    obtain ⟨p, hp, rfl⟩ := List.mem_map.1 h
    have hne : pairs.filter (·.1 = p.1) ≠ [] := List.ne_nil_of_mem (List.mem_filter.2 ⟨hp, decide_eq_true rfl⟩)
    obtain ⟨⟨key, value⟩, hlast⟩ := Option.ne_none_iff_exists'.1 (mt List.getLast?_eq_none_iff.1 hne)
    obtain rfl : key = p.1 := of_decide_eq_true (List.mem_filter.1 (List.mem_of_getLast? hlast)).2
    exact List.mem_map.2 ⟨_, mem_ofList.2 hlast, rfl⟩

/-- Of the elements with one name the last one is put. -/
theorem forall_mem_ofList {β : Type} {name : β → String} {value : β → α} {xs : List β} {P : α → Prop} :
    (∀ p ∈ ofList (xs.map fun x => (name x, value x)), P p.2) ↔
      ∀ x ∈ xs, (xs.filter (name · = name x)).getLast? = some x → P (value x) := by
  have hmem : ∀ {key v}, (key, v) ∈ ofList (xs.map fun x => (name x, value x)) ↔
      (xs.filter (name · = key)).getLast?.map value = some v := fun {key v} => by
    rw [mem_iff_get? (ordered_ofList _), get?_ofList, List.filter_map, List.getLast?_map, Option.map_map]
    rfl
  constructor
  · intro h x _ hx
    exact h (name x, value x) (hmem.2 (by rw [hx]; rfl))
  · rintro h ⟨key, v⟩ hp
    obtain ⟨x, hx, rfl⟩ := Option.map_eq_some_iff.1 (hmem.1 hp)
    obtain ⟨hm, hk⟩ := List.mem_filter.1 (List.mem_of_getLast? hx)
    obtain rfl := of_decide_eq_true hk
    exact h x hm hx

/-- If no key is repeated, every value is found. -/
theorem get?_ofList_of_mem {pairs : List (String × α)} (hnd : (pairs.map Prod.fst).Nodup) {key : String} {value : α}
    (h : (key, value) ∈ pairs) : get? key (ofList pairs) = some value := by
  rw [get?_ofList, filter_of_nodup hnd h]
  rfl

theorem mem_ofList_of_nodup {pairs : List (String × α)} (hnd : (pairs.map Prod.fst).Nodup) {p : String × α} :
    p ∈ ofList pairs ↔ p ∈ pairs :=
  ⟨of_mem_ofList, fun h => (mem_iff_get? (ordered_ofList pairs)).2 (get?_ofList_of_mem hnd h)⟩

theorem Ordered.nodup_keys {es : Entries α} (h : Ordered es) : (es.map Prod.fst).Nodup := by
  refine List.pairwise_map.2 (List.Pairwise.imp ?_ h)
  exact fun hlt he => String.lt_irrefl _ (he ▸ hlt)

theorem Ordered.nodup {es : Entries α} (h : Ordered es) : es.Nodup := h.nodup_keys.of_map

/-- Entries in order are given by what stands in them. -/
theorem Ordered.ext {es fs : Entries α} (he : Ordered es) (hf : Ordered fs) (h : ∀ p, p ∈ es ↔ p ∈ fs) : es = fs := by
  refine List.Perm.eq_of_pairwise ?_ he hf ((List.perm_ext_iff_of_nodup he.nodup hf.nodup).2 h)
  exact fun p q _ _ hpq hqp => absurd (String.lt_trans hpq hqp) (String.lt_irrefl _)

/-- If no key is repeated, the order in which the pairs are put does not matter. -/
theorem ofList_perm {xs ys : List (String × α)} (hnd : (xs.map Prod.fst).Nodup) (h : xs.Perm ys) : ofList xs = ofList ys := by
  refine (ordered_ofList xs).ext (ordered_ofList ys) fun p => ?_
  rw [mem_ofList_of_nodup hnd, mem_ofList_of_nodup ((h.map Prod.fst).nodup_iff.1 hnd), h.mem_iff]

end GraphqlCodegen.Entries
