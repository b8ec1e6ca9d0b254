/-!
# Results put together from parts

A computation that asks for the results of several parts, and makes something of them that cannot fail, has a result
just if all its parts have one (`succeeds_bind`, `succeeds_mapM`).
-/

namespace GraphqlCodegen

variable {ε α β : Type}

/-- There is a result. -/
def Succeeds (x : Except ε α) : Prop := ∃ a, x = .ok a

@[simp] theorem succeeds_ok (a : α) : Succeeds (.ok a : Except ε α) := ⟨a, rfl⟩

@[simp] theorem succeeds_pure (a : α) : Succeeds (pure a : Except ε α) := ⟨a, rfl⟩

@[simp] theorem not_succeeds_error (e : ε) : ¬Succeeds (.error e : Except ε α) := fun ⟨_, h⟩ => nomatch h

theorem not_succeeds_iff {x : Except ε α} : ¬Succeeds x ↔ ∃ e, x = .error e := by
  cases x <;> simp

/-- If it does not depend on the result of the first part whether there is a result for the rest. -/
theorem succeeds_bind {x : Except ε α} {f : α → Except ε β} {p : Prop} (h : ∀ a, Succeeds (f a) ↔ p) :
    Succeeds (x >>= f) ↔ Succeeds x ∧ p := by
  cases x with
  | error e => exact iff_of_false (not_succeeds_error e) fun hs => not_succeeds_error e hs.1
  | ok a => exact (h a).trans (iff_and_self.2 fun _ => succeeds_ok a)

@[simp] theorem succeeds_map {x : Except ε α} {f : α → β} : Succeeds (x >>= fun a => pure (f a)) ↔ Succeeds x :=
  (succeeds_bind fun _ => iff_true_intro (succeeds_pure _)).trans (and_iff_left trivial)

theorem succeeds_mapM {f : α → Except ε β} {xs : List α} : Succeeds (xs.mapM f) ↔ ∀ x ∈ xs, Succeeds (f x) := by
  induction xs with
  | nil => simp
  | cons x rest ih =>
    rw [List.mapM_cons, succeeds_bind fun _ => succeeds_map.trans ih, List.forall_mem_cons]

end GraphqlCodegen
