/-!
# Entries in key order

An object whose keys are kept in ascending order, each once: putting a key that is there already
replaces its value. JSON objects and the object values of a schema are kept in this form.
-/

namespace GraphqlCodegen

/-- Keys with their values. -/
abbrev Entries (α : Type) := List (String × α)

namespace Entries

variable {α : Type}

/-- Puts a value under a key, in place of the value that was there. -/
def put (key : String) (value : α) : Entries α → Entries α
  | [] => [(key, value)]
  | (k, v) :: rest =>
    if key < k then (key, value) :: (k, v) :: rest
    else if key = k then (key, value) :: rest
    else (k, v) :: put key value rest

/-- The value under a key. -/
def get? (key : String) : Entries α → Option α
  | [] => none
  | (k, v) :: rest => if key = k then some v else get? key rest

/-- All pairs put one after the other: the last value of a repeated key stays. -/
def ofList (pairs : List (String × α)) : Entries α :=
  pairs.foldl (fun es p => put p.1 p.2 es) []

/-- A key that was put is found with its new value. -/
@[simp] theorem get?_put_self (key : String) (value : α) (es : Entries α) :
    get? key (put key value es) = some value := by
  induction es with
  | nil => simp [put, get?]
  | cons p rest ih =>
    obtain ⟨k, v⟩ := p
    by_cases h : key < k
    · simp [put, h, get?]
    · by_cases e : key = k
      · simp [put, e, get?]
      · simp [put, h, e, get?, ih]

/-- Putting a key leaves what is under the others. -/
theorem get?_put_ne {key other : String} (ne : other ≠ key) (value : α) (es : Entries α) :
    get? other (put key value es) = get? other es := by
  induction es with
  | nil => simp [put, get?, ne]
  | cons p rest ih =>
    obtain ⟨k, v⟩ := p
    by_cases h : key < k
    · simp [put, h, get?, ne]
    · by_cases e : key = k
      · subst e; simp [put, get?, ne]
      · simp [put, h, e, get?, ih]

end Entries
end GraphqlCodegen
