/-!
# Values by name

A list of values, each under a name of its own. Setting a name that is there keeps its position;
a new name comes last.

* `get?_set`, `get?_erase`, `get?_mapValues`: what each operation does to every name.
-/

namespace Texelwise

/-- Values by name, in the order in which the names came. -/
structure Named (κ α : Type) where
  entries : List (κ × α)
  deriving DecidableEq, Repr

namespace Named

variable {κ α : Type} [DecidableEq κ]

/-- No values. -/
def empty : Named κ α := ⟨[]⟩

/-- Puts a value at a name among entries. -/
def put (name : κ) (value : α) : List (κ × α) → List (κ × α)
  | [] => [(name, value)]
  | (n, v) :: rest => if n = name then (n, value) :: rest else (n, v) :: put name value rest

/-- Sets the value of a name. -/
def set (m : Named κ α) (name : κ) (value : α) : Named κ α := ⟨put name value m.entries⟩

/-- Removes a name. -/
def erase (m : Named κ α) (name : κ) : Named κ α := ⟨m.entries.filter fun e => e.1 ≠ name⟩

/-- Changes every value. -/
def mapValues {β : Type} (f : α → β) (m : Named κ α) : Named κ β :=
  ⟨m.entries.map fun e => (e.1, f e.2)⟩

/-- The value of a name. -/
def get? (m : Named κ α) (name : κ) : Option α := m.entries.lookup name

/-- The values set one after another. -/
def ofList (entries : List (κ × α)) : Named κ α :=
  entries.foldl (fun m (name, value) => m.set name value) empty

@[simp] theorem get?_empty (name : κ) : (empty : Named κ α).get? name = none := rfl

/-- Setting a name gives it the value and leaves the other names alone. -/
theorem get?_set (m : Named κ α) (name other : κ) (value : α) :
    (m.set name value).get? other = if other = name then some value else m.get? other := by
  obtain ⟨entries⟩ := m
  simp only [set, get?]
  induction entries with
  | nil =>
    by_cases h : other = name
    · simp [put, h]
    · simp [put, h, List.lookup_cons, beq_false_of_ne h]
  | cons e rest ih =>
    obtain ⟨n, v⟩ := e
    by_cases hn : n = name <;> by_cases ho : other = n <;>
      simp_all [put, List.lookup_cons, Bool.beq_eq_decide_eq]

/-- Erasing a name leaves it without a value and the other names alone. -/
theorem get?_erase (m : Named κ α) (name other : κ) :
    (m.erase name).get? other = if other = name then none else m.get? other := by
  obtain ⟨entries⟩ := m
  simp only [erase, get?]
  induction entries with
  | nil => simp
  | cons e rest ih =>
    obtain ⟨n, v⟩ := e
    simp only [List.lookup_cons, List.filter_cons]
    by_cases hn : n = name <;> by_cases ho : other = n
    · rw [if_neg (by simp [hn]), ih, if_pos (ho.trans hn), if_pos (ho.trans hn)]
    · rw [if_neg (by simp [hn]), ih, beq_false_of_ne ho]
    · subst ho
      simp [hn]
    · rw [if_pos (by simp [hn]), List.lookup_cons, beq_false_of_ne ho]
      exact ih

/-- Every name has the changed value. -/
@[simp] theorem get?_mapValues {β : Type} (f : α → β) (m : Named κ α) (name : κ) :
    (m.mapValues f).get? name = (m.get? name).map f := by
  obtain ⟨entries⟩ := m
  simp only [mapValues, get?]
  induction entries with
  | nil => rfl
  | cons e rest ih =>
    rw [List.map_cons, List.lookup_cons, List.lookup_cons]
    cases name == e.1
    · exact ih
    · rfl

end Named

end Texelwise
