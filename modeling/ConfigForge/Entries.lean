/-!
# Named entries in order

The entries of a schema, the members of an object and the fields of a JSON object are lists of
named values in the order in which their names first appeared. Putting a value under a name that is
already there replaces the value and keeps its place.

Results:

* `names_put`: a new name goes to the end and a known name changes no position.
* `get?_put_self`, `get?_put_of_ne`: what is found after a value has been put.
-/

namespace ConfigForge

/-- Named values in order of first appearance. -/
abbrev Entries (α : Type) := List (String × α)

namespace Entries

variable {α : Type}

/-- The names, in order. -/
def names (entries : Entries α) : List String :=
  entries.map Prod.fst

/-- The value under a name. -/
def get? : Entries α → String → Option α
  | [], _ => none
  | (key, value) :: rest, name => if key = name then some value else get? rest name

/-- The entries with `value` under `name`: in the place of the old value, or at the end. -/
def put : Entries α → String → α → Entries α
  | [], name, value => [(name, value)]
  | (key, old) :: rest, name, value =>
    if key = name then (key, value) :: rest else (key, old) :: put rest name value

/-- The entries that come about by putting the given ones in their order. -/
def ofList (entries : List (String × α)) : Entries α :=
  entries.foldl (fun built entry => built.put entry.1 entry.2) []

theorem names_put (entries : Entries α) (name : String) (value : α) :
    (entries.put name value).names =
      if name ∈ entries.names then entries.names else entries.names ++ [name] := by
  induction entries with
  | nil => simp [put, names]
  | cons entry rest ih =>
    obtain ⟨key, old⟩ := entry
    simp only [names] at ih
    by_cases h : key = name
    · simp [put, names, h]
    · have h' : name ≠ key := fun e => h e.symm
      by_cases hm : name ∈ rest.map Prod.fst <;> simp_all [put, names]

theorem get?_put_self (entries : Entries α) (name : String) (value : α) :
    (entries.put name value).get? name = some value := by
  induction entries with
  | nil => simp [put, get?]
  | cons entry rest ih =>
    obtain ⟨key, old⟩ := entry
    by_cases h : key = name <;> simp [put, get?, h, ih]

theorem get?_put_of_ne (entries : Entries α) {name other : String} (h : name ≠ other) (value : α) :
    (entries.put name value).get? other = entries.get? other := by
  induction entries with
  | nil => simp [put, get?, h]
  | cons entry rest ih =>
    obtain ⟨key, old⟩ := entry
    by_cases hk : key = name
    · subst hk; simp [put, get?, h]
    · rw [put, if_neg hk, get?, get?, ih]

end Entries

end ConfigForge
