/-!
# Splitting and joining text

Names are divided at a separating character (`_` in member names, `.` in references) and put
together again with a separating text (`.` in paths, `::` in C++ names).

Results:

* `split_ne_nil`: splitting gives at least one piece.
* `flatten_intersperse_split`: the pieces, with the separator between them, are the text again.
-/

namespace ConfigForge.Text

/-- The pieces of a text between the occurrences of `sep`, empty pieces included. -/
def split (sep : Char) : List Char → List (List Char)
  | [] => [[]]
  | c :: cs =>
    if c = sep then [] :: split sep cs
    else match split sep cs with
      | [] => [[c]]
      | piece :: pieces => (c :: piece) :: pieces

/-- The texts one after the other with `sep` between neighbours. -/
def joinWith (sep : String) : List String → String
  | [] => ""
  | [s] => s
  | s :: t :: rest => s ++ sep ++ joinWith sep (t :: rest)

@[simp] theorem joinWith_nil (sep : String) : joinWith sep [] = "" := rfl

@[simp] theorem joinWith_singleton (sep s : String) : joinWith sep [s] = s := rfl

/-- Every line followed by a line feed. -/
def unlines (lines : List String) : String :=
  lines.foldl (fun text line => text ++ line ++ "\n") ""

theorem split_ne_nil (sep : Char) (cs : List Char) : split sep cs ≠ [] := by
  cases cs with
  | nil => simp [split]
  | cons c cs =>
    rw [split]
    split
    · simp
    · split <;> simp

/-- Splitting loses nothing but the separators. -/
theorem flatten_intersperse_split (sep : Char) (cs : List Char) :
    ((split sep cs).intersperse [sep]).flatten = cs := by
  induction cs with
  | nil => rfl
  | cons c cs ih =>
    have hne := split_ne_nil sep cs
    rw [split]
    cases hs : split sep cs with
    | nil => exact absurd hs hne
    | cons piece pieces =>
      rw [hs] at ih
      by_cases h : c = sep
      · simp [h, ← ih]
      · cases pieces <;> simp [h, ← ih]

end ConfigForge.Text
