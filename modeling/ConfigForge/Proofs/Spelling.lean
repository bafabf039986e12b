import ConfigForge.Proofs.TypeNames

/-!
# Dotted paths

References and the table of complete objects go by dotted texts. No name of an admissible schema has
a dot in it, so a dotted text can be made of names in one way only, and looking a text up in the table
is looking for a path among the complete ones.

Results:

* `dotted_append_eq_iff`: which paths are spelled like a target inside some objects.
* `meant?_eq_some_iff`: a reference means the innermost complete object that is spelled like it.
* `Schema.Admissible.dotFree_path`: the names of an admissible schema have no dots.
-/

namespace ConfigForge

/-- The names that a reference spells, which stand between its dots. -/
def Reference.names (r : Reference) : List String :=
  (Reference.ofText r.target).segments

/-- Whether no name of a path has a dot in it. -/
def DotFree (path : List String) : Prop :=
  ∀ name ∈ path, '.' ∉ name.toList

/-! ## Reading dotted texts back -/

theorem dotted_cons_append (name : String) (path : List String) (last : String) :
    dotted (name :: (path ++ [last])) = name ++ "." ++ dotted (path ++ [last]) := by
  cases path with
  | nil => rfl
  | cons next rest => rfl

/-- The dotted text of the pieces of a text, behind other names, is that of the text itself. -/
theorem dotted_append_segments (path : List String) (text : String) :
    dotted (path ++ (Reference.ofText text).segments) = dotted (path ++ [text]) := by
  induction path with
  | nil => exact Reference.target_ofText text
  | cons name path ih =>
    rw [List.cons_append, List.cons_append, dotted_cons_append, ← ih]
    have hne : path ++ (Reference.ofText text).segments ≠ [] := by
      refine List.append_ne_nil_of_right_ne_nil _ ?_
      simp [Reference.ofText, Text.split_ne_nil]
    obtain ⟨init, last, hsplit⟩ :
        ∃ init last, path ++ (Reference.ofText text).segments = init ++ [last] :=
      ⟨_, _, (List.dropLast_concat_getLast hne).symm⟩
    rw [hsplit, dotted_cons_append]

theorem segments_of_dotFree {name : String} (h : '.' ∉ name.toList) :
    (Reference.ofText name).segments = [name] := by
  simp [Reference.ofText, Text.split_of_not_mem h]

/-- Names without dots are found again between the dots of their dotted text. -/
theorem segments_dotted_append {path : List String} (h : DotFree path) (text : String) :
    (Reference.ofText (dotted (path ++ [text]))).segments =
      path ++ (Reference.ofText text).segments := by
  induction path with
  | nil => rfl
  | cons name path ih =>
    have hname : '.' ∉ name.toList := h name List.mem_cons_self
    have hrest := ih fun n hn => h n (List.mem_cons_of_mem _ hn)
    have hchars : (name ++ "." ++ dotted (path ++ [text])).toList =
        name.toList ++ '.' :: (dotted (path ++ [text])).toList := by
      rw [String.toList_append, String.toList_append]
      simp
    rw [List.cons_append, dotted_cons_append, List.cons_append, ← hrest]
    simp only [Reference.ofText, hchars, Text.split_append, Text.split_of_not_mem hname]
    simp

theorem segments_dotted {path : List String} (hne : path ≠ []) (h : DotFree path) :
    (Reference.ofText (dotted path)).segments = path := by
  obtain ⟨init, last, rfl⟩ : ∃ init last, path = init ++ [last] :=
    ⟨_, _, (List.dropLast_concat_getLast hne).symm⟩
  have hlast : '.' ∉ last.toList := h last (List.mem_append_right _ List.mem_cons_self)
  rw [segments_dotted_append fun n hn => h n (List.mem_append_left _ hn), segments_of_dotFree hlast]

/-- A path is spelled like the target of a reference inside some objects exactly if it consists of
the names of the objects and the names that the reference spells. -/
theorem dotted_append_eq_iff {around path : List String} {r : Reference} (haround : DotFree around)
    (hne : path ≠ []) (hpath : DotFree path) :
    dotted (around ++ [r.target]) = dotted path ↔ path = around ++ r.names := by
  constructor
  · intro h
    rw [← segments_dotted hne hpath, ← h, segments_dotted_append haround]
    rfl
  · rintro rfl
    exact (dotted_append_segments around r.target).symm

/-! ## The innermost object -/

/-- Whether paths have names without dots, and at least one name. -/
def Spelled (done : List (List String)) : Prop :=
  ∀ path ∈ done, path ≠ [] ∧ DotFree path

theorem latest?_eq_some_iff {done : List (List String)} {around path : List String} {r : Reference}
    (hdone : Spelled done) (haround : DotFree around) :
    latest? done (dotted (around ++ [r.target])) = some path ↔
      path ∈ done ∧ path = around ++ r.names := by
  constructor
  · intro h
    have hmem := latest?_mem h
    have hkey : dotted path = dotted (around ++ [r.target]) := by
      simpa using List.find?_some h
    exact ⟨hmem, (dotted_append_eq_iff haround (hdone path hmem).1 (hdone path hmem).2).mp hkey.symm⟩
  · rintro ⟨hmem, rfl⟩
    have hfound : (latest? done (dotted (around ++ [r.target]))).isSome := by
      rw [latest?_isSome_iff]
      exact ⟨_, hmem, dotted_append_segments around r.target⟩
    obtain ⟨path, hpath⟩ := Option.isSome_iff_exists.mp hfound
    have hkey : dotted path = dotted (around ++ [r.target]) := by
      simpa using List.find?_some hpath
    have hmem' := latest?_mem hpath
    rw [hpath, (dotted_append_eq_iff haround (hdone path hmem').1 (hdone path hmem').2).mp hkey.symm]

theorem DotFree.take {path : List String} (h : DotFree path) (d : Nat) : DotFree (path.take d) :=
  fun name hname => h name (List.mem_of_mem_take hname)

theorem meantFrom?_eq_some_iff {done : List (List String)} {around path : List String}
    {r : Reference} (hdone : Spelled done) (haround : DotFree around) (depth : Nat) :
    Reference.meantFrom? done around r.target depth = some path ↔
      ∃ d ≤ depth, path = around.take d ++ r.names ∧ path ∈ done ∧
        ∀ d', d < d' → d' ≤ depth → around.take d' ++ r.names ∉ done := by
  induction depth with
  | zero =>
    have hlatest : latest? done (dotted ([] ++ [r.target])) = some path ↔
        path ∈ done ∧ path = [] ++ r.names :=
      latest?_eq_some_iff hdone fun _ hn => absurd hn List.not_mem_nil
    refine Iff.trans hlatest ?_
    constructor
    · rintro ⟨hmem, hpath⟩
      exact ⟨0, Nat.le_refl 0, hpath, hmem, fun d' hlt hle => by omega⟩
    · rintro ⟨d, hd, hpath, hmem, -⟩
      obtain rfl : d = 0 := by omega
      exact ⟨hmem, hpath⟩
  | succ depth ih =>
    rw [Reference.meantFrom?, pathInside_eq, Option.or_eq_some_iff,
      latest?_eq_some_iff hdone (haround.take (depth + 1)), ih]
    have hnone : latest? done (dotted (around.take (depth + 1) ++ [r.target])) = none ↔
        around.take (depth + 1) ++ r.names ∉ done := by
      rw [Option.eq_none_iff_forall_ne_some]
      constructor
      · intro h hmem
        exact h _ ((latest?_eq_some_iff hdone (haround.take _)).mpr ⟨hmem, rfl⟩)
      · intro h path' hpath'
        obtain ⟨hmem, rfl⟩ := (latest?_eq_some_iff hdone (haround.take _)).mp hpath'
        exact h hmem
    rw [hnone]
    constructor
    · rintro (⟨hmem, hpath⟩ | ⟨hno, d, hd, hpath, hmem, houter⟩)
      · exact ⟨depth + 1, Nat.le_refl _, hpath, hmem, fun d' hlt hle => by omega⟩
      · refine ⟨d, by omega, hpath, hmem, fun d' hlt hle => ?_⟩
        rcases Nat.lt_or_eq_of_le hle with hle | rfl
        · exact houter d' hlt (by omega)
        · exact hno
    · rintro ⟨d, hd, hpath, hmem, houter⟩
      rcases Nat.lt_or_eq_of_le hd with hd | rfl
      · exact .inr ⟨houter (depth + 1) hd (Nat.le_refl _), d, by omega, hpath, hmem,
          fun d' hlt hle => houter d' hlt (by omega)⟩
      · exact .inl ⟨hmem, hpath⟩

/-- **The innermost object.** A reference means the complete object whose path consists of as many of
the names around the reference as possible and of the names that it spells. -/
theorem meant?_eq_some_iff {done : List (List String)} {around path : List String} {r : Reference}
    (hdone : Spelled done) (haround : DotFree around) :
    r.meant? done around = some path ↔
      ∃ d ≤ around.length, path = around.take d ++ r.names ∧ path ∈ done ∧
        ∀ d', d < d' → d' ≤ around.length → around.take d' ++ r.names ∉ done :=
  meantFrom?_eq_some_iff hdone haround around.length

/-! ## The names of an admissible schema -/

theorem dot_not_mem_of_isIdentifier {name : String} (h : isIdentifier name = true) :
    '.' ∉ name.toList := by
  intro hdot
  have hword := all_isWordChar_of_isIdentifier h hdot
  revert hword
  decide

theorem Schema.Admissible.dotFree_path {s : Schema} (hs : s.Admissible) {p : Place}
    (hp : s.Has p) : DotFree p.path :=
  fun _ hname => dot_not_mem_of_isIdentifier (hs.isIdentifier_of_mem_path hp hname)

theorem Schema.Admissible.dotFree_around {s : Schema} (hs : s.Admissible) {p : Place}
    (hp : s.Has p) : DotFree p.around :=
  fun name hname => hs.dotFree_path hp name (List.mem_append_left _ hname)

end ConfigForge
