import ConfigForge.Proofs.Admissible

/-!
# Characters of type names

A type name is made from the characters of a member name, the first of each piece in upper case.
Where the member name is an identifier, no blank and no underscore is left, so the type name is one
word of letters and digits wherever it is written.

Results:

* `typeName_isAlphanum`: the type name of an identifier has letters and digits only.
* `Schema.Admissible.isIdentifier_name`: every node of an admissible schema goes by an identifier,
  the items of arrays included.
-/

namespace ConfigForge

/-! ## Pieces of a text -/

theorem Text.mem_of_mem_split {sep : Char} {cs piece : List Char} {c : Char}
    (hpiece : piece ∈ Text.split sep cs) (hc : c ∈ piece) : c ∈ cs ∧ c ≠ sep := by
  induction cs generalizing piece with
  | nil =>
    rw [Text.split, List.mem_singleton] at hpiece
    subst hpiece
    cases hc
  | cons d cs ih =>
    rw [Text.split] at hpiece
    by_cases hd : d = sep
    · rw [if_pos hd, List.mem_cons] at hpiece
      rcases hpiece with rfl | hpiece
      · cases hc
      · obtain ⟨hmem, hne⟩ := ih hpiece hc
        exact ⟨List.mem_cons_of_mem _ hmem, hne⟩
    · rw [if_neg hd] at hpiece
      cases hsplit : Text.split sep cs with
      | nil => exact absurd hsplit (Text.split_ne_nil sep cs)
      | cons first rest =>
        rw [hsplit, List.mem_cons] at hpiece
        rcases hpiece with rfl | hpiece
        · rcases List.mem_cons.mp hc with rfl | hc
          · exact ⟨List.mem_cons_self, hd⟩
          · obtain ⟨hmem, hne⟩ := ih (by rw [hsplit]; exact List.mem_cons_self) hc
            exact ⟨List.mem_cons_of_mem _ hmem, hne⟩
        · obtain ⟨hmem, hne⟩ := ih (by rw [hsplit]; exact List.mem_cons_of_mem _ hpiece) hc
          exact ⟨List.mem_cons_of_mem _ hmem, hne⟩

theorem Text.split_append (sep : Char) (cs ds : List Char) :
    Text.split sep (cs ++ sep :: ds) = Text.split sep cs ++ Text.split sep ds := by
  induction cs with
  | nil => simp [Text.split]
  | cons c cs ih =>
    rw [List.cons_append, Text.split, ih, Text.split]
    by_cases hc : c = sep
    · rw [if_pos hc, if_pos hc, List.cons_append]
    · rw [if_neg hc, if_neg hc]
      cases hsplit : Text.split sep cs with
      | nil => exact absurd hsplit (Text.split_ne_nil sep cs)
      | cons piece pieces => rfl

theorem Text.split_of_not_mem {sep : Char} {cs : List Char} (h : sep ∉ cs) :
    Text.split sep cs = [cs] := by
  induction cs with
  | nil => rfl
  | cons c cs ih =>
    rw [List.mem_cons, not_or] at h
    rw [Text.split, if_neg (Ne.symm h.1), ih h.2]

theorem Text.mem_of_mem_trim {cs : List Char} {c : Char} (h : c ∈ Text.trim cs) : c ∈ cs := by
  rw [Text.trim, List.mem_reverse] at h
  have h' := (List.dropWhile_sublist _).subset h
  rw [List.mem_reverse] at h'
  exact (List.dropWhile_sublist _).subset h'

/-! ## Letters and digits -/

theorem isAlphanum_toNat_lt {c : Char} (h : c.isAlphanum = true) : c.toNat < 128 := by
  have hcases : (c.isUpper = true ∨ c.isLower = true) ∨ c.isDigit = true := by
    rw [← Bool.or_eq_true, ← Bool.or_eq_true]
    exact h
  have hlast : c.val ≤ 'Z'.val ∨ c.val ≤ 'z'.val ∨ c.val ≤ '9'.val := by
    rcases hcases with (h | h) | h
    · exact .inl (of_decide_eq_true h).2
    · exact .inr (.inl (of_decide_eq_true (Bool.and_eq_true_iff.mp h).2))
    · exact .inr (.inr (of_decide_eq_true (Bool.and_eq_true_iff.mp h).2))
  have hval : c.toNat = c.val.toNat := rfl
  rw [hval]
  rcases hlast with h | h | h
  all_goals
    have h' := UInt32.le_iff_toNat_le.mp h
    simp at h'
    omega

/-- What holds of the first 128 characters holds of every character of ASCII. -/
theorem ascii_forall {P : Char → Prop} (h : ∀ n : Fin 128, P (Char.ofNat n)) {c : Char}
    (hc : c.toNat < 128) : P c := by
  have hn := h ⟨c.toNat, hc⟩
  rwa [Char.ofNat_toNat] at hn

/-- Upper case makes letters and digits of letters and digits. -/
theorem isAlphanum_toUpper {c : Char} (h : c.isAlphanum = true) : c.toUpper.isAlphanum = true :=
  ascii_forall (P := fun c => c.isAlphanum = true → c.toUpper.isAlphanum = true) (by decide)
    (isAlphanum_toNat_lt h) h

theorem isAlphanum_of_isWordChar {c : Char} (h : isWordChar c = true) (hne : c ≠ '_') :
    c.isAlphanum = true := by
  simpa [isWordChar, hne] using h

theorem mem_capitalize {piece : List Char} {c : Char} (h : c ∈ capitalize piece)
    (hpiece : ∀ d ∈ piece, d.isAlphanum = true) : c.isAlphanum = true := by
  cases piece with
  | nil => cases h
  | cons d rest =>
    have hd := hpiece d List.mem_cons_self
    rw [capitalize, Text.upper_of_isAscii d (isAlphanum_toNat_lt hd), List.singleton_append,
      List.mem_cons] at h
    rcases h with rfl | h
    · exact isAlphanum_toUpper hd
    · exact hpiece c (List.mem_cons_of_mem _ h)

theorem all_isWordChar_of_isIdentifier {name : String} (h : isIdentifier name = true) {c : Char}
    (hc : c ∈ name.toList) : isWordChar c = true := by
  rw [isIdentifier] at h
  cases hchars : name.toList with
  | nil => rw [hchars] at hc; cases hc
  | cons d rest =>
    rw [hchars] at h hc
    simp only [isIdentifierChars, Bool.and_eq_true] at h
    exact List.all_eq_true.mp h.1.2 c hc

/-- The type name of an identifier has letters and digits only. -/
theorem typeName_isAlphanum {name : String} (h : isIdentifier name = true) {c : Char}
    (hc : c ∈ (typeName name).toList) : c.isAlphanum = true := by
  rw [typeName, String.toList_ofList, typeNameChars, List.mem_flatMap] at hc
  obtain ⟨piece, hpiece, hc⟩ := hc
  refine mem_capitalize hc fun d hd => ?_
  obtain ⟨hmem, hne⟩ := Text.mem_of_mem_split hpiece hd
  exact isAlphanum_of_isWordChar
    (all_isWordChar_of_isIdentifier h (Text.mem_of_mem_trim hmem)) hne

/-! ## Names of nodes -/

theorem isIdentifier_itemName {name : String} (h : isIdentifier name = true) :
    isIdentifier (itemName name) = true := by
  rw [isIdentifier] at h ⊢
  rw [itemName, String.toList_append]
  cases hchars : name.toList with
  | nil => rw [hchars] at h; cases h
  | cons c rest =>
    rw [hchars] at h
    simp only [isIdentifierChars, List.cons_append, Bool.and_eq_true] at h ⊢
    obtain ⟨⟨hfirst, hall⟩, hany⟩ := h
    refine ⟨⟨hfirst, ?_⟩, ?_⟩
    · rw [← List.cons_append, List.all_append, hall]
      decide
    · rw [← List.cons_append, List.any_append, hany]
      rfl

theorem Place.Has.isIdentifier_name {p q : Place} (h : p.Has q)
    (hp : isIdentifier p.name = true)
    (hmembers : ∀ o members, p.Has o → o.node = .object members →
      ∀ m ∈ members, isIdentifier m.1 = true) : isIdentifier q.name = true := by
  induction p using Place.induction with
  | step p ih =>
    rcases Place.has_iff.mp h with rfl | ⟨c, hc, hcq⟩
    · exact hp
    · refine ih c hc hcq ?_ fun o members ho => hmembers o members (Place.has_of_child hc ho)
      cases hnode : p.node with
      | scalar s => simp [Place.children, hnode] at hc
      | reference r => simp [Place.children, hnode] at hc
      | object members =>
        rw [Place.children_object hnode] at hc
        obtain ⟨m, hm, rfl⟩ := mem_placesIn.mp hc
        exact hmembers p members p.has_self hnode m hm
      | array item bounds =>
        rw [Place.children_array hnode, List.mem_singleton] at hc
        subst hc
        exact isIdentifier_itemName hp

/-- Every node of an admissible schema goes by an identifier. -/
theorem Schema.Admissible.isIdentifier_name {s : Schema} (hs : s.Admissible) {p : Place}
    (hp : s.Has p) : isIdentifier p.name = true := by
  obtain ⟨root, hroot, hhas⟩ := Schema.has_iff.mp hp
  obtain ⟨entry, hentry, rfl⟩ := mem_placesIn.mp hroot
  refine hhas.isIdentifier_name (hs.entries entry hentry).1 fun o members ho hnode m hm => ?_
  exact (hs.members o members (Schema.has_iff.mpr ⟨_, hroot, ho⟩) hnode m hm).1

/-- So does every object around a node. -/
theorem Schema.Admissible.isIdentifier_of_mem_path {s : Schema} (hs : s.Admissible) {p : Place}
    (hp : s.Has p) {name : String} (hname : name ∈ p.path) : isIdentifier name = true := by
  induction hn : p.around.length using Nat.strongRecOn generalizing p with
  | ind n ih =>
    rcases List.mem_append.mp hname with haround | hself
    · rcases hp.enclosing with houter | ⟨o, members, ho, hnode, hmember⟩
      · rw [around_of_mem_membersWithItems houter] at haround
        cases haround
      · rw [around_of_mem_membersWithItems hmember] at haround
        refine ih o.around.length ?_ ho haround rfl
        rw [← hn, around_of_mem_membersWithItems hmember, Place.path, List.length_append]
        exact Nat.lt_succ_self _
    · rw [List.mem_singleton.mp hself]
      exact hs.isIdentifier_name hp

/-- The names of the class of a node, and of the classes around it, are made of letters and
digits. -/
theorem Schema.Admissible.isAlphanum_of_mem_classPath {s : Schema} (hs : s.Admissible) {p : Place}
    (hp : s.Has p) {type : String} (htype : type ∈ p.classPath) {c : Char}
    (hc : c ∈ type.toList) : c.isAlphanum = true := by
  rw [← Place.map_typeName_path] at htype
  obtain ⟨name, hname, rfl⟩ := List.mem_map.mp htype
  exact typeName_isAlphanum (hs.isIdentifier_of_mem_path hp hname) hc

end ConfigForge
