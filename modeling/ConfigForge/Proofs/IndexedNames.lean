import ConfigForge.Proofs.Admissible
import ConfigForge.Proofs.LegalNames
import ConfigForge.Proofs.Tokens
import ConfigForge.Sample

/-!
# Names with an index

A name with an index is a base name of letters, an underscore and a decimal number. Its digits are
those of the number and its other characters those of the base name, and this is also true of its
type and of the helpers of that. So the digits tell names with different indices apart, and the
letters tell apart what belongs to one name.

Results:

* `nodup_append_of_digits`: names without digits differ from names with digits.
* `isReserved_indexed`: no reserved name has an index.
* `IsBase.typeName_indexed`: the type of a name with an index is that of the base name, with the
  number behind it.
* `IsBase.digits_of_mem`: all identifiers of a name with an index have the digits of the index.
* `IsBase.nodup_flatMap`: the identifiers of names with indices from 0 on differ.
* `IsBase.isMemberName_indexed`: a name with an index can be that of a member.
-/

namespace ConfigForge.Sample

open Cpp Emit

/-! ## Digits and letters of a name -/

/-- The digits of a name. -/
def digits (name : String) : List Char :=
  name.toList.filter Char.isDigit

/-- The characters of a name that are no digits. -/
def letters (name : String) : List Char :=
  name.toList.filter fun c => !c.isDigit

theorem digits_append (first second : String) :
    digits (first ++ second) = digits first ++ digits second := by
  simp [digits, String.toList_append]

theorem letters_append (first second : String) :
    letters (first ++ second) = letters first ++ letters second := by
  simp [letters, String.toList_append]

theorem digits_toString (n : Nat) : digits (toString n) = (toString n).toList :=
  List.filter_eq_self.mpr fun _ hc => isDigit_of_mem_toString hc

theorem letters_toString (n : Nat) : letters (toString n) = [] :=
  List.filter_eq_nil_iff.mpr fun c hc => by simp [isDigit_of_mem_toString hc]

theorem toList_toString_inj {m n : Nat} (h : (toString m).toList = (toString n).toList) :
    m = n := by
  simp only [Nat.toString_eq_ofList_toDigits, String.toList_ofList] at h
  calc m = Nat.ofDigitChars 10 (Nat.toDigits 10 m) 0 := Nat.ofDigitChars_ten_toDigits.symm
    _ = Nat.ofDigitChars 10 (Nat.toDigits 10 n) 0 := by rw [h]
    _ = n := Nat.ofDigitChars_ten_toDigits

/-! ## Names with an index -/

/-- The names that a base name and its type go into, all without digits: the type, its helpers, and
the name before its index. -/
def spellings (name : String) : List String :=
  [typeName name, "Init" ++ typeName name, "Validate" ++ typeName name, typeName name ++ "ToJson",
    "JsonTo" ++ typeName name, name ++ "_"]

/-- A name that can be given an index: letters alone, and no two spellings are the same. -/
structure IsBase (name : String) : Prop where
  nonempty : name ≠ ""
  isAlpha : ∀ c ∈ name.toList, c.isAlpha = true
  typeIsAlpha : ∀ c ∈ (typeName name).toList, c.isAlpha = true
  apart : (spellings name).Nodup

theorem isBase_field : IsBase "field" where
  nonempty := by decide
  isAlpha := List.all_eq_true.mp (by decide)
  typeIsAlpha := List.all_eq_true.mp (by decide)
  apart := by decide

theorem isBase_level : IsBase "level" where
  nonempty := by decide
  isAlpha := List.all_eq_true.mp (by decide)
  typeIsAlpha := List.all_eq_true.mp (by decide)
  apart := by decide

theorem isBase_holder : IsBase "holder" where
  nonempty := by decide
  isAlpha := List.all_eq_true.mp (by decide)
  typeIsAlpha := List.all_eq_true.mp (by decide)
  apart := by decide

theorem isDigit_of_isAlpha {c : Char} (h : c.isAlpha = true) : c.isDigit = false := by
  have halnum : c.isAlphanum = true := Bool.or_eq_true_iff.mpr (.inl h)
  exact ascii_forall (P := fun c => c.isAlpha = true → c.isDigit = false) (by decide)
    (isAlphanum_toNat_lt halnum) h

theorem letters_eq {name : String} (h : ∀ c ∈ name.toList, c.isAlpha = true) :
    letters name = name.toList :=
  List.filter_eq_self.mpr fun c hc => by rw [isDigit_of_isAlpha (h c hc)]; rfl

theorem digits_eq_nil {name : String} (h : ∀ c ∈ name.toList, c.isAlpha = true) :
    digits name = [] :=
  List.filter_eq_nil_iff.mpr fun c hc => by
    rw [isDigit_of_isAlpha (h c hc)]
    exact Bool.false_ne_true

theorem dropAdjacentRepeats_sublist (names : List String) :
    (dropAdjacentRepeats names).Sublist names := by
  fun_induction dropAdjacentRepeats names with
  | case1 => exact List.Sublist.refl _
  | case2 s => exact List.Sublist.refl _
  | case3 s rest ih => exact ih.cons _
  | case4 s t rest _ ih => exact ih.cons_cons _

/-- An indexed name ends in a digit, and no reserved name does. -/
theorem isReserved_indexed (name : String) (i : Nat) : isReserved (indexed name i) = false := by
  have hreserved : ∀ x ∈ keywords ++ classMemberNames,
      x.toList.getLast?.any Char.isDigit = false := by decide
  have hlast : (indexed name i).toList.getLast?.any Char.isDigit = true := by
    have hne := toList_toString_ne_nil i
    rw [indexed, String.toList_append, List.getLast?_append_of_ne_nil _ hne,
      List.getLast?_eq_some_getLast hne, Option.any_some]
    exact isDigit_of_mem_toString (List.getLast_mem hne)
  rw [Bool.eq_false_iff]
  intro hmem
  have hmem : indexed name i ∈ keywords ++ classMemberNames := by
    simpa [isReserved] using hmem
  rw [hreserved _ hmem] at hlast
  cases hlast

/-- Names without digits differ from names with digits. -/
theorem nodup_append_of_digits {plain numbered : List String} (hplain : plain.Nodup)
    (hdigits : ∀ x ∈ plain, digits x = []) (hnumbered : numbered.Nodup)
    (hdigits' : ∀ x ∈ numbered, digits x ≠ []) : (plain ++ numbered).Nodup := by
  refine List.nodup_append.mpr ⟨hplain, hnumbered, fun x hx y hy hxy => ?_⟩
  exact hdigits' y hy (hxy ▸ hdigits x hx)

namespace IsBase

variable {name : String} (h : IsBase name) (i : Nat)
include h

theorem isWordChar_of_mem {c : Char} (hc : c ∈ (indexed name i).toList) : isWordChar c = true := by
  have hword : ∀ {d : Char}, d.isAlphanum = true → isWordChar d = true := fun hd =>
    Bool.or_eq_true_iff.mpr (.inl hd)
  rw [indexed, String.toList_append, String.toList_append] at hc
  rcases List.mem_append.mp hc with hc | hc
  · rcases List.mem_append.mp hc with hc | hc
    · exact hword (Bool.or_eq_true_iff.mpr (.inl (h.isAlpha c hc)))
    · rw [List.mem_singleton.mp hc]
      decide
  · exact hword (Bool.or_eq_true_iff.mpr (.inr (isDigit_of_mem_toString hc)))

/-- The type of an indexed name is that of the name, with the index. -/
theorem typeName_indexed : typeName (indexed name i) = typeName name ++ toString i := by
  have hchars : (indexed name i).toList = name.toList ++ "_".toList ++ (toString i).toList := by
    rw [indexed, String.toList_append, String.toList_append]
  have hname : ∀ c ∈ name.toList, isWordChar c = true := fun c hc =>
    h.isWordChar_of_mem i (hchars ▸ List.mem_append_left _ (List.mem_append_left _ hc))
  have hword : ∀ c ∈ (toString i).toList, isWordChar c = true := fun c hc =>
    h.isWordChar_of_mem i (hchars ▸ List.mem_append_right _ hc)
  have hunderscore : '_' ∉ (toString i).toList := fun hmem =>
    absurd (isDigit_of_mem_toString hmem) (by decide)
  have hindex : capitalize (toString i).toList = (toString i).toList := by
    cases hdigits : (toString i).toList with
    | nil => rfl
    | cons c cs =>
      have hdigit : c.isDigit = true :=
        isDigit_of_mem_toString (n := i) (by rw [hdigits]; exact List.mem_cons_self)
      have hascii : c.toNat < 128 :=
        isAlphanum_toNat_lt (Bool.or_eq_true_iff.mpr (.inr hdigit))
      have hupper : c.toUpper = c :=
        ascii_forall (P := fun c => c.isDigit = true → c.toUpper = c) (by decide) hascii hdigit
      rw [capitalize, Text.upper_of_isAscii c hascii, hupper, List.singleton_append]
  have hnumber : typeName (toString i) = toString i := by
    rw [← String.toList_inj, toList_typeName hword, Text.split_of_not_mem hunderscore,
      List.flatMap_singleton, hindex]
  rw [indexed, typeName_append hname hword, hnumber]

theorem digits_indexed : digits (indexed name i) = (toString i).toList := by
  rw [indexed, digits_append, digits_append, digits_eq_nil h.isAlpha, digits_toString]
  rfl

theorem digits_typeName : digits (typeName (indexed name i)) = (toString i).toList := by
  rw [h.typeName_indexed, digits_append, digits_eq_nil h.typeIsAlpha, digits_toString,
    List.nil_append]

/-- The index is all that the identifiers of an indexed name have for digits. -/
theorem digits_of_mem {x : String}
    (hx : x ∈ typeNames (typeName (indexed name i)) ++ [indexed name i]) :
    digits x = (toString i).toList := by
  rcases List.mem_append.mp hx with hx | hx
  · rcases mem_typeNames_iff.mp hx with rfl | ⟨helper, rfl⟩
    · exact h.digits_typeName i
    · have hlit : digits "Init" = [] ∧ digits "Validate" = [] ∧ digits "ToJson" = [] ∧
          digits "JsonTo" = [] := by decide
      obtain ⟨hinit, hvalidate, htoJson, hjsonTo⟩ := hlit
      cases helper <;>
        simp [Helper.name, digits_append, h.digits_typeName, hinit, hvalidate, htoJson, hjsonTo]
  · rw [List.mem_singleton.mp hx, h.digits_indexed]

theorem digits_ne_nil_of_mem {x : String}
    (hx : x ∈ typeNames (typeName (indexed name i)) ++ [indexed name i]) : digits x ≠ [] := by
  rw [h.digits_of_mem i hx]
  exact toList_toString_ne_nil i

theorem digits_typeName_ne_nil : digits (typeName (indexed name i)) ≠ [] := by
  rw [h.digits_typeName]
  exact toList_toString_ne_nil i

/-- The identifiers of an indexed name differ. -/
theorem nodup_identifiers :
    (typeNames (typeName (indexed name i)) ++ [indexed name i]).Nodup := by
  have hsublist : (typeNames (typeName (indexed name i)) ++ [indexed name i]).Sublist
      ([typeName (indexed name i), "Init" ++ typeName (indexed name i),
        "Validate" ++ typeName (indexed name i), typeName (indexed name i) ++ "ToJson",
        "JsonTo" ++ typeName (indexed name i)] ++ [indexed name i]) :=
    (dropAdjacentRepeats_sublist _).append (List.Sublist.refl _)
  -- all of them have the same digits, so they are told apart by their letters
  refine List.Nodup.sublist hsublist (List.Nodup.of_map letters ?_)
  have hletters : letters (typeName (indexed name i)) = (typeName name).toList := by
    rw [h.typeName_indexed, letters_append, letters_eq h.typeIsAlpha, letters_toString,
      List.append_nil]
  have hname : letters (indexed name i) = (name ++ "_").toList := by
    rw [indexed, letters_append, letters_append, letters_eq h.isAlpha, letters_toString,
      List.append_nil, String.toList_append]
    rfl
  have hlit : letters "Init" = "Init".toList ∧ letters "Validate" = "Validate".toList ∧
      letters "ToJson" = "ToJson".toList ∧ letters "JsonTo" = "JsonTo".toList := by decide
  obtain ⟨hinit, hvalidate, htoJson, hjsonTo⟩ := hlit
  have hmap : ([typeName (indexed name i), "Init" ++ typeName (indexed name i),
      "Validate" ++ typeName (indexed name i), typeName (indexed name i) ++ "ToJson",
      "JsonTo" ++ typeName (indexed name i)] ++ [indexed name i]).map letters =
        (spellings name).map String.toList := by
    simp only [spellings, List.cons_append, List.nil_append, List.map_cons, List.map_nil,
      letters_append, hletters, hname, hinit, hvalidate, htoJson, hjsonTo, String.toList_append]
  rw [hmap]
  exact h.apart.map fun _ _ => String.toList_inj.mp

/-- Identifiers of names with different indices differ. -/
theorem nodup_flatMap (n : Nat) {f : Nat → List String}
    (hf : ∀ i, (f i).Sublist (typeNames (typeName (indexed name i)) ++ [indexed name i])) :
    ((List.range n).flatMap f).Nodup := by
  refine List.nodup_flatMap.mpr ⟨fun i _ => (h.nodup_identifiers i).sublist (hf i), ?_⟩
  refine List.nodup_range.imp fun {i j} hij x hi hj => hij (toList_toString_inj ?_)
  rw [← h.digits_of_mem i ((hf i).subset hi), h.digits_of_mem j ((hf j).subset hj)]

theorem nodup_typeNames (n : Nat) :
    ((List.range n).map fun i => typeName (indexed name i)).Nodup :=
  List.nodup_range.map fun i j hij => toList_toString_inj (by
    rw [← h.digits_typeName i, hij, h.digits_typeName])

theorem isIdentifier_indexed : isIdentifier (indexed name i) = true := by
  have hall : (indexed name i).toList.all isWordChar = true :=
    List.all_eq_true.mpr fun c hc => h.isWordChar_of_mem i hc
  rw [isIdentifier]
  cases hname : name.toList with
  | nil => exact absurd (String.toList_eq_nil_iff.mp hname) h.nonempty
  | cons c cs =>
    have hc : c.isAlpha = true := h.isAlpha c (by rw [hname]; exact List.mem_cons_self)
    have hne : (c != '_') = true := by
      rw [bne_iff_ne]
      rintro rfl
      exact absurd hc (by decide)
    have hchars : (indexed name i).toList = c :: (cs ++ ("_" ++ toString i).toList) := by
      rw [indexed, String.append_assoc, String.toList_append, hname, List.cons_append]
    rw [hchars] at hall ⊢
    simp only [isIdentifierChars, isLetter, hc, hall, List.any_cons, hne, Bool.true_or,
      Bool.and_self]

theorem isMemberName_indexed : isMemberName (indexed name i) = true :=
  isMemberName_iff.mpr ⟨h.isIdentifier_indexed i, isReserved_indexed name i⟩

end IsBase

end ConfigForge.Sample
