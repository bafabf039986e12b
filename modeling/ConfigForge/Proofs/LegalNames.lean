import ConfigForge.Proofs.Containment
import ConfigForge.Proofs.Functions
import ConfigForge.Proofs.TypeNames
import Mathlib.Data.List.TakeWhile

/-!
# Type names as identifiers

A member is accepted under a name that is an identifier as it stands, and its type goes by another
name: the underscores are dropped and the pieces between them are capitalized. Letters and digits are
all that is left, and something is left. But the underscores in front are dropped too, and a digit
that stood behind them comes to the front of the type name, where no identifier has one.

Results:

* `typeName_append`: an underscore between two names is dropped.
* `exists_typeName_eq`: the first character of a type name is the first of the name that is no
  underscore, in upper case.
* `isCppIdentifier_typeName`: the type name of an identifier is an identifier, unless a digit follows
  the underscores in front.
* `emitted_names_legal_iff`: the names that generated code declares are identifiers exactly if no type
  is named after such a member.
* `typedef_called_one`: a typedef of the name `1`.
-/

namespace ConfigForge

open Emit

/-- Whether a text is an identifier of C++: at least one character, only letters, digits and
underscores, and no digit in front. -/
def isCppIdentifier (text : String) : Bool :=
  match text.toList with
  | [] => false
  | c :: cs => !c.isDigit && (c :: cs).all isWordChar

/-- Whether the first character of a name that is no underscore is a digit. -/
def isDigitLed (name : String) : Bool :=
  (name.toList.dropWhile (· == '_')).head?.any Char.isDigit

/-! ## The first character of a type name -/

theorem not_isBlank_of_isWordChar {c : Char} (h : isWordChar c = true) : Text.isBlank c = false := by
  have hlt : c.toNat < 128 := by
    by_cases hc : c = '_'
    · rw [hc]
      decide
    · exact isAlphanum_toNat_lt (isAlphanum_of_isWordChar h hc)
  exact ascii_forall (P := fun c => isWordChar c = true → Text.isBlank c = false) (by decide) hlt h

/-- A text without blanks is not trimmed. -/
theorem Text.trim_of_forall {cs : List Char} (h : ∀ c ∈ cs, Text.isBlank c = false) :
    Text.trim cs = cs := by
  have hstart : ∀ ds : List Char, (∀ d ∈ ds, Text.isBlank d = false) → Text.trimStart ds = ds := by
    intro ds hds
    cases ds with
    | nil => rfl
    | cons d ds =>
      rw [Text.trimStart, List.dropWhile_cons_of_neg]
      rw [hds d List.mem_cons_self]
      exact Bool.false_ne_true
  rw [Text.trim, hstart cs h, hstart, List.reverse_reverse]
  exact fun c hc => h c (List.mem_reverse.mp hc)

/-- The type name of a name without blanks is made of its capitalized pieces. -/
theorem toList_typeName {name : String} (h : ∀ c ∈ name.toList, isWordChar c = true) :
    (typeName name).toList = (Text.split '_' name.toList).flatMap capitalize := by
  rw [typeName, String.toList_ofList, typeNameChars, Text.trim_of_forall]
  exact fun c hc => not_isBlank_of_isWordChar (h c hc)

/-- **An underscore between two names is dropped.** -/
theorem typeName_append {a b : String} (ha : ∀ c ∈ a.toList, isWordChar c = true)
    (hb : ∀ c ∈ b.toList, isWordChar c = true) :
    typeName (a ++ "_" ++ b) = typeName a ++ typeName b := by
  have hchars : (a ++ "_" ++ b).toList = a.toList ++ '_' :: b.toList := by
    simp [String.toList_append]
  have hword : ∀ c ∈ (a ++ "_" ++ b).toList, isWordChar c = true := by
    rw [hchars, List.forall_mem_append, List.forall_mem_cons]
    exact ⟨ha, by decide, hb⟩
  rw [← String.toList_inj, toList_typeName hword, hchars, Text.split_append, List.flatMap_append,
    String.toList_append, toList_typeName ha, toList_typeName hb]

/-- The pieces of a text, capitalized, start with the first character that is no underscore. -/
theorem exists_flatMap_capitalize {cs : List Char} {c : Char}
    (h : (cs.dropWhile (· == '_')).head? = some c) :
    ∃ rest, (Text.split '_' cs).flatMap capitalize = Text.upper c ++ rest := by
  induction cs with
  | nil => cases h
  | cons d cs ih =>
    rw [Text.split]
    by_cases hd : d = '_'
    · -- an underscore in front leaves an empty piece
      rw [List.dropWhile_cons_of_pos (by rw [hd]; rfl)] at h
      rw [if_pos hd, List.flatMap_cons, capitalize, List.nil_append]
      exact ih h
    · rw [List.dropWhile_cons_of_neg (by simpa using hd)] at h
      obtain rfl := Option.some.inj h
      rw [if_neg hd]
      cases hsplit : Text.split '_' cs with
      | nil => exact absurd hsplit (Text.split_ne_nil '_' cs)
      | cons piece pieces =>
        refine ⟨piece ++ pieces.flatMap capitalize, ?_⟩
        rw [List.flatMap_cons, capitalize, List.append_assoc]

/-- An identifier has a character that is no underscore, and the first such is a letter or a digit. -/
theorem exists_head_of_isIdentifier {name : String} (h : isIdentifier name = true) :
    ∃ c, (name.toList.dropWhile (· == '_')).head? = some c ∧ c.isAlphanum = true := by
  have hany : ∃ d ∈ name.toList, d ≠ '_' := by
    rw [isIdentifier] at h
    cases hchars : name.toList with
    | nil => rw [hchars] at h; cases h
    | cons d ds =>
      rw [hchars] at h
      simp only [isIdentifierChars, Bool.and_eq_true] at h
      obtain ⟨c, hc, hne⟩ := List.any_eq_true.mp h.2
      exact ⟨c, hc, bne_iff_ne.mp hne⟩
  cases hdrop : name.toList.dropWhile (· == '_') with
  | nil =>
    obtain ⟨d, hd, hne⟩ := hany
    exact absurd (beq_iff_eq.mp (List.dropWhile_eq_nil_iff.mp hdrop d hd)) hne
  | cons c cs =>
    have hmem : c ∈ name.toList := by
      refine (List.dropWhile_sublist (· == '_')).subset ?_
      rw [hdrop]
      exact List.mem_cons_self
    have hne : c ≠ '_' := by
      have hnot := List.head?_dropWhile_not (· == '_') name.toList
      rw [hdrop] at hnot
      simpa using hnot
    exact ⟨c, rfl, isAlphanum_of_isWordChar (all_isWordChar_of_isIdentifier h hmem) hne⟩

/-- **The first character of a type name.** It is the first character of the name that is no
underscore, in upper case. -/
theorem exists_typeName_eq {name : String} (h : isIdentifier name = true) :
    ∃ c rest, (name.toList.dropWhile (· == '_')).head? = some c ∧ c.isAlphanum = true ∧
      (typeName name).toList = c.toUpper :: rest := by
  obtain ⟨c, hc, halphanum⟩ := exists_head_of_isIdentifier h
  obtain ⟨rest, hrest⟩ := exists_flatMap_capitalize hc
  refine ⟨c, rest, hc, halphanum, ?_⟩
  rw [toList_typeName fun d hd => all_isWordChar_of_isIdentifier h hd, hrest,
    Text.upper_of_isAscii c (isAlphanum_toNat_lt halphanum), List.singleton_append]

/-- Upper case makes no digit of a letter and no letter of a digit. -/
theorem isDigit_toUpper {c : Char} (h : c.isAlphanum = true) : c.toUpper.isDigit = c.isDigit :=
  ascii_forall (P := fun c => c.toUpper.isDigit = c.isDigit) (by decide) (isAlphanum_toNat_lt h)

theorem typeName_ne_empty {name : String} (h : isIdentifier name = true) : typeName name ≠ "" := by
  obtain ⟨c, rest, -, -, hchars⟩ := exists_typeName_eq h
  intro hempty
  rw [hempty] at hchars
  cases hchars

theorem typeName_isWordChar {name : String} (h : isIdentifier name = true) {c : Char}
    (hc : c ∈ (typeName name).toList) : isWordChar c = true := by
  rw [isWordChar, typeName_isAlphanum h hc, Bool.true_or]

/-- **Type names.** The type name of an identifier is an identifier of C++, unless the first character
behind the underscores in front is a digit. -/
theorem isCppIdentifier_typeName {name : String} (h : isIdentifier name = true) :
    isCppIdentifier (typeName name) = !isDigitLed name := by
  obtain ⟨c, rest, hc, halphanum, hchars⟩ := exists_typeName_eq h
  have hall : (c.toUpper :: rest).all isWordChar = true := by
    rw [← hchars]
    exact List.all_eq_true.mpr fun d hd => typeName_isWordChar h hd
  rw [isCppIdentifier, hchars, isDigitLed, hc]
  simp only [hall, Bool.and_true, isDigit_toUpper halphanum, Option.any_some]

/-! ## The names in a schema -/

/-- The names around a node are those of objects. -/
theorem Schema.Has.exists_of_mem_around {s : Schema} {p : Place} (hp : s.Has p) {name : String}
    (hname : name ∈ p.around) : ∃ o, s.Has o ∧ o.node.isObject = true ∧ o.name = name := by
  -- by the number of objects around: the innermost of them is the node's own scope
  induction hn : p.around.length using Nat.strongRecOn generalizing p with
  | ind n ih =>
    rcases hp.enclosing with houter | ⟨o, members, ho, hnode, hmember⟩
    · rw [around_of_mem_membersWithItems houter] at hname
      cases hname
    · have haround := around_of_mem_membersWithItems hmember
      rw [haround, Place.path, List.mem_append, List.mem_singleton] at hname
      rcases hname with hname | rfl
      · refine ih o.around.length ?_ ho hname rfl
        rw [← hn, haround, Place.path, List.length_append]
        exact Nat.lt_succ_self _
      · exact ⟨o, ho, by rw [hnode]; rfl, rfl⟩

/-- Every name in the type of a node is made from the name of a node that declares a type. -/
theorem Schema.Has.exists_of_mem_classPath {s : Schema} {p : Place} (hp : s.Has p)
    (href : p.node.isReference = false) {x : String} (hx : x ∈ p.classPath) :
    ∃ o, s.Has o ∧ o.node.isReference = false ∧ x = typeName o.name := by
  rw [← Place.map_typeName_path, Place.path, List.map_append, List.mem_append] at hx
  rcases hx with hx | hx
  · obtain ⟨name, hname, rfl⟩ := List.mem_map.mp hx
    obtain ⟨o, ho, hobject, rfl⟩ := hp.exists_of_mem_around hname
    exact ⟨o, ho, Node.isReference_of_isObject hobject, rfl⟩
  · exact ⟨p, hp, href, List.mem_singleton.mp hx⟩

section

variable {target : Target} {s : Schema} {units : Entries CodeUnit}

/-- The types that a run yields are those of the nodes that are no references. -/
theorem exists_declaring_of_yields? (h : generateUnits target s = .ok units)
    {position : List Nat} {type : QualifiedName} (htype : s.yields? target position = some type) :
    ∃ p, s.Has p ∧ p.node.isReference = false ∧ p.type = type := by
  obtain ⟨hs, -⟩ := generateUnits_ok_iff.mp h
  obtain ⟨c, hc, rfl⟩ := exists_of_yields? h htype
  -- a reference yields the type of an object, and settling changes neither names nor scopes
  obtain ⟨o, ho, horef, hprovided⟩ : ∃ o, s.settled.Has o ∧ o.node.isReference = false ∧
      o.type = c.provided := by
    by_cases href : c.node.isReference = true
    · obtain ⟨r, hr⟩ := Node.exists_of_isReference href
      obtain ⟨o, ho, horef, hpath⟩ := Schema.exists_target hs.settled.2 ⟨position, hc⟩ hr
      refine ⟨o, ho, horef, ?_⟩
      rw [hpath, Place.provided, hr]
      rfl
    · rw [Bool.not_eq_true] at href
      exact ⟨c, ⟨position, hc⟩, href, (Place.provided_of_not_reference href).symm⟩
  obtain ⟨p, done, hp, rfl⟩ := Schema.exists_of_settled ho
  refine ⟨p, hp, ?_, hprovided⟩
  rw [Place.settle, Node.isReference_settle] at horef
  exact horef

/-- **Names of generated types.** In a run that succeeds, every name in a qualified name that the run
yields is a non-empty text of letters, digits and underscores. All of them are identifiers of C++
exactly if no node that declares a type goes by a name with a digit behind the underscores in front. -/
theorem emitted_names_legal_iff (h : generateUnits target s = .ok units) :
    (∀ position type, s.yields? target position = some type →
      ∀ x ∈ type.scope ++ [type.name], x ≠ "" ∧ ∀ c ∈ x.toList, isWordChar c = true) ∧
    ((∀ position type, s.yields? target position = some type →
        ∀ x ∈ type.scope ++ [type.name], isCppIdentifier x = true) ↔
      ∀ p, s.Has p → p.node.isReference = false → isDigitLed p.name = false) := by
  obtain ⟨hs, -⟩ := generateUnits_ok_iff.mp h
  have hmade : ∀ position type, s.yields? target position = some type →
      ∀ x ∈ type.scope ++ [type.name],
        ∃ o, s.Has o ∧ o.node.isReference = false ∧ x = typeName o.name := by
    intro position type htype x hx
    obtain ⟨p, hp, href, rfl⟩ := exists_declaring_of_yields? h htype
    exact hp.exists_of_mem_classPath href hx
  refine ⟨fun position type htype x hx => ?_, fun hlegal p hp href => ?_,
    fun hnames position type htype x hx => ?_⟩
  · obtain ⟨o, ho, -, rfl⟩ := hmade position type htype x hx
    have hname := hs.isIdentifier_name ho
    exact ⟨typeName_ne_empty hname, fun c hc => typeName_isWordChar hname hc⟩
  · obtain ⟨position, hposition⟩ := hp
    have hyields := yields?_of_not_reference h hposition href
    have hname := hlegal position p.type hyields p.type.name
      (List.mem_append_right _ List.mem_cons_self)
    change isCppIdentifier (typeName p.name) = true at hname
    rw [isCppIdentifier_typeName (hs.isIdentifier_name ⟨position, hposition⟩)] at hname
    simpa using hname
  · obtain ⟨o, ho, horef, rfl⟩ := hmade position type htype x hx
    rw [isCppIdentifier_typeName (hs.isIdentifier_name ho), hnames o ho horef]
    rfl

end

/-- An array inside an object, with a name that starts with an underscore. -/
def underscoreExample : Schema :=
  ⟨[("_box", .object [("sizes_2", .array (.scalar (.bool none)) ⟨none, none⟩)])]⟩

theorem underscoreExample_names_legal :
    ∃ units, generateUnits Options.default.target underscoreExample = .ok units ∧
      underscoreExample.yields? Options.default.target [0, 0, 0] =
        some ⟨["Box"], "Sizes2Element"⟩ ∧
      ∀ x ∈ ["Box", "Sizes2Element"], isCppIdentifier x = true := by
  obtain ⟨units, h⟩ := Schema.generates_of_toBool
    (show (generateUnits Options.default.target underscoreExample).toBool = true by decide)
  have hitem : (⟨["_box"], "sizes_2_element", .scalar (.bool none)⟩ : Place).type =
      ⟨["Box"], "Sizes2Element"⟩ := by decide
  have hyields : underscoreExample.yields? Options.default.target [0, 0, 0] =
      some ⟨["Box"], "Sizes2Element"⟩ :=
    hitem ▸ yields?_of_not_reference h (p := ⟨["_box"], "sizes_2_element", .scalar (.bool none)⟩)
      rfl rfl
  have hnames : ∀ p ∈ underscoreExample.postorder, isDigitLed p.name = false := by decide
  have hlegal := (emitted_names_legal_iff h).2.mpr fun p hp _ =>
    hnames p (mem_postorder_iff.mpr hp)
  exact ⟨units, h, hyields, hlegal _ _ hyields⟩

/-- The name `_1` is accepted, and the typedef written for it declares the name `1`. -/
theorem typedef_called_one :
    ∃ units, generateUnits Options.default.target ⟨[("_1", .scalar (.bool none))]⟩ = .ok units ∧
      (units.map fun e => (e.2.name, e.2.fragment.forward)) =
        [(⟨[], "1"⟩, ["typedef bool 1;"])] ∧ isCppIdentifier "1" = false := by
  have hunits : (generateUnits Options.default.target ⟨[("_1", .scalar (.bool none))]⟩).toOption.map
      (List.map fun e => (e.2.name, e.2.fragment.forward)) =
        some [(⟨[], "1"⟩, ["typedef bool 1;"])] := by decide
  cases h : generateUnits Options.default.target ⟨[("_1", .scalar (.bool none))]⟩ with
  | error e => rw [h] at hunits; cases hunits
  | ok units =>
    rw [h] at hunits
    exact ⟨units, rfl, Option.some.inj hunits, by decide⟩

end ConfigForge
