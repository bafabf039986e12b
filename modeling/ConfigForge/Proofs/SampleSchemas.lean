import ConfigForge.Proofs.Grammar
import ConfigForge.Proofs.HeaderClasses
import ConfigForge.Proofs.IndexedNames
import ConfigForge.Proofs.InitialLines

/-!
# Sample schemas of every size

The sample schemas of all sizes give code. Each sample value describes a schema, which is written
down here as a tree. The limits of its scalars are consistent whatever their index, its references
find the object that comes before all others, and no two identifiers of a class clash: those with an
index are told apart by their digits, and the classes around an object have smaller indices than its
members.

Results:

* `ofJson_wide`, `ofJson_nested`, `ofJson_fanout`: which schemas the sample values are read as.
* `free_ofClass_level`: which names can be declared in a nested object.
* `admissible_wide`, `admissible_nested`, `admissible_fanout`: all samples give code.
* `classPaths_nestedTree`: the classes of nested objects.
* `samples_of_every_size_generate`: the classes and data members in the headers of the samples.
-/

namespace ConfigForge.Sample

open Emit Json

/-! ## The schemas that the values describe -/

/-- The limits of the integer with an index. -/
def integerLimits (index : Nat) : Limits Int :=
  match index % 4 with
  | 0 => ⟨some 0, some 200, none⟩
  | 1 => ⟨some (-129), some 128, none⟩
  | 2 => ⟨some 0, some 70000, some 8080⟩
  | _ => .free

/-- The scalar with an index. -/
def scalarOf (index : Nat) : Scalar :=
  match index % 4 with
  | 0 => .integer (integerLimits (index / 4))
  | 1 => .number ⟨some (.ofInt 0), some (.ofInt 1), none⟩
  | 2 => .string (some "value")
  | _ => .bool (some true)

/-- The members of a wide object. -/
def wideMembers (n : Nat) : List (String × Node) :=
  (List.range n).map fun i => (indexed "field" i, .scalar (scalarOf i))

/-- The wide schema. -/
def wideSchema (n : Nat) : Schema :=
  ⟨[("root", .object (wideMembers n))]⟩

/-- An array of one to eight numbers. -/
def numbers : Node :=
  .array (.scalar (.number .free)) ⟨some 1, some 8⟩

/-- Nested objects, the outermost with the index `level`. -/
def nestedTree (level : Nat) : Nat → Node
  | 0 => .object [("leaf", .scalar (.integer ⟨some 0, some 10, none⟩))]
  | depth + 1 => .object
    [("value", .scalar (scalarOf level)), ("items", numbers),
      (indexed "level" level, nestedTree (level + 1) depth)]

/-- The nested schema. -/
def nestedSchema (depth : Nat) : Schema :=
  ⟨[("root", nestedTree 0 depth)]⟩

/-- The object that all others refer to. -/
def sharedTree : Node :=
  .object [("id", .scalar (.string none)),
    ("weight", .scalar (.number ⟨none, none, some (.ofInt 1)⟩))]

/-- An object that refers to the shared one twice. -/
def holderTree : Node :=
  .object [("single", .reference ⟨["shared"]⟩),
    ("many", .array (.reference ⟨["shared"]⟩) ⟨none, none⟩)]

/-- The schema with one object and others that refer to it. -/
def fanoutSchema (n : Nat) : Schema :=
  ⟨("shared", sharedTree) :: (List.range n).map fun i => (indexed "holder" i, holderTree)⟩

/-! ## Reading -/

theorem describes_of_readNode_nil {v : Value} {node : Node} (h : readNode [] v = .ok node) :
    Describes v node :=
  ((readNode_ok_iff v).1 [] node).mp h

/-- The index decides by its residue what a member is. -/
theorem residue_cases (index : Nat) :
    index % 4 = 0 ∨ index % 4 = 1 ∨ index % 4 = 2 ∨ index % 4 = 3 := by
  omega

theorem describes_integerMember (index : Nat) :
    Describes (integerMember index) (.scalar (.integer (integerLimits index))) := by
  unfold integerMember integerLimits
  rcases residue_cases index with h | h | h | h <;> rw [h] <;> exact describes_of_readNode_nil rfl

theorem describes_scalarMember (index : Nat) :
    Describes (scalarMember index) (.scalar (scalarOf index)) := by
  unfold scalarMember scalarOf
  rcases residue_cases index with h | h | h | h <;> rw [h]
  · exact describes_integerMember (index / 4)
  all_goals exact describes_of_readNode_nil rfl

theorem describes_object {named : List (String × Value)} {members : List (String × Node)}
    (hnamed : WellNamed named) (heach : DescribesEach named members) :
    Describes (object named) (.object members) :=
  .object ⟨rfl, rfl⟩ rfl hnamed heach

theorem describesEach_map {α : Type} {name : α → String} {value : α → Value} {node : α → Node}
    {l : List α} (h : ∀ a ∈ l, Describes (value a) (node a)) :
    DescribesEach (l.map fun a => (name a, value a)) (l.map fun a => (name a, node a)) := by
  induction l with
  | nil => exact .nil
  | cons a l ih =>
    rw [List.forall_mem_cons] at h
    exact .cons h.1 (ih h.2)

/-- A schema with one entry is read if the entry is. -/
theorem ofJson_root {v : Value} {node : Node} (h : Describes v node)
    (hreference : node.isReference = false) :
    Schema.ofJson (.object [("root", v)]) = .ok ⟨[("root", node)]⟩ := by
  have hroot : isIdentifier "root" = true := by decide
  refine (ofJson_eq_ok_iff _ _).mpr ⟨_, rfl, ⟨?_, List.nodup_singleton _⟩, .cons h .nil, ?_⟩
  · exact List.forall_mem_singleton.mpr hroot
  · exact List.forall_mem_singleton.mpr hreference

theorem ofJson_wide (n : Nat) : Schema.ofJson (wide n) = .ok (wideSchema n) := by
  have hnamed : WellNamed ((List.range n).map fun i => (indexed "field" i, scalarMember i)) := by
    constructor
    · intro f hf
      obtain ⟨i, -, rfl⟩ := List.mem_map.mp hf
      exact isBase_field.isIdentifier_indexed i
    · rw [List.map_map]
      exact isBase_field.nodup_typeNames n
  exact ofJson_root
    (describes_object hnamed (describesEach_map fun i _ => describes_scalarMember i)) rfl

theorem describes_nestedNode (level depth : Nat) :
    Describes (nestedNode level depth) (nestedTree level depth) := by
  induction depth generalizing level with
  | zero => exact describes_of_readNode_nil rfl
  | succ depth ih =>
    refine describes_object ⟨?_, ?_⟩ (.cons (describes_scalarMember level)
      (.cons (describes_of_readNode_nil rfl) (.cons (ih (level + 1)) .nil)))
    · simp only [List.forall_mem_cons]
      exact ⟨by decide, by decide, isBase_level.isIdentifier_indexed level, List.forall_mem_nil _⟩
    · have hplain : ([typeName "value", typeName "items"]).Nodup ∧
          ∀ x ∈ [typeName "value", typeName "items"], digits x = [] := by decide
      exact nodup_append_of_digits hplain.1 hplain.2 (List.nodup_singleton _)
        (List.forall_mem_singleton.mpr (isBase_level.digits_typeName_ne_nil level))

theorem ofJson_nested (depth : Nat) : Schema.ofJson (nested depth) = .ok (nestedSchema depth) := by
  have hreference : (nestedTree 0 depth).isReference = false := by
    cases depth <;> rfl
  exact ofJson_root (describes_nestedNode 0 depth) hreference

theorem ofJson_fanout (n : Nat) : Schema.ofJson (fanout n) = .ok (fanoutSchema n) := by
  have hnamed : WellNamed (("shared", sharedNode) ::
      (List.range n).map fun i => (indexed "holder" i, holderNode)) := by
    constructor
    · refine List.forall_mem_cons.mpr ⟨by decide, fun f hf => ?_⟩
      obtain ⟨i, -, rfl⟩ := List.mem_map.mp hf
      exact isBase_holder.isIdentifier_indexed i
    · have hplain : [typeName "shared"].Nodup ∧ ∀ x ∈ [typeName "shared"], digits x = [] := by
        decide
      rw [List.map_cons, List.map_map]
      refine nodup_append_of_digits hplain.1 hplain.2 (isBase_holder.nodup_typeNames n) ?_
      intro x hx
      obtain ⟨i, -, rfl⟩ := List.mem_map.mp hx
      exact isBase_holder.digits_typeName_ne_nil i
  refine (ofJson_eq_ok_iff _ _).mpr ⟨_, rfl, hnamed, ?_, ?_⟩
  · exact .cons (describes_of_readNode_nil rfl)
      (describesEach_map fun _ _ => describes_of_readNode_nil rfl)
  · refine List.forall_mem_cons.mpr ⟨rfl, fun e he => ?_⟩
    obtain ⟨i, -, rfl⟩ := List.mem_map.mp he
    rfl

/-! ## Limits -/

theorem fault?_integerLimits (index : Nat) :
    (Scalar.integer (integerLimits index)).fault? = none := by
  unfold integerLimits
  rcases residue_cases index with h | h | h | h <;> rw [h] <;> rfl

theorem fault?_scalarOf (index : Nat) : (scalarOf index).fault? = none := by
  unfold scalarOf
  rcases residue_cases index with h | h | h | h <;> rw [h]
  · exact fault?_integerLimits (index / 4)
  all_goals rfl

theorem check_scalarOf (index : Nat) (location : Location) :
    (Node.scalar (scalarOf index)).check location = .ok () := by
  rw [Node.check, fault?_scalarOf]
  rfl

theorem checkMembers_of_forall {members : List (String × Node)}
    (h : ∀ m ∈ members, ∀ location, m.2.check location = .ok ()) (location : Location) :
    Node.checkMembers location members = .ok () := by
  induction members with
  | nil => rfl
  | cons m rest ih =>
    rw [List.forall_mem_cons] at h
    obtain ⟨name, node⟩ := m
    rw [Node.checkMembers, Except.bind_eq_ok_iff]
    exact ⟨(), h.1 _, ih h.2⟩

theorem check_nestedTree (level depth : Nat) (location : Location) :
    (nestedTree level depth).check location = .ok () := by
  induction depth generalizing level location with
  | zero => rfl
  | succ depth ih =>
    refine checkMembers_of_forall (List.forall_mem_cons.mpr ⟨check_scalarOf level, ?_⟩) location
    refine List.forall_mem_cons.mpr ⟨fun location => rfl, ?_⟩
    exact List.forall_mem_singleton.mpr (ih (level + 1))

/-! ## References -/

/-- Where a condition on the complete objects, once true, makes all references right, they are right
one after the other. -/
theorem eachReferenceIn_of_forall {P : (List String → Prop) → List String → Reference → Prop}
    {Q : List (List String) → Prop} (hmono : ∀ done more, Q done → Q (done ++ more))
    {around : List String} {members : List (String × Node)}
    (h : ∀ m ∈ members, ∀ done, Q done → m.2.EachReference P done around m.1)
    {done : List (List String)} (hdone : Q done) : EachReferenceIn P done around members := by
  induction members generalizing done with
  | nil => exact trivial
  | cons m rest ih =>
    rw [List.forall_mem_cons] at h
    exact ⟨h.1 done hdone, ih h.2 (hmono done _ hdone)⟩

theorem eachReference_nestedTree
    {P : (List String → Prop) → List String → Reference → Prop} (level depth : Nat)
    (done : List (List String)) (around : List String) (name : String) :
    (nestedTree level depth).EachReference P done around name := by
  induction depth generalizing level done around name with
  | zero => exact ⟨trivial, trivial⟩
  | succ depth ih => exact ⟨trivial, trivial, ih _ _ _ _, trivial⟩

theorem eachReference_holderTree {done : List (List String)} (hdone : ["shared"] ∈ done)
    (name : String) : holderTree.EachReference Reference.Resolves done [] name := by
  have hresolves : ∀ {done : List (List String)}, ["shared"] ∈ done →
      Reference.Resolves (· ∈ done) ([] ++ [name]) ⟨["shared"]⟩ := fun hdone =>
    ⟨0, Nat.zero_le _, ["shared"], hdone, rfl⟩
  exact ⟨hresolves hdone, hresolves (List.mem_append_left _ hdone), trivial⟩

/-! ## Names -/

/-- Names can be declared in a class if they differ from each other, from the members of every class
and from the classes on the way. -/
theorem free_ofClass {around : List String} {name : String} {names : List String}
    (hnodup : names.Nodup) (hmembers : ∀ x ∈ classMemberNames, x ∉ names)
    (hpath : ∀ y ∈ around ++ [name], typeName y ∉ names) :
    (Scope.ofClass ⟨around.map typeName, typeName name⟩).Free names := by
  refine ⟨hnodup, fun x hx htaken => ?_⟩
  have htaken : x ∈ classMemberNames ++ (around ++ [name]).map typeName := by
    rw [List.map_append, ← List.append_assoc]
    exact htaken
  rcases List.mem_append.mp htaken with hmem | hmem
  · exact hmembers x hmem hx
  · obtain ⟨y, hy, rfl⟩ := List.mem_map.mp hmem
    exact hpath y hy hx

theorem digits_of_mem_classMemberNames : ∀ x ∈ classMemberNames, digits x = [] := by decide

theorem digits_typeName_root : digits (typeName "root") = [] := by decide

theorem allNamesApart_wide (n : Nat) :
    (⟨[], "root", .object (wideMembers n)⟩ : Place).AllNamesApart := by
  have hidentifiers : memberIdentifiers (wideMembers n) = (List.range n).flatMap fun i =>
      typeNames (typeName (indexed "field" i)) ++ [indexed "field" i] := by
    simp only [memberIdentifiers, wideMembers, List.flatMap_map, Node.identifiers_scalar]
  have hdigits : ∀ x ∈ memberIdentifiers (wideMembers n), digits x ≠ [] := by
    rw [hidentifiers]
    intro x hx
    obtain ⟨i, -, hx⟩ := List.mem_flatMap.mp hx
    exact isBase_field.digits_ne_nil_of_mem i hx
  refine allNamesApart_object.mpr ⟨⟨?_, free_ofClass ?_ ?_ ?_⟩, ?_⟩
  · intro m hm
    obtain ⟨i, -, rfl⟩ := List.mem_map.mp hm
    exact isBase_field.isMemberName_indexed i
  · rw [hidentifiers]
    exact isBase_field.nodup_flatMap n fun i => List.Sublist.refl _
  · exact fun x hx hmem => hdigits x hmem (digits_of_mem_classMemberNames x hx)
  · exact List.forall_mem_singleton.mpr fun hmem => hdigits _ hmem digits_typeName_root
  · intro p hp
    obtain ⟨m, hm, rfl⟩ := List.mem_map.mp hp
    obtain ⟨i, -, rfl⟩ := List.mem_map.mp hm
    exact allNamesApart_of_leaf rfl rfl

/-- The names on the way to a nested object: those of the objects around it, and its own. -/
def levelPath (level : Nat) : List String :=
  "root" :: (List.range level).map (indexed "level")

theorem levelPath_succ (level : Nat) :
    levelPath (level + 1) = levelPath level ++ [indexed "level" level] := by
  rw [levelPath, List.range_succ, List.map_append]
  rfl

/-- Names without digits that can be declared in a class: they differ from each other and from the
members of every class. -/
structure IsPlain (names : List String) : Prop where
  nodup : names.Nodup
  digits : ∀ x ∈ names, digits x = []
  free : ∀ x ∈ classMemberNames, x ∉ names

/-- In a nested object plain names and names with its index can be declared: the classes on the way
are the outermost one and some with smaller indices. -/
theorem free_ofClass_level {level : Nat} {around : List String} {name : String}
    {plain numbered : List String} (hplain : IsPlain plain) (hroot : typeName "root" ∉ plain)
    (hnumbered : numbered.Nodup) (hdigits : ∀ x ∈ numbered, digits x = (toString level).toList)
    (hpath : around ++ [name] = levelPath level) :
    (Scope.ofClass ⟨around.map typeName, typeName name⟩).Free (plain ++ numbered) := by
  have hindex : ∀ x ∈ numbered, digits x ≠ [] := fun x hx => by
    rw [hdigits x hx]
    exact Cpp.toList_toString_ne_nil level
  refine free_ofClass (nodup_append_of_digits hplain.nodup hplain.digits hnumbered hindex) ?_ ?_
  · intro x hx hmem
    rcases List.mem_append.mp hmem with hmem | hmem
    · exact hplain.free x hx hmem
    · exact hindex x hmem (digits_of_mem_classMemberNames x hx)
  -- on the way are the outermost class, without digits, and classes with smaller indices
  rw [hpath]
  refine List.forall_mem_cons.mpr ⟨fun hmem => ?_, fun y hy hmem => ?_⟩
  · rcases List.mem_append.mp hmem with hmem | hmem
    · exact hroot hmem
    · exact hindex _ hmem digits_typeName_root
  · obtain ⟨i, hi, rfl⟩ := List.mem_map.mp hy
    rcases List.mem_append.mp hmem with hmem | hmem
    · exact isBase_level.digits_typeName_ne_nil i (hplain.digits _ hmem)
    · have hsame := hdigits _ hmem
      rw [isBase_level.digits_typeName] at hsame
      exact absurd (toList_toString_inj hsame) (Nat.ne_of_lt (List.mem_range.mp hi))

/-- The identifiers of the members with a fixed name in a nested object. -/
def levelNames : List String :=
  memberIdentifiers [("value", .scalar (.bool none)), ("items", numbers)]

theorem memberIdentifiers_nestedTree (level depth : Nat) :
    memberIdentifiers [("value", .scalar (scalarOf level)), ("items", numbers),
        (indexed "level" level, nestedTree (level + 1) depth)] =
      levelNames ++ (typeNames (typeName (indexed "level" level)) ++ [indexed "level" level]) := by
  have hinner : (nestedTree (level + 1) depth).identifiers (indexed "level" level) =
      typeNames (typeName (indexed "level" level)) := by
    cases depth <;> exact Node.identifiers_object _ _
  rw [levelNames]
  simp only [memberIdentifiers, List.flatMap_cons, List.flatMap_nil, hinner,
    Node.identifiers_scalar, List.append_assoc, List.append_nil]

theorem allNamesApart_nestedTree (level depth : Nat) {around : List String} {name : String}
    (hpath : around ++ [name] = levelPath level) :
    (⟨around, name, nestedTree level depth⟩ : Place).AllNamesApart := by
  -- going down, the depth that is left falls and the level rises with the path
  induction depth generalizing level around name with
  | zero =>
    have hplain : IsPlain (memberIdentifiers [("leaf", .scalar (.bool none))]) :=
      ⟨by decide, by decide, by decide⟩
    have hfree := free_ofClass_level hplain (by decide) List.nodup_nil (List.forall_mem_nil _) hpath
    rw [List.append_nil] at hfree
    refine allNamesApart_object.mpr ⟨⟨by decide, hfree⟩, ?_⟩
    exact List.forall_mem_singleton.mpr (allNamesApart_of_leaf rfl rfl)
  | succ depth ih =>
    have hplain : IsPlain levelNames := ⟨by decide, by decide, by decide⟩
    have hnames : isMemberName "value" = true ∧ isMemberName "items" = true := by decide
    refine allNamesApart_object.mpr ⟨⟨?_, ?_⟩, ?_⟩
    · refine List.forall_mem_cons.mpr ⟨hnames.1, List.forall_mem_cons.mpr ⟨hnames.2, ?_⟩⟩
      exact List.forall_mem_singleton.mpr (isBase_level.isMemberName_indexed level)
    · rw [memberIdentifiers_nestedTree]
      exact free_ofClass_level hplain (by decide) (isBase_level.nodup_identifiers level)
        (fun _ => isBase_level.digits_of_mem level) hpath
    · refine List.forall_mem_cons.mpr ⟨allNamesApart_of_leaf rfl rfl, ?_⟩
      refine List.forall_mem_cons.mpr ⟨?_, List.forall_mem_singleton.mpr (ih (level + 1) ?_)⟩
      · exact allNamesApart_array.mpr (allNamesApart_of_leaf rfl rfl)
      · rw [hpath, levelPath_succ]

/-- A schema with one object gives code if the object is checked and has its names apart. -/
theorem admissible_root {node : Node} (hobject : node.isObject = true)
    (hcheck : ∀ location, node.check location = .ok ())
    (hrefs : node.EachReference Reference.Resolves [] [] "root")
    (hapart : (⟨[], "root", node⟩ : Place).AllNamesApart) :
    (⟨[("root", node)]⟩ : Schema).Admissible := by
  have hroot : isIdentifier "root" = true ∧ (typeNames (typeName "root")).Nodup := by decide
  cases node with
  | object members =>
    refine admissible_iff.mpr ⟨?_, ⟨hrefs, trivial⟩, ?_, ?_, ?_⟩
    · exact checkMembers_of_forall (List.forall_mem_singleton.mpr hcheck) []
    · exact List.forall_mem_singleton.mpr ⟨hroot.1, rfl⟩
    · exact List.forall_mem_singleton.mpr hapart
    · rw [Schema.identifiers, List.flatMap_singleton, Node.identifiers_object]
      exact ⟨hroot.2, fun _ _ => List.not_mem_nil⟩
  | scalar s => cases hobject
  | array item bounds => cases hobject
  | reference r => cases hobject

theorem admissible_wide (n : Nat) : (wideSchema n).Admissible := by
  refine admissible_root rfl (checkMembers_of_forall fun m hm => ?_) ?_ (allNamesApart_wide n)
  · obtain ⟨i, -, rfl⟩ := List.mem_map.mp hm
    exact check_scalarOf i
  · refine eachReferenceIn_of_forall (Q := fun _ => True) (fun _ _ _ => trivial) ?_ trivial
    intro m hm done _
    obtain ⟨i, -, rfl⟩ := List.mem_map.mp hm
    exact trivial

theorem admissible_nested (depth : Nat) : (nestedSchema depth).Admissible := by
  have hobject : (nestedTree 0 depth).isObject = true := by cases depth <;> rfl
  exact admissible_root hobject (check_nestedTree 0 depth) (eachReference_nestedTree 0 depth _ _ _)
    (allNamesApart_nestedTree 0 depth rfl)

theorem allNamesApart_sharedTree : (⟨[], "shared", sharedTree⟩ : Place).AllNamesApart := by
  refine allNamesApart_object.mpr ⟨⟨by decide, by decide, by decide⟩, ?_⟩
  refine List.forall_mem_cons.mpr ⟨allNamesApart_of_leaf rfl rfl, ?_⟩
  exact List.forall_mem_singleton.mpr (allNamesApart_of_leaf rfl rfl)

theorem allNamesApart_holderTree (i : Nat) :
    (⟨[], indexed "holder" i, holderTree⟩ : Place).AllNamesApart := by
  have hplain : IsPlain (memberIdentifiers [("single", .reference ⟨["shared"]⟩),
      ("many", .array (.reference ⟨["shared"]⟩) ⟨none, none⟩)]) := ⟨by decide, by decide, by decide⟩
  refine allNamesApart_object.mpr ⟨⟨by decide, free_ofClass hplain.nodup hplain.free ?_⟩, ?_⟩
  · refine List.forall_mem_singleton.mpr fun hmem => ?_
    exact isBase_holder.digits_typeName_ne_nil i (hplain.digits _ hmem)
  · refine List.forall_mem_cons.mpr ⟨allNamesApart_of_leaf rfl rfl, ?_⟩
    exact List.forall_mem_singleton.mpr (allNamesApart_array.mpr (allNamesApart_of_leaf rfl rfl))

theorem admissible_fanout (n : Nat) : (fanoutSchema n).Admissible := by
  refine admissible_iff.mpr ⟨?_, ⟨⟨trivial, trivial, trivial⟩, ?_⟩, ?_, ?_, ?_⟩
  · refine checkMembers_of_forall (List.forall_mem_cons.mpr ⟨fun _ => rfl, fun m hm => ?_⟩) []
    obtain ⟨i, -, rfl⟩ := List.mem_map.mp hm
    exact fun _ => rfl
  · refine eachReferenceIn_of_forall (Q := fun done => ["shared"] ∈ done)
      (fun _ _ => List.mem_append_left _) ?_ List.mem_cons_self
    intro m hm done hdone
    obtain ⟨i, -, rfl⟩ := List.mem_map.mp hm
    exact eachReference_holderTree hdone _
  · refine List.forall_mem_cons.mpr ⟨⟨by decide, rfl⟩, fun m hm => ?_⟩
    obtain ⟨i, -, rfl⟩ := List.mem_map.mp hm
    exact ⟨isBase_holder.isIdentifier_indexed i, rfl⟩
  · refine List.forall_mem_cons.mpr ⟨allNamesApart_sharedTree, fun p hp => ?_⟩
    obtain ⟨m, hm, rfl⟩ := List.mem_map.mp hp
    obtain ⟨i, -, rfl⟩ := List.mem_map.mp hm
    exact allNamesApart_holderTree i
  · have hidentifiers : (fanoutSchema n).identifiers = typeNames (typeName "shared") ++
        (List.range n).flatMap fun i => typeNames (typeName (indexed "holder" i)) := by
      rw [Schema.identifiers, fanoutSchema, List.flatMap_cons, List.flatMap_map]
      simp only [sharedTree, holderTree, Node.identifiers_object]
    have hshared : (typeNames (typeName "shared")).Nodup ∧
        ∀ x ∈ typeNames (typeName "shared"), digits x = [] := by decide
    rw [hidentifiers]
    refine ⟨nodup_append_of_digits hshared.1 hshared.2 ?_ ?_, fun _ _ => List.not_mem_nil⟩
    · exact isBase_holder.nodup_flatMap n fun i => List.sublist_append_left _ _
    · intro x hx
      obtain ⟨i, -, hx⟩ := List.mem_flatMap.mp hx
      exact isBase_holder.digits_ne_nil_of_mem i (List.mem_append_left _ hx)

/-! ## Classes and data members -/

theorem settleMembers_wideMembers (done : List (List String)) (around : List String) (n : Nat) :
    settleMembers done around (wideMembers n) = wideMembers n := by
  unfold wideMembers
  induction List.range n generalizing done with
  | nil => rfl
  | cons i rest ih => rw [List.map_cons, settleMembers, ih]; rfl

/-- What scalars have nothing of, a wide object has nothing of below it. -/
theorem flatMap_wideMembers {α : Type} {f : Place → List α} (around : List String) (n : Nat)
    (hf : ∀ name s, f ⟨around, name, .scalar s⟩ = []) :
    (placesIn around (wideMembers n)).flatMap f = [] := by
  rw [List.flatMap_eq_nil_iff]
  intro p hp
  obtain ⟨m, hm, rfl⟩ := List.mem_map.mp hp
  obtain ⟨i, -, rfl⟩ := List.mem_map.mp hm
  exact hf _ _

theorem classPaths_wideSchema (n : Nat) :
    memberClassPaths [] (wideSchema n).entries = [["Root"]] := by
  have hroot : typeName "root" = "Root" := by decide
  rw [wideSchema, memberClassPaths, memberClassPaths, Node.classPaths, memberClassPaths_eq,
    flatMap_wideMembers _ n fun _ _ => rfl, List.nil_append, List.map_singleton, hroot]
  rfl

theorem dataLines_wideSchema (namespaces : List String) (n : Nat) :
    memberDataLines namespaces [] (wideSchema n).settled.entries = (List.range n).map fun i =>
      (["Root"], dataMember namespaces ⟨["Root"], "Field" ++ toString i⟩ (indexed "field" i)) := by
  have hnames : typeName "root" = "Root" ∧ typeName "field" = "Field" := by decide
  rw [Schema.settled, wideSchema, settleMembers, settleMembers, Node.settle,
    settleMembers_wideMembers, memberDataLines, memberDataLines, Node.dataLines,
    memberDataLines_eq, flatMap_wideMembers _ n fun _ _ => rfl, List.nil_append, List.append_nil,
    wideMembers, List.map_map]
  refine List.map_congr_left fun i _ => ?_
  rw [← hnames.1, ← hnames.2, ← isBase_field.typeName_indexed]
  rfl

theorem typeName_levelPath (level : Nat) :
    (levelPath level).map typeName =
      "Root" :: (List.range level).map fun i => "Level" ++ toString i := by
  have hnames : typeName "root" = "Root" ∧ typeName "level" = "Level" := by decide
  have hindexed : ∀ i, typeName (indexed "level" i) = "Level" ++ toString i := fun i => by
    rw [isBase_level.typeName_indexed, hnames.2]
  simp only [levelPath, List.map_cons, List.map_map, Function.comp_def, hnames.1, hindexed]

/-- The classes of nested objects: each object has that of the next one inside. -/
theorem classPaths_nestedTree (level depth : Nat) {around : List String} {name : String}
    (hpath : around ++ [name] = levelPath level) :
    (nestedTree level depth).classPaths around name =
      (List.range (depth + 1)).map fun d => (levelPath (level + d)).map typeName := by
  induction depth generalizing level around name with
  | zero => exact congrArg (fun path => [path.map typeName]) hpath
  | succ depth ih =>
    have hobject : (nestedTree level (depth + 1)).classPaths around name =
        (around ++ [name]).map typeName :: ((nestedTree (level + 1) depth).classPaths
          (around ++ [name]) (indexed "level" level) ++ []) := rfl
    have hshift : ∀ d, level + 1 + d = level + (d + 1) := fun d => by omega
    rw [hobject, hpath, ih (level + 1) (levelPath_succ level).symm, List.append_nil,
      List.range_succ_eq_map (n := depth + 1), List.map_cons, List.map_map]
    simp only [Function.comp_def, hshift, Nat.succ_eq_add_one, Nat.add_zero]

theorem classPaths_nestedSchema (depth : Nat) :
    memberClassPaths [] (nestedSchema depth).entries = (List.range (depth + 1)).map fun d =>
      "Root" :: (List.range d).map fun i => "Level" ++ toString i := by
  rw [nestedSchema, memberClassPaths, memberClassPaths, List.append_nil,
    classPaths_nestedTree 0 depth rfl]
  exact List.map_congr_left fun d _ => by rw [Nat.zero_add, typeName_levelPath]

theorem classPaths_fanoutSchema (n : Nat) :
    memberClassPaths [] (fanoutSchema n).entries =
      ["Shared"] :: (List.range n).map fun i => ["Holder" ++ toString i] := by
  have hnames : typeName "shared" = "Shared" ∧ typeName "holder" = "Holder" := by decide
  have hshared : sharedTree.classPaths [] "shared" = [[typeName "shared"]] := rfl
  have hholder : ∀ i, holderTree.classPaths [] (indexed "holder" i) = [["Holder" ++ toString i]] :=
    fun i => by
      rw [← hnames.2, ← isBase_holder.typeName_indexed]
      rfl
  rw [memberClassPaths_eq, fanoutSchema, placesIn, List.map_cons, List.map_map, List.flatMap_cons,
    List.flatMap_map, List.map_eq_flatMap]
  simp only [Place.classPaths, Function.comp_apply, hshared, hholder, hnames.1,
    List.singleton_append]

/-- No object that refers to the shared one has its class. -/
theorem filter_shared (n : Nat) :
    (["Shared"] :: (List.range n).map fun i => ["Holder" ++ toString i]).filter
      (fun path => path.getLast? = some "Shared") = [["Shared"]] := by
  have hothers : ∀ i : Nat, "Holder" ++ toString i ≠ "Shared" := fun i hi => by
    have hdigits : digits "Holder" = [] ∧ digits "Shared" = [] := by decide
    have hindex := congrArg digits hi
    rw [digits_append, hdigits.1, hdigits.2, digits_toString, List.nil_append] at hindex
    exact Cpp.toList_toString_ne_nil i hindex
  rw [List.filter_cons_of_pos (by decide), List.filter_eq_nil_iff.mpr]
  intro path hpath hlast
  obtain ⟨i, -, rfl⟩ := List.mem_map.mp hpath
  exact hothers i (Option.some.inj (of_decide_eq_true hlast))

/-! ## Code of the samples -/

/-- Whether a value is read as a schema that gives code under all options, with a header of lines
that `P` holds of. -/
def GivesHeader (v : Value) (P : Options → List String → Prop) : Prop :=
  ∃ s, Schema.ofJson v = .ok s ∧ ∀ o : Options, ∃ units,
    generateUnits o.target s = .ok units ∧ generate o s = .ok (layout o units) ∧
      P o (headerLines o (units.map fun unit => unit.2.fragment))

theorem givesHeader {v : Value} {s : Schema} {P : Options → List String → Prop}
    (hread : Schema.ofJson v = .ok s) (hs : s.Admissible)
    (h : ∀ o lines, Outline.start.Shows lines (memberClassPaths [] s.entries)
      (memberDataLines o.namespaces [] s.settled.entries) → P o lines) : GivesHeader v P := by
  refine ⟨s, hread, fun o => ⟨_, generateUnits_ok_iff.mpr ⟨hs, rfl⟩,
    generate_ok_iff.mpr ⟨hs, rfl⟩, h o _ ?_⟩⟩
  have hshows := shows_header (o := o) hs.settled.1
  rw [Schema.settled, memberClassPaths_settleMembers] at hshows
  exact hshows

/-- **Samples of every size.** Each sample is read and gives code under all options. The header of a
wide schema has one class, whose data members come in the order of their indices. That of a nested
schema has, for every depth, one class inside those of smaller depth. That of a fan-out has the
shared class, which one line opens, and one class for every object that refers to it. -/
theorem samples_of_every_size_generate (n : Nat) :
    GivesHeader (wide n) (fun o lines =>
      Outline.start.classOpenings lines = [["Root"]] ∧
        (Outline.start.memberLines lines).map (fun entry => (entry.1.around, entry.2)) =
          (List.range n).map fun i => (["Root"],
            dataMember o.namespaces ⟨["Root"], "Field" ++ toString i⟩ (indexed "field" i))) ∧
    GivesHeader (nested n) (fun _ lines =>
      Outline.start.classOpenings lines = (List.range (n + 1)).map fun depth =>
        "Root" :: (List.range depth).map fun i => "Level" ++ toString i) ∧
    GivesHeader (fanout n) (fun _ lines =>
      Outline.start.classOpenings lines =
        ["Shared"] :: (List.range n).map (fun i => ["Holder" ++ toString i]) ∧
      (lines.filter fun line => bare line = "class Shared \x7b").length = 1) := by
  refine ⟨givesHeader (ofJson_wide n) (admissible_wide n) fun o lines hshows => ?_,
    givesHeader (ofJson_nested n) (admissible_nested n) fun o lines hshows => ?_,
    givesHeader (ofJson_fanout n) (admissible_fanout n) fun o lines hshows => ?_⟩
  · rw [classPaths_wideSchema, dataLines_wideSchema] at hshows
    exact ⟨hshows.classes, hshows.members⟩
  · rw [hshows.classes, classPaths_nestedSchema]
  · rw [classPaths_fanoutSchema] at hshows
    have hblank : ' ' ∉ "Shared".toList := by decide
    refine ⟨hshows.classes, (length_filter_opens hblank Outline.start lines).trans ?_⟩
    rw [hshows.classes, filter_shared]
    rfl

end ConfigForge.Sample
