import ConfigForge.Proofs.Admissible

/-!
# Names in class scopes

Four sources of names meet in the scope of a generated class: its own name, the members that every
class has, the types nested in it with their helpers, and its data members. A walk refuses most
clashes between them. One clash goes through: the scope of a class starts with the members of every
class and with the name of the class taken, whether or not these are the same name.

Results:

* `identifiers_of_mem_memberTypes`: the names of a type nested in a class are declared there.
* `Schema.Admissible.eq_of_type_eq`: a type belongs to one node.
* `class_identifiers_nodup_iff`: the names in a class differ, unless the class stands in the target
  namespace and is called like one of its own methods.
* `class_called_toString`: a class whose constructor and method share one name.
-/

namespace ConfigForge

open Emit

theorem Schema.generates_of_toBool {target : Target} {s : Schema}
    (h : (generateUnits target s).toBool = true) : ∃ units, generateUnits target s = .ok units := by
  cases hunits : generateUnits target s with
  | ok units => exact ⟨units, rfl⟩
  | error e => rw [hunits] at h; cases h

/-! ## Types nested in a class -/

/-- The names of a type nested in a class are declared in the class. -/
theorem identifiers_of_mem_memberTypes {members : List (String × Node)} {type x : String}
    (htype : type ∈ memberTypes members) (hx : x ∈ typeNames type) :
    x ∈ memberIdentifiers members := by
  obtain ⟨m, hm, htype⟩ := List.mem_flatMap.mp htype
  refine List.mem_flatMap.mpr ⟨m, hm, List.mem_append_left _ ?_⟩
  exact List.mem_flatMap.mpr ⟨type, htype, hx⟩

/-- A class nested in another class has none of the names that every class declares, and neither has
it the name of a class around it. -/
theorem Schema.Admissible.nested_type_not_taken {s : Schema} (hs : s.Admissible) {p : Place}
    (hp : s.Has p) (href : p.node.isReference = false) (haround : p.around ≠ []) :
    p.type.name ∉ classMemberNames ∧ p.type.name ∉ p.scope := by
  rcases hp.enclosing with houter | ⟨o, members, ho, hnode, hmember⟩
  · exact absurd (around_of_mem_membersWithItems houter) haround
  · have hdeclared : p.type.name ∈ memberIdentifiers members :=
      identifiers_of_mem_memberTypes (type_mem_memberTypes hmember href) (typeName_mem_typeNames _)
    have hfree := (hs.classes o members ho hnode).2 _ hdeclared
    rw [List.mem_append, List.mem_append, not_or, not_or] at hfree
    obtain ⟨⟨hclass, hscope⟩, hname⟩ := hfree
    refine ⟨hclass, ?_⟩
    rw [scope_of_mem_membersWithItems hmember, Place.classPath, List.mem_append, not_or]
    exact ⟨hscope, hname⟩

/-- **A type belongs to one node.** -/
theorem Schema.Admissible.eq_of_type_eq {s : Schema} (hs : s.Admissible) {p q : Place}
    (hp : s.Has p) (hq : s.Has q) (hpref : p.node.isReference = false)
    (hqref : q.node.isReference = false) (h : p.type = q.type) : p = q := by
  have hscope : p.scope = q.scope := congrArg QualifiedName.scope h
  have hname : p.type.name = q.type.name := congrArg QualifiedName.name h
  -- By the number of objects around: the two nodes stand in the class of the same object.
  induction hn : p.around.length using Nat.strongRecOn generalizing p q with
  | ind n ih =>
    rcases hp.enclosing with hpo | ⟨o, members, ho, hnode, hpm⟩ <;>
      rcases hq.enclosing with hqo | ⟨o', members', ho', hnode', hqm⟩
    · exact eq_of_type_name_eq (hs.outermost.sublist s.types_sublist) hpo hqo hpref hqref hname
    · rw [scope_eq_nil_of_mem_membersWithItems hpo, scope_of_mem_membersWithItems hqm] at hscope
      exact absurd hscope.symm o'.classPath_ne_nil
    · rw [scope_of_mem_membersWithItems hpm, scope_eq_nil_of_mem_membersWithItems hqo] at hscope
      exact absurd hscope o.classPath_ne_nil
    · rw [scope_of_mem_membersWithItems hpm, scope_of_mem_membersWithItems hqm] at hscope
      have hlength : o.around.length < n := by
        rw [← hn, around_of_mem_membersWithItems hpm, Place.path, List.length_append]
        exact Nat.lt_succ_self _
      have htype := Place.type_eq_of_classPath_eq hscope
      obtain rfl : o = o' :=
        ih _ hlength ho ho' (by rw [hnode]; rfl) (by rw [hnode']; rfl) htype
          (congrArg QualifiedName.scope htype) (congrArg QualifiedName.name htype) rfl
      obtain rfl : members = members' := Node.object.inj (hnode.symm.trans hnode')
      have hnodup := (hs.classes o members ho hnode).1.sublist (memberTypes_sublist members)
      exact eq_of_type_name_eq hnodup hpm hqm hpref hqref hname

/-! ## The names in a class -/

/-- **Names in a class.** In every class of a schema that gives code, the name of the class, the
members of every class, the nested types with their helpers, and the data members all differ, unless
the class stands in the target namespace and has the name of a member of every class. What a class
declares never has the name of a class around it. In the target namespace all names differ. -/
theorem class_identifiers_nodup_iff {target : Target} {s : Schema} {units : Entries CodeUnit}
    (h : generateUnits target s = .ok units) :
    s.identifiers.Nodup ∧
      ∀ p members, s.Has p → p.node = .object members →
        (∀ x ∈ memberIdentifiers members, x ∉ p.scope) ∧
        ((p.type.name :: classMemberNames ++ memberIdentifiers members).Nodup ↔
          ¬ (p.around = [] ∧ p.type.name ∈ classMemberNames)) := by
  obtain ⟨hs, -⟩ := generateUnits_ok_iff.mp h
  refine ⟨hs.outermost, fun p members hp hnode => ?_⟩
  obtain ⟨hnodup, hfree⟩ := hs.classes p members hp hnode
  have hclass : ∀ x ∈ memberIdentifiers members, x ∉ classMemberNames := fun x hx hx' =>
    hfree x hx (List.mem_append_left _ (List.mem_append_left _ hx'))
  have hself : p.type.name ∉ memberIdentifiers members := fun hx =>
    hfree _ hx (List.mem_append_right _ List.mem_cons_self)
  refine ⟨fun x hx hx' => hfree x hx (List.mem_append_left _ (List.mem_append_right _ hx')), ?_⟩
  rw [List.cons_append, List.nodup_cons, List.mem_append, not_or]
  constructor
  · rintro ⟨⟨hname, -⟩, -⟩ ⟨-, hmem⟩
    exact hname hmem
  · intro hno
    have hname : p.type.name ∉ classMemberNames := by
      intro hmem
      have haround : p.around ≠ [] := fun hnil => hno ⟨hnil, hmem⟩
      exact (hs.nested_type_not_taken hp (by rw [hnode]; rfl) haround).1 hmem
    refine ⟨⟨hname, hself⟩, List.nodup_append.mpr ⟨by decide, hnodup, ?_⟩⟩
    rintro x hx y hy rfl
    exact hclass x hy hx

/-- A schema with a class inside a class, an array of objects, and a member that is a reference. -/
def nestedExample : Schema :=
  ⟨[("point", .object [("x", .scalar (.bool none))]),
    ("path", .object [("start", .reference ⟨["point"]⟩),
      ("steps", .array (.object [("to", .reference ⟨["point"]⟩)]) ⟨none, none⟩)])]⟩

theorem nestedExample_identifiers_nodup :
    ∃ units, generateUnits Options.default.target nestedExample = .ok units ∧
      ("StepsElement" :: classMemberNames ++
        memberIdentifiers [("to", .reference ⟨["point"]⟩)]).Nodup := by
  obtain ⟨units, h⟩ := Schema.generates_of_toBool
    (show (generateUnits Options.default.target nestedExample).toBool = true by decide)
  refine ⟨units, h, ?_⟩
  have hplace : nestedExample.Has
      ⟨["path"], "steps_element", .object [("to", .reference ⟨["point"]⟩)]⟩ := ⟨[1, 1, 0], rfl⟩
  have hnames := ((class_identifiers_nodup_iff h).2 _ _ hplace rfl).2.mpr (by simp)
  have htype : typeName "steps_element" = "StepsElement" := by decide
  rw [← htype]
  exact hnames

/-- An object called `to_string` gives a class whose own name is that of a method. -/
theorem class_called_toString :
    ∃ units p members, generateUnits Options.default.target ⟨[("to_string", .object [])]⟩ =
        .ok units ∧
      (⟨[("to_string", .object [])]⟩ : Schema).Has p ∧ p.node = .object members ∧
      ¬ (p.type.name :: classMemberNames ++ memberIdentifiers members).Nodup := by
  obtain ⟨units, h⟩ := Schema.generates_of_toBool
    (show (generateUnits Options.default.target ⟨[("to_string", .object [])]⟩).toBool = true by
      decide)
  refine ⟨units, ⟨[], "to_string", .object []⟩, [], h, ⟨[0], rfl⟩, rfl, ?_⟩
  have htype : typeName "to_string" = "ToString" := by decide
  change ¬ (typeName "to_string" :: classMemberNames ++ memberIdentifiers []).Nodup
  rw [htype]
  decide

end ConfigForge
