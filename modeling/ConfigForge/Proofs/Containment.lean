import ConfigForge.Proofs.Spelling
import ConfigForge.Proofs.Visits
import ConfigForge.Proofs.WalkOrder
import Mathlib.Order.WellFounded

/-!
# Containment

A class holds its data members, a vector holds its items, and a reference stands for the type that it
yields. References lead back in the order of the walk, to the innermost object that is spelled like
them. So no type holds itself, directly or through other types.

Results:

* `exists_innermost`: the type that a reference yields.
* `Schema.HasPart.exists_child`: the parts of a type are what the nodes below its node provide.
* `references_innermost_and_parts_wellFounded`: references lead to the innermost object that is
  spelled like them and over before, and holding is well-founded.
-/

namespace ConfigForge

open Emit (Target)

/-- Whether an object stands at the position `earlier` and is over before `position` is reached. -/
def Schema.OverBefore (s : Schema) (position earlier : List Nat) (o : Place) : Prop :=
  s.at? earlier = some o ∧ o.node.isObject = true ∧ Before earlier position

/-- Whether the type `whole` directly holds the type `part`, as a data member of its class or as the
item of its vector. -/
def Schema.HasPart (target : Target) (s : Schema) (whole part : QualifiedName) : Prop :=
  ∃ position i, s.yields? target position = some whole ∧
    s.yields? target (position ++ [i]) = some part

/-- Whether the type `whole` holds the type `part`, directly or in one of its parts. -/
def Schema.Holds (target : Target) (s : Schema) : QualifiedName → QualifiedName → Prop :=
  Relation.TransGen (s.HasPart target)

variable {target : Target} {s : Schema} {units : Entries CodeUnit} {position : List Nat} {p : Place}

/-! ## The types that nodes yield -/

theorem yields?_of_not_reference (h : generateUnits target s = .ok units)
    (hp : s.at? position = some p) (href : p.node.isReference = false) :
    s.yields? target position = some p.type := by
  obtain ⟨m, -, -, hsettled, -⟩ := exists_visit h hp
  have hsettle : (p.settle m.done).node.isReference = false := by
    rw [Place.settle, Node.isReference_settle, href]
  rw [yields?_eq h hp, hsettled, Option.map_some, Place.provided_of_not_reference hsettle]
  rfl

/-- **The innermost object.** A reference yields the type of the object that has as many of the names
around the reference as possible, followed by the names that the reference spells. -/
theorem exists_innermost (h : generateUnits target s = .ok units) (hp : s.at? position = some p)
    {r : Reference} (hr : p.node = .reference r) :
    ∃ d ≤ p.around.length, ∃ earlier o, s.OverBefore position earlier o ∧
      o.path = p.around.take d ++ r.names ∧ s.yields? target position = some o.type ∧
      ∀ d' earlier' o', d < d' → d' ≤ p.around.length → s.OverBefore position earlier' o' →
        o'.path ≠ p.around.take d' ++ r.names := by
  obtain ⟨hs, -⟩ := generateUnits_ok_iff.mp h
  obtain ⟨m, -, ⟨result, hwalked⟩, hsettled, hcomplete⟩ := exists_visit h hp
  have hdone : ∀ path, path ∈ m.done ↔ ∃ earlier o, s.OverBefore position earlier o ∧
      o.path = path := by
    intro path
    rw [← show _ = (path ∈ m.done) from congrFun hcomplete path]
    constructor
    · rintro (hnone | ⟨earlier, o, ho, hobject, hbefore, hpath⟩)
      · cases hnone
      · exact ⟨earlier, o, ⟨ho, hobject, hbefore⟩, hpath⟩
    · rintro ⟨earlier, o, ⟨ho, hobject, hbefore⟩, hpath⟩
      exact .inr ⟨earlier, o, ho, hobject, hbefore, hpath⟩
  have hspelled : Spelled m.done := by
    intro path hpath
    obtain ⟨earlier, o, ⟨ho, -, -⟩, rfl⟩ := (hdone path).mp hpath
    exact ⟨List.append_ne_nil_of_right_ne_nil _ (List.cons_ne_nil _ _), hs.dotFree_path ⟨_, ho⟩⟩
  obtain ⟨path, hmeant⟩ : ∃ path, r.meant? m.done p.around = some path := by
    rw [hr, Moment.context, walkNode_reference] at hwalked
    cases hmeant : r.meant? m.done p.around with
    | none => rw [hmeant] at hwalked; cases hwalked
    | some path => exact ⟨path, rfl⟩
  obtain ⟨d, hd, hpath, hmem, hinner⟩ :=
    (meant?_eq_some_iff hspelled (hs.dotFree_around ⟨_, hp⟩)).mp hmeant
  obtain ⟨earlier, o, hover, rfl⟩ := (hdone path).mp hmem
  refine ⟨d, hd, earlier, o, hover, hpath, ?_, ?_⟩
  · rw [yields?_eq h hp, hsettled, Option.map_some, Place.provided, Place.settle, hr, Node.settle,
      settle_of_meant? hmeant, Node.provided, Place.ofPath_path]
  · intro d' earlier' o' hlt hle hover' hpath'
    exact hinner d' hlt hle ((hdone _).mpr ⟨earlier', o', hover', hpath'⟩)

/-! ## Parts -/

theorem Place.at?_append (p : Place) (position rest : List Nat) :
    p.at? (position ++ rest) = (p.at? position).bind fun q => q.at? rest := by
  induction position generalizing p with
  | nil => rfl
  | cons i position ih =>
    rw [List.cons_append, Place.at?, Place.at?, Option.bind_assoc]
    exact Option.bind_congr fun c _ => ih c

theorem Schema.at?_append {t : Schema} {position : List Nat} {q : Place}
    (hq : t.at? position = some q) (rest : List Nat) :
    t.at? (position ++ rest) = q.at? rest := by
  cases position with
  | nil => cases hq
  | cons i position =>
    obtain ⟨root, hroot, hq⟩ := Option.bind_eq_some_iff.mp hq
    rw [Schema.at?, List.cons_append, placeAt?, hroot, Option.bind_some, Place.at?_append, hq]
    rfl

theorem exists_of_yields? (h : generateUnits target s = .ok units) {type : QualifiedName}
    (htype : s.yields? target position = some type) :
    ∃ p, s.settled.at? position = some p ∧ p.provided = type := by
  obtain ⟨ctx, -, hrest⟩ := Option.bind_eq_some_iff.mp htype
  obtain ⟨q, hq, -⟩ := Option.bind_eq_some_iff.mp hrest
  rw [yields?_eq h hq] at htype
  exact Option.map_eq_some_iff.mp htype

/-- The parts of a type are what the nodes directly below its node provide. -/
theorem Schema.HasPart.exists_child (h : generateUnits target s = .ok units)
    {whole part : QualifiedName} (hpart : s.HasPart target whole part) :
    ∃ p c, s.settled.Has p ∧ p.node.isReference = false ∧ p.type = whole ∧ c ∈ p.children ∧
      c.provided = part := by
  obtain ⟨position, i, hwhole, hpart⟩ := hpart
  obtain ⟨p, hp, hwhole⟩ := exists_of_yields? h hwhole
  obtain ⟨c, hc, hpart⟩ := exists_of_yields? h hpart
  rw [Schema.at?_append hp, Place.at?] at hc
  obtain ⟨c', hchild, hc⟩ := Option.bind_eq_some_iff.mp hc
  obtain rfl := Option.some.inj hc
  have hmem := List.mem_of_getElem? hchild
  have href : p.node.isReference = false := by
    cases hnode : p.node with
    | reference r => rw [Place.children, hnode] at hmem; cases hmem
    | _ => rfl
  exact ⟨p, c', ⟨position, hp⟩, href, (Place.provided_of_not_reference href).symm.trans hwhole,
    hmem, hpart⟩

/-- Every chain of parts ends. -/
theorem wellFounded_hasPart (h : generateUnits target s = .ok units) :
    WellFounded fun part whole => s.HasPart target whole part := by
  obtain ⟨ht, hrefs⟩ := (generateUnits_ok_iff.mp h).1.settled
  have hacc : ∀ p, s.settled.Has p →
      Acc (fun part whole => s.HasPart target whole part) p.provided := by
    intro p hp
    refine ht.induction_in_order (P := fun p => Acc _ p.provided) hrefs ?_ hp
    intro p hp hbelow hobject
    by_cases href : p.node.isReference = true
    · obtain ⟨r, hr⟩ := Node.exists_of_isReference href
      obtain ⟨o, -, ho, hpath, hacc⟩ := hobject r hr
      rw [Place.provided_eq_of_path hr ho hpath]
      exact hacc
    · rw [Bool.not_eq_true] at href
      refine Acc.intro _ fun part hpart => ?_
      obtain ⟨p', c, hp', href', htype, hc, rfl⟩ := hpart.exists_child h
      rw [Place.provided_of_not_reference href] at htype
      obtain rfl := ht.eq_of_type_eq hp' hp href' href htype
      exact hbelow c hc
  refine ⟨fun whole => Acc.intro _ fun part hpart => ?_⟩
  obtain ⟨p, c, hp, -, -, hc, rfl⟩ := hpart.exists_child h
  exact hacc c (hp.child hc)

/-! ## References and containment -/

/-- **References lead back, and holding is well-founded.** In a run that succeeds, a node that is no
reference yields the type declared for it. A reference yields the type of the object whose path is
made of as many of the names around the reference as possible and of the names it spells, among the
objects that are over before the reference; the only node of this type stands neither around the
reference nor behind it. No type holds itself, directly or through its parts. -/
theorem references_innermost_and_parts_wellFounded (h : generateUnits target s = .ok units) :
    (∀ position p, s.at? position = some p → p.node.isReference = false →
      s.yields? target position = some p.type) ∧
    (∀ position p r, s.at? position = some p → p.node = .reference r →
      ∃ d ≤ p.around.length, ∃ earlier o, s.OverBefore position earlier o ∧
        o.path = p.around.take d ++ r.names ∧ s.yields? target position = some o.type ∧
        (∀ d' earlier' o', d < d' → d' ≤ p.around.length → s.OverBefore position earlier' o' →
          o'.path ≠ p.around.take d' ++ r.names) ∧
        ∀ other o', s.at? other = some o' → o'.node.isReference = false → o'.type = o.type →
          other = earlier ∧ ¬ other <+: position ∧ ¬ Before position other) ∧
    WellFounded (fun part whole => s.Holds target whole part) ∧
    ∀ type, ¬ s.Holds target type type := by
  obtain ⟨hs, -⟩ := generateUnits_ok_iff.mp h
  have hwf : WellFounded fun part whole => s.Holds target whole part := by
    have hswap : (fun part whole => s.Holds target whole part) =
        Relation.TransGen fun part whole => s.HasPart target whole part := by
      funext part whole
      exact propext Relation.transGen_swap.symm
    rw [hswap]
    exact (wellFounded_hasPart h).transGen
  refine ⟨fun position p hp href => yields?_of_not_reference h hp href, ?_, hwf, ?_⟩
  · intro position p r hp hr
    obtain ⟨d, hd, earlier, o, hover, hpath, hyields, hinner⟩ := exists_innermost h hp hr
    refine ⟨d, hd, earlier, o, hover, hpath, hyields, hinner, ?_⟩
    intro other o' ho' href htype
    obtain ⟨ho, hobject, hbefore⟩ := hover
    obtain rfl := hs.position_eq ho' ho href (Node.isReference_of_isObject hobject) htype
    exact ⟨rfl, hbefore.not_isPrefix, hbefore.asymm⟩
  · intro type hself
    exact hwf.irrefl.irrefl type hself

/-- A schema where a reference is spelled like an object around it and like one beside it. -/
def shadowExample : Schema :=
  ⟨[("point", .object [("x", .scalar (.bool none))]),
    ("path", .object [("point", .object [("y", .scalar (.bool none))]),
      ("steps", .array (.reference ⟨["point"]⟩) ⟨none, none⟩)])]⟩

theorem shadowExample_inner_point :
    ∃ units, generateUnits Options.default.target shadowExample = .ok units ∧
      shadowExample.yields? Options.default.target [1, 1, 0] =
        some (QualifiedName.ofPath ["path", "point"]) ∧
      ¬ shadowExample.Holds Options.default.target (.ofPath ["path"]) (.ofPath ["path"]) := by
  obtain ⟨units, h⟩ := Schema.generates_of_toBool
    (show (generateUnits Options.default.target shadowExample).toBool = true by decide)
  obtain ⟨-, hrefs, -, hself⟩ := references_innermost_and_parts_wellFounded h
  refine ⟨units, h, ?_, hself _⟩
  obtain ⟨d, hd, earlier, o, -, hpath, hyields, hinner, -⟩ :=
    hrefs [1, 1, 0] ⟨["path"], "steps_element", .reference ⟨["point"]⟩⟩ ⟨["point"]⟩ rfl rfl
  have hnames : Reference.names ⟨["point"]⟩ = ["point"] := by decide
  have hlength : d ≤ 1 := hd
  have hone : ¬ d < 1 := by
    intro hlt
    refine hinner 1 [1, 0] ⟨["path"], "point", .object [("y", .scalar (.bool none))]⟩ hlt
      (Nat.le_refl 1) ⟨rfl, rfl, .inr ⟨rfl, .inl (by decide)⟩⟩ ?_
    rw [hnames]
    rfl
  obtain rfl : d = 1 := by omega
  rw [hyields, ← Place.ofPath_path, hpath, hnames]
  rfl

end ConfigForge
