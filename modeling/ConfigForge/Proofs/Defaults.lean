import ConfigForge.Proofs.CompletionOrder
import ConfigForge.Proofs.HeaderOrder
import Mathlib.Data.List.Forall2

/-!
# Schemas without their defaults

The default of a scalar takes part in the check of the limits and in the value that `Init` assigns,
and in nothing else. To say so, defaults are taken out of a schema: what does not depend on them is
the same before and after.

Results:

* `admissible_withoutDefaults_iff`: apart from the check of the limits, whether a schema gives code
  does not depend on defaults.
* `settled_withoutDefaults`: neither does what references mean.
* `headerLines_withoutDefaults`: neither does the header.
* `Place.functionLines_withoutDefaults`: neither do the functions of a node that is no scalar.
* `Schema.forall₂_postorder`: schemas that differ in defaults only have their nodes at the same
  positions, in the same order.
-/

namespace ConfigForge

open Code (Line Placement Fragment PlacedFragment)
open Emit Cpp

/-! ## Taking defaults out -/

/-- A scalar without its default. -/
def Scalar.withoutDefault : Scalar → Scalar
  | .bool _ => .bool none
  | .integer limits => .integer { limits with default := none }
  | .number limits => .number { limits with default := none }
  | .string _ => .string none

mutual

/-- A node without the defaults in it. -/
def Node.withoutDefaults : Node → Node
  | .scalar s => .scalar s.withoutDefault
  | .object members => .object (membersWithoutDefaults members)
  | .array item bounds => .array item.withoutDefaults bounds
  | .reference r => .reference r

/-- Named nodes without the defaults in them. -/
def membersWithoutDefaults : List (String × Node) → List (String × Node)
  | [] => []
  | (name, node) :: rest => (name, node.withoutDefaults) :: membersWithoutDefaults rest

end

/-- A schema without its defaults. -/
def Schema.withoutDefaults (s : Schema) : Schema :=
  ⟨membersWithoutDefaults s.entries⟩

/-- A place without the defaults in its node. -/
def Place.withoutDefaults (p : Place) : Place :=
  ⟨p.around, p.name, p.node.withoutDefaults⟩

theorem membersWithoutDefaults_eq (members : List (String × Node)) :
    membersWithoutDefaults members = members.map fun m => (m.1, m.2.withoutDefaults) := by
  induction members with
  | nil => rfl
  | cons m rest ih => rw [membersWithoutDefaults, ih]; rfl

/-! ## Places -/

theorem placesIn_withoutDefaults (around : List String) (members : List (String × Node)) :
    placesIn around (membersWithoutDefaults members) =
      (placesIn around members).map Place.withoutDefaults := by
  rw [membersWithoutDefaults_eq, placesIn, placesIn, List.map_map, List.map_map]
  rfl

theorem Place.children_withoutDefaults (p : Place) :
    p.withoutDefaults.children = p.children.map Place.withoutDefaults := by
  obtain ⟨around, name, node⟩ := p
  cases node with
  | object members => exact placesIn_withoutDefaults (around ++ [name]) members
  | _ => rfl

theorem Node.isReference_withoutDefaults (node : Node) :
    node.withoutDefaults.isReference = node.isReference := by
  cases node <;> rfl

theorem Node.types_withoutDefaults (name : String) (node : Node) :
    node.withoutDefaults.types name = node.types name := by
  induction node using Node.induction generalizing name with
  | array item bounds ih => rw [Node.withoutDefaults, Node.types, Node.types, ih]
  | _ => rfl

theorem Node.identifiers_withoutDefaults (name : String) (node : Node) :
    node.withoutDefaults.identifiers name = node.identifiers name := by
  rw [Node.identifiers, Node.types_withoutDefaults, Node.identifiers]

theorem memberIdentifiers_withoutDefaults (members : List (String × Node)) :
    memberIdentifiers (membersWithoutDefaults members) = memberIdentifiers members := by
  rw [membersWithoutDefaults_eq, memberIdentifiers, List.flatMap_map, memberIdentifiers]
  simp only [Node.identifiers_withoutDefaults]

theorem Schema.identifiers_withoutDefaults (s : Schema) :
    s.withoutDefaults.identifiers = s.identifiers := by
  rw [Schema.identifiers, Schema.withoutDefaults, membersWithoutDefaults_eq, List.flatMap_map,
    Schema.identifiers]
  simp only [Node.identifiers_withoutDefaults]

/-! ## References -/

mutual

theorem Node.completed_withoutDefaults (around : List String) (name : String) : ∀ node : Node,
    node.withoutDefaults.completed around name = node.completed around name
  | .scalar _ => rfl
  | .object members => by
    rw [Node.withoutDefaults, Node.completed, Node.completed, completedMembers_withoutDefaults]
  | .array item bounds => by
    rw [Node.withoutDefaults, Node.completed, Node.completed,
      Node.completed_withoutDefaults around _ item]
  | .reference _ => rfl

theorem completedMembers_withoutDefaults (around : List String) :
    ∀ members : List (String × Node),
      completedMembers around (membersWithoutDefaults members) = completedMembers around members
  | [] => rfl
  | (name, node) :: rest => by
    rw [membersWithoutDefaults, completedMembers, completedMembers,
      Node.completed_withoutDefaults around name node, completedMembers_withoutDefaults around rest]

end

mutual

theorem Node.settle_withoutDefaults (done : List (List String)) (around : List String)
    (name : String) : ∀ node : Node,
    node.withoutDefaults.settle done around name = (node.settle done around name).withoutDefaults
  | .scalar _ => rfl
  | .object members => by
    rw [Node.withoutDefaults, Node.settle, Node.settle, Node.withoutDefaults,
      settleMembers_withoutDefaults]
  | .array item bounds => by
    rw [Node.withoutDefaults, Node.settle, Node.settle, Node.withoutDefaults,
      Node.settle_withoutDefaults done around _ item]
  | .reference _ => rfl

theorem settleMembers_withoutDefaults (done : List (List String)) (around : List String) :
    ∀ members : List (String × Node),
      settleMembers done around (membersWithoutDefaults members) =
        membersWithoutDefaults (settleMembers done around members)
  | [] => rfl
  | (name, node) :: rest => by
    rw [membersWithoutDefaults, settleMembers, settleMembers, membersWithoutDefaults,
      Node.settle_withoutDefaults done around name node, Node.completed_withoutDefaults,
      settleMembers_withoutDefaults _ around rest]

end

/-- What references mean does not depend on defaults. -/
theorem settled_withoutDefaults (s : Schema) :
    s.withoutDefaults.settled = s.settled.withoutDefaults :=
  congrArg Schema.mk (settleMembers_withoutDefaults [] [] s.entries)

mutual

theorem Node.eachReference_withoutDefaults
    (P : (List String → Prop) → List String → Reference → Prop) (done : List (List String))
    (around : List String) (name : String) : ∀ node : Node,
    node.withoutDefaults.EachReference P done around name = node.EachReference P done around name
  | .scalar _ => rfl
  | .object members => by
    rw [Node.withoutDefaults, Node.EachReference, Node.EachReference,
      eachReferenceIn_withoutDefaults]
  | .array item bounds => by
    rw [Node.withoutDefaults, Node.EachReference, Node.EachReference,
      Node.eachReference_withoutDefaults P done around _ item]
  | .reference _ => rfl

theorem eachReferenceIn_withoutDefaults
    (P : (List String → Prop) → List String → Reference → Prop) (done : List (List String))
    (around : List String) : ∀ members : List (String × Node),
    EachReferenceIn P done around (membersWithoutDefaults members) =
      EachReferenceIn P done around members
  | [] => rfl
  | (name, node) :: rest => by
    rw [membersWithoutDefaults, EachReferenceIn, EachReferenceIn,
      Node.eachReference_withoutDefaults P done around name node, Node.completed_withoutDefaults,
      eachReferenceIn_withoutDefaults P _ around rest]

end

/-! ## Admissible schemas -/

theorem Scalar.fault?_withoutDefault {s : Scalar} (h : s.fault? = none) :
    s.withoutDefault.fault? = none := by
  cases s with
  | integer limits =>
    simp only [Scalar.fault?, Limits.integerFault?, Option.or_eq_none_iff] at h
    simp only [withoutDefault, fault?, Limits.integerFault?, Option.or_eq_none_iff]
    exact ⟨h.1, h.2.1, rfl⟩
  | number limits =>
    simp only [Scalar.fault?, Limits.numberFault?, Option.or_eq_none_iff] at h
    simp only [withoutDefault, fault?, Limits.numberFault?, Option.or_eq_none_iff]
    exact ⟨h.1, rfl⟩
  | bool value => rfl
  | string value => rfl

mutual

/-- Limits that are consistent stay so without the defaults. -/
theorem Node.check_withoutDefaults {location : Location} : ∀ {node : Node},
    node.check location = .ok () → node.withoutDefaults.check location = .ok ()
  | .scalar s, h => by
    rw [Node.check_scalar] at h
    rw [Node.withoutDefaults, Node.check_scalar]
    cases hfault : s.fault? with
    | none => rw [Scalar.fault?_withoutDefault hfault]; rfl
    | some fault => rw [hfault] at h; cases h
  | .object members, h => Node.checkMembers_withoutDefaults h
  | .array item bounds, h => by
    rw [Node.check_array] at h
    rw [Node.withoutDefaults, Node.check_array]
    cases hfault : bounds.fault? with
    | none => rw [hfault] at h; exact Node.check_withoutDefaults h
    | some fault => rw [hfault] at h; cases h
  | .reference _, h => h

theorem Node.checkMembers_withoutDefaults {location : Location} :
    ∀ {members : List (String × Node)}, Node.checkMembers location members = .ok () →
      Node.checkMembers location (membersWithoutDefaults members) = .ok ()
  | [], h => h
  | (name, node) :: rest, h => by
    rw [Node.checkMembers, Except.bind_eq_ok_iff] at h
    obtain ⟨⟨⟩, hnode, hrest⟩ := h
    rw [membersWithoutDefaults, Node.checkMembers, Except.bind_eq_ok_iff]
    exact ⟨(), Node.check_withoutDefaults hnode, Node.checkMembers_withoutDefaults hrest⟩

end

theorem allNamesApart_withoutDefaults_iff {p : Place} :
    p.withoutDefaults.AllNamesApart ↔ p.AllNamesApart := by
  induction p using Place.induction with
  | step p ih =>
    obtain ⟨around, name, node⟩ := p
    cases node with
    | object members =>
      have hnames : (∀ m ∈ membersWithoutDefaults members, isMemberName m.1 = true) ↔
          ∀ m ∈ members, isMemberName m.1 = true := by
        rw [membersWithoutDefaults_eq, List.forall_mem_map]
      rw [Place.withoutDefaults, Node.withoutDefaults, allNamesApart_object, allNamesApart_object,
        hnames, memberIdentifiers_withoutDefaults, placesIn_withoutDefaults, List.forall_mem_map]
      exact and_congr Iff.rfl (forall₂_congr ih)
    | array item bounds =>
      rw [Place.withoutDefaults, Node.withoutDefaults, allNamesApart_array, allNamesApart_array]
      exact ih _ (List.mem_singleton.mpr rfl)
    | scalar s =>
      exact iff_of_true (allNamesApart_of_leaf rfl rfl) (allNamesApart_of_leaf rfl rfl)
    | reference r =>
      exact iff_of_true (allNamesApart_of_leaf rfl rfl) (allNamesApart_of_leaf rfl rfl)

/-- **When a schema gives code, without its defaults.** -/
theorem admissible_withoutDefaults_iff {s : Schema} (hcheck : s.check = .ok ()) :
    s.withoutDefaults.Admissible ↔ s.Admissible := by
  have hlimits : s.withoutDefaults.check = .ok () := Node.checkMembers_withoutDefaults hcheck
  have hentries : (∀ e ∈ s.withoutDefaults.entries,
      isIdentifier e.1 = true ∧ e.2.isReference = false) ↔
      ∀ e ∈ s.entries, isIdentifier e.1 = true ∧ e.2.isReference = false := by
    rw [Schema.withoutDefaults, membersWithoutDefaults_eq, List.forall_mem_map]
    simp only [Node.isReference_withoutDefaults]
  have hapart : (∀ p ∈ placesIn [] s.withoutDefaults.entries, p.AllNamesApart) ↔
      ∀ p ∈ placesIn [] s.entries, p.AllNamesApart := by
    rw [Schema.withoutDefaults, placesIn_withoutDefaults, List.forall_mem_map]
    simp only [allNamesApart_withoutDefaults_iff]
  have hrefs : EachReferenceIn Reference.Resolves [] [] s.withoutDefaults.entries =
      EachReferenceIn Reference.Resolves [] [] s.entries :=
    eachReferenceIn_withoutDefaults _ [] [] s.entries
  rw [admissible_iff, admissible_iff, hentries, hapart, hrefs, Schema.identifiers_withoutDefaults,
    hlimits, hcheck]

/-! ## The header -/

theorem Node.provided_withoutDefaults (around : List String) (name : String) (node : Node) :
    node.withoutDefaults.provided around name = node.provided around name := by
  cases node <;> rfl

/-- What the bodies and the data members of a class take from its members. -/
def Member.interface (m : Member) : Member :=
  ⟨m.name, Fragment.empty, m.emitted.name⟩

theorem map_interface_emitMembers (target : Target) (around : List String)
    (members : List (String × Node)) :
    (emitMembers target around (membersWithoutDefaults members)).map Member.interface =
      (emitMembers target around members).map Member.interface := by
  rw [membersWithoutDefaults_eq, emitMembers_eq, emitMembers_eq, List.map_map, List.map_map,
    List.map_map]
  refine List.map_congr_left fun m _ => ?_
  simp only [Function.comp_apply, Member.interface, Node.emit_name, Node.provided_withoutDefaults]

theorem classBodies_interface (target : Target) (members : List Member) :
    classBodies target (members.map Member.interface) = classBodies target members := by
  cases members with
  | nil => rfl
  | cons m rest =>
    simp [classBodies, dispatch, unusedValue, Function.comp_def, Member.interface, Member.owner,
      Member.pointer, Member.ofValue]

theorem methods_interface (target : Target) (rawName type : String) (members : List Member) :
    Emit.methods target rawName type (members.map Member.interface) =
      Emit.methods target rawName type members := by
  simp [Emit.methods, equalityBody, Function.comp_def, Member.interface]

theorem dataMembers_interface (target : Target) (type : String) (members : List Member) :
    dataMembers target type (members.map Member.interface) = dataMembers target type members := by
  rw [dataMembers, List.map_map]
  rfl

theorem classLines_congr {target : Target} {type : String} {members members' : List Member}
    (h : members.map Member.interface = members'.map Member.interface)
    {placed placed' : List PlacedFragment}
    (hforward : placed.flatMap PlacedFragment.forward = placed'.flatMap PlacedFragment.forward)
    (hdeclarations : placed.flatMap PlacedFragment.declarations =
      placed'.flatMap PlacedFragment.declarations) :
    classLines target type members placed = classLines target type members' placed' := by
  rw [classLines, classLines, hforward, hdeclarations, ← dataMembers_interface, h,
    dataMembers_interface]

/-- Defaults do not show in the declarations of a node. -/
theorem emit_withoutDefaults (target : Target) (around : List String) (name : String)
    (node : Node) :
    (node.withoutDefaults.emit target around name).fragment.forward =
        (node.emit target around name).fragment.forward ∧
      (node.withoutDefaults.emit target around name).fragment.declarations =
        (node.emit target around name).fragment.declarations := by
  induction node using Node.induction generalizing around name with
  | scalar s =>
    have hprimitive : s.withoutDefault.primitive = s.primitive := by cases s <;> rfl
    simp only [Node.withoutDefaults, Node.emit, aliasFragment, hprimitive, and_self]
  | reference r => simp only [Node.withoutDefaults, and_self]
  | array item bounds ih =>
    obtain ⟨hforward, hdeclarations⟩ := ih around (itemName name)
    simp only [Node.withoutDefaults, Node.emit, vectorFragment, Fragment.append, hforward,
      hdeclarations, Node.emit_name, Node.provided_withoutDefaults, and_self]
  | object members ih =>
    have hforward : (placedMembers target around name (membersWithoutDefaults members)).flatMap
        PlacedFragment.forward =
          (placedMembers target around name members).flatMap PlacedFragment.forward := by
      rw [placed_flatMap, placed_flatMap, membersWithoutDefaults_eq, List.flatMap_map]
      exact List.flatMap_congr fun m hm => congrArg (List.map _) (ih m hm _ m.1).1
    have hdeclarations : (placedMembers target around name (membersWithoutDefaults members)).flatMap
        PlacedFragment.declarations =
          (placedMembers target around name members).flatMap PlacedFragment.declarations := by
      rw [placed_flatMap, placed_flatMap, membersWithoutDefaults_eq, List.flatMap_map]
      exact List.flatMap_congr fun m hm => congrArg (List.map _) (ih m hm _ m.1).2
    have hclass : classLines target (typeName name)
        (emitMembers target (around ++ [name]) (membersWithoutDefaults members))
        (placedMembers target around name (membersWithoutDefaults members)) =
          classLines target (typeName name) (emitMembers target (around ++ [name]) members)
            (placedMembers target around name members) :=
      classLines_congr (map_interface_emitMembers target (around ++ [name]) members) hforward
        hdeclarations
    rw [placedMembers, placedMembers] at hclass
    simp only [Node.withoutDefaults, Node.emit, classFragment, hclass, and_self]

/-- **The header without defaults.** -/
theorem headerLines_withoutDefaults (o : Options) (t : Schema) :
    headerLines o ((t.withoutDefaults.entries.map (unitOf o.target)).map fun e => e.2.fragment) =
      headerLines o ((t.entries.map (unitOf o.target)).map fun e => e.2.fragment) := by
  have hemit := fun e : String × Node => emit_withoutDefaults o.target [] e.1 e.2
  rw [headerLines_eq, headerLines_eq, Schema.withoutDefaults, membersWithoutDefaults_eq,
    List.flatMap_map, List.flatMap_map]
  simp only [Fragment.place, hemit]

/-! ## Functions -/

section

variable (target : Target)

/-- The lines of the functions of a node. -/
def Place.functionLines (p : Place) : List String :=
  (p.functions target).flatMap GeneratedFunction.lines

theorem Place.methods_withoutDefaults (p : Place) :
    p.withoutDefaults.methods target = p.methods target := by
  obtain ⟨around, name, node⟩ := p
  cases node with
  | object members =>
    have hinterface := map_interface_emitMembers target (around ++ [name]) members
    simp only [withoutDefaults, Node.withoutDefaults, methods, path]
    rw [← methods_interface, hinterface, methods_interface]
    rfl
  | _ => rfl

theorem Place.bodies?_withoutDefaults {p : Place} (h : p.node.isScalar = false) :
    p.withoutDefaults.bodies? target = p.bodies? target := by
  obtain ⟨around, name, node⟩ := p
  cases node with
  | scalar s => cases h
  | object members =>
    have hinterface := map_interface_emitMembers target (around ++ [name]) members
    simp only [withoutDefaults, Node.withoutDefaults, bodies?, path]
    rw [← classBodies_interface, hinterface, classBodies_interface]
  | array item bounds =>
    simp only [withoutDefaults, Node.withoutDefaults, bodies?, Node.provided_withoutDefaults]
  | reference r => rfl

/-- Defaults do not show in the functions of a node that is no scalar. -/
theorem Place.functionLines_withoutDefaults {p : Place} (h : p.node.isScalar = false) :
    p.withoutDefaults.functionLines target = p.functionLines target := by
  rw [functionLines, functionLines, flatMap_functions_lines, flatMap_functions_lines,
    methods_withoutDefaults, bodies?_withoutDefaults target h]
  rfl

end

/-! ## Nodes at the same position -/

theorem Place.at?_withoutDefaults (p : Place) (position : List Nat) :
    p.withoutDefaults.at? position = (p.at? position).map Place.withoutDefaults := by
  induction position generalizing p with
  | nil => rfl
  | cons i rest ih =>
    rw [Place.at?, Place.at?, Place.children_withoutDefaults, List.getElem?_map]
    cases p.children[i]? with
    | none => rfl
    | some c => exact ih c

theorem Schema.at?_withoutDefaults (s : Schema) (position : List Nat) :
    s.withoutDefaults.at? position = (s.at? position).map Place.withoutDefaults := by
  cases position with
  | nil => rfl
  | cons i rest =>
    rw [Schema.at?, Schema.at?, placeAt?, placeAt?, Schema.withoutDefaults,
      placesIn_withoutDefaults, List.getElem?_map]
    cases (placesIn [] s.entries)[i]? with
    | none => rfl
    | some p => exact p.at?_withoutDefaults rest

/-- If the nodes of each two trees stand at the same positions, so do those of two lists of them. -/
theorem forall₂_postorder_forest {forest forest' : List Place}
    (h : forest.map Place.withoutDefaults = forest'.map Place.withoutDefaults)
    (htrees : ∀ p ∈ forest, ∀ p' : Place, p.withoutDefaults = p'.withoutDefaults →
      List.Forall₂ (fun q q' => ∃ position, p.at? position = some q ∧ p'.at? position = some q')
        p.postorder p'.postorder) :
    List.Forall₂ (fun q q' => ∃ position, placeAt? forest position = some q ∧
        placeAt? forest' position = some q')
      (forest.flatMap Place.postorder) (forest'.flatMap Place.postorder) := by
  induction forest generalizing forest' with
  | nil =>
    obtain rfl : forest' = [] := List.map_eq_nil_iff.mp h.symm
    exact .nil
  | cons p rest ih =>
    cases forest' with
    | nil => cases h
    | cons p' rest' =>
      obtain ⟨hp, hrest⟩ := List.cons.inj h
      obtain ⟨htree, htrees⟩ := List.forall_mem_cons.mp htrees
      rw [List.flatMap_cons, List.flatMap_cons]
      refine List.rel_append ((htree p' hp).imp ?_) ((ih hrest htrees).imp ?_)
      · rintro q q' ⟨position, hq, hq'⟩
        exact ⟨0 :: position, hq, hq'⟩
      · rintro q q' ⟨_ | ⟨i, position⟩, hq, hq'⟩
        · cases hq
        · exact ⟨(i + 1) :: position, hq, hq'⟩

theorem Place.forall₂_postorder {p p' : Place} (h : p.withoutDefaults = p'.withoutDefaults) :
    List.Forall₂ (fun q q' => ∃ position, p.at? position = some q ∧ p'.at? position = some q')
      p.postorder p'.postorder := by
  induction p using Place.induction generalizing p' with
  | step p ih =>
    have hchildren : p.children.map Place.withoutDefaults =
        p'.children.map Place.withoutDefaults := by
      rw [← Place.children_withoutDefaults, h, Place.children_withoutDefaults]
    have hbelow := forall₂_postorder_forest hchildren fun c hc c' => ih c hc
    rw [Place.postorder_eq p, Place.postorder_eq p']
    refine List.rel_append (hbelow.imp ?_) (.cons ⟨[], rfl, rfl⟩ .nil)
    rintro q q' ⟨_ | ⟨i, position⟩, hq, hq'⟩
    · cases hq
    · exact ⟨i :: position, hq, hq'⟩

/-- **Two schemas with the same nodes.** In schemas that differ in defaults only, the nodes of the
postorders stand, one after the other, at the same positions. -/
theorem Schema.forall₂_postorder {s s' : Schema} (h : s.withoutDefaults = s'.withoutDefaults) :
    List.Forall₂ (fun q q' => ∃ position, s.at? position = some q ∧ s'.at? position = some q')
      s.postorder s'.postorder := by
  have hentries : membersWithoutDefaults s.entries = membersWithoutDefaults s'.entries :=
    congrArg Schema.entries h
  have hforest : (placesIn [] s.entries).map Place.withoutDefaults =
      (placesIn [] s'.entries).map Place.withoutDefaults := by
    rw [← placesIn_withoutDefaults, hentries, placesIn_withoutDefaults]
  rw [Schema.postorder_eq, Schema.postorder_eq]
  exact forall₂_postorder_forest hforest fun p _ p' => Place.forall₂_postorder

end ConfigForge
