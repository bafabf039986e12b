import ConfigForge.Generation.Walk
import Mathlib.Data.List.Flatten
import Mathlib.Data.List.Nodup

/-!
# Places in a schema

A node of a schema stands at a place: inside the objects around it, under a name. A position leads
to a place by child numbers, from the number of an entry downwards. Positions are compared in the
order of the text: one is over before another is reached if the two part at some node and the first
goes on to an earlier child.

Everything here reads the schema alone. What a walk does is compared with it elsewhere.

Results:

* `Place.induction`: what holds of a place if it holds of the places directly below holds everywhere.
* `Place.has_iff`: the places of a tree are its root and the places of its children.
* `Place.mem_completed_iff`: the objects that a walk completes are the object nodes of the tree.
* `Schema.Has.enclosing`: every node stands in the target namespace or directly in a class.
* `eq_of_type_name_eq`: where the types declared in a scope differ, each belongs to one node.
-/

namespace ConfigForge

/-- A node where it stands: the names of the objects around it, outermost first, and its name. The
item of an array goes by the name that is made for it. -/
structure Place where
  around : List String
  name : String
  node : Node

/-- Named nodes as places inside the objects `around`. -/
def placesIn (around : List String) (nodes : List (String × Node)) : List Place :=
  nodes.map fun m => ⟨around, m.1, m.2⟩

/-- The type that a path of names leads to. -/
def QualifiedName.ofPath (path : List String) : QualifiedName :=
  ⟨path.dropLast.map typeName, typeName (path.getLast?.getD "")⟩

namespace Place

/-- The names that lead to a node. -/
def path (p : Place) : List String :=
  p.around ++ [p.name]

/-- The classes around a node. -/
def scope (p : Place) : List String :=
  p.around.map typeName

/-- The type declared for a node that is no reference. -/
def type (p : Place) : QualifiedName :=
  ⟨p.scope, typeName p.name⟩

/-- The class of a node, with the classes around it. -/
def classPath (p : Place) : List String :=
  p.scope ++ [p.type.name]

/-- The places directly below. An array adds no object to those around its item. -/
def children (p : Place) : List Place :=
  match p.node with
  | .object members => placesIn p.path members
  | .array item _ => [⟨p.around, itemName p.name, item⟩]
  | .scalar _ | .reference _ => []

/-- The place at a position below. -/
def at? (p : Place) : List Nat → Option Place
  | [] => some p
  | i :: rest => p.children[i]?.bind fun c => c.at? rest

/-- Whether a place is one of the places of a tree. -/
def Has (p q : Place) : Prop :=
  ∃ position, p.at? position = some q

end Place

/-- The place at a position of a list of trees. -/
def placeAt? (forest : List Place) : List Nat → Option Place
  | [] => none
  | i :: rest => forest[i]?.bind fun p => p.at? rest

/-- The place at a position of a schema. -/
def Schema.at? (s : Schema) (position : List Nat) : Option Place :=
  placeAt? (placesIn [] s.entries) position

/-- Whether a place is one of the places of a schema. -/
def Schema.Has (s : Schema) (p : Place) : Prop :=
  ∃ position, s.at? position = some p

/-- Whether the node at the first position is over before the node at the second is reached. -/
def Before : List Nat → List Nat → Prop
  | i :: p, j :: q => i < j ∨ i = j ∧ Before p q
  | _, _ => False

/-! ## Names that nodes declare -/

/-- The types that a node declares in its own scope: its own and, for an array, those of its item. -/
def Node.types (name : String) : Node → List String
  | .scalar _ | .object _ => [typeName name]
  | .array item _ => typeName name :: item.types (itemName name)
  | .reference _ => []

/-- A node and, for an array, its item with the items of that: the nodes that stand in the scope of
the node. -/
def Node.withItems (around : List String) (name : String) : Node → List Place
  | .array item bounds =>
    ⟨around, name, .array item bounds⟩ :: item.withItems around (itemName name)
  | node => [⟨around, name, node⟩]

/-- The nodes that stand in the scope of named nodes. -/
def membersWithItems (around : List String) (members : List (String × Node)) : List Place :=
  members.flatMap fun m => m.2.withItems around m.1

/-- The identifiers that a node declares in its own scope, in the order of declaration. -/
def Node.identifiers (name : String) (node : Node) : List String :=
  (node.types name).flatMap typeNames

/-- The identifiers that the members of an object declare in its class, in the order of declaration:
for each member those of its types, then its name. -/
def memberIdentifiers (members : List (String × Node)) : List String :=
  members.flatMap fun m => m.2.identifiers m.1 ++ [m.1]

/-- The types that named nodes declare in their scope. -/
def memberTypes (members : List (String × Node)) : List String :=
  members.flatMap fun m => m.2.types m.1

/-- The identifiers that the entries of a schema declare in the target namespace. -/
def Schema.identifiers (s : Schema) : List String :=
  s.entries.flatMap fun e => e.2.identifiers e.1

/-! ## Objects in the order of their completion -/

mutual

/-- The paths of the objects in a node, each after the objects inside it. -/
def Node.completed (around : List String) (name : String) : Node → List (List String)
  | .scalar _ => []
  | .object members => completedMembers (around ++ [name]) members ++ [around ++ [name]]
  | .array item _ => item.completed around (itemName name)
  | .reference _ => []

/-- The paths of the objects in named nodes, one node after the other. -/
def completedMembers (around : List String) : List (String × Node) → List (List String)
  | [] => []
  | (name, node) :: rest => node.completed around name ++ completedMembers around rest

end

/-- The paths of the objects in a tree, in the order of their completion. -/
def Place.completed (p : Place) : List (List String) :=
  p.node.completed p.around p.name

/-! ## Small laws -/

@[simp] theorem QualifiedName.ofPath_append (around : List String) (name : String) :
    QualifiedName.ofPath (around ++ [name]) = ⟨around.map typeName, typeName name⟩ := by
  simp [QualifiedName.ofPath]

theorem completedMembers_eq (around : List String) (members : List (String × Node)) :
    completedMembers around members = (placesIn around members).flatMap Place.completed := by
  induction members with
  | nil => rfl
  | cons m rest ih => rw [completedMembers, ih]; rfl

theorem Node.identifiers_scalar (name : String) (s : Scalar) :
    (Node.scalar s).identifiers name = typeNames (typeName name) := by
  simp [Node.identifiers, Node.types]

theorem Node.identifiers_object (name : String) (members : List (String × Node)) :
    (Node.object members).identifiers name = typeNames (typeName name) := by
  simp [Node.identifiers, Node.types]

theorem Node.identifiers_array (name : String) (item : Node) (bounds : ItemBounds) :
    (Node.array item bounds).identifiers name =
      typeNames (typeName name) ++ item.identifiers (itemName name) := by
  simp [Node.identifiers, Node.types]

theorem Node.identifiers_reference (name : String) (r : Reference) :
    (Node.reference r).identifiers name = [] := rfl

theorem memberIdentifiers_cons (name : String) (node : Node) (rest : List (String × Node)) :
    memberIdentifiers ((name, node) :: rest) =
      (node.identifiers name ++ [name]) ++ memberIdentifiers rest := by
  simp [memberIdentifiers]

theorem Node.own_type_mem_types {node : Node} {name : String} (h : node.isReference = false) :
    typeName name ∈ node.types name := by
  cases node with
  | reference r => simp [Node.isReference] at h
  | _ => simp [Node.types]

theorem Node.exists_of_isReference {node : Node} (h : node.isReference = true) :
    ∃ r, node = .reference r := by
  cases node with
  | reference r => exact ⟨r, rfl⟩
  | _ => cases h

theorem Node.isReference_of_isObject {node : Node} (h : node.isObject = true) :
    node.isReference = false := by
  cases node with
  | reference r => cases h
  | _ => rfl

theorem typeName_mem_typeNames (type : String) : type ∈ typeNames type :=
  mem_typeNames_iff.mpr (.inl rfl)

theorem helper_mem_typeNames (h : Helper) (type : String) : h.name type ∈ typeNames type :=
  mem_typeNames_iff.mpr (.inr ⟨h, rfl⟩)

/-- The types that a node declares are among the identifiers that it declares, in the same order. -/
theorem Node.types_sublist (name : String) (node : Node) :
    (node.types name).Sublist (node.identifiers name) := by
  have h := List.Sublist.flatMap_right (node.types name) (f := fun type => [type])
    fun type _ => List.singleton_sublist.mpr (typeName_mem_typeNames type)
  rwa [List.flatMap_singleton'] at h

theorem memberTypes_sublist (members : List (String × Node)) :
    (memberTypes members).Sublist (memberIdentifiers members) :=
  List.Sublist.flatMap_right members fun m _ =>
    (Node.types_sublist m.1 m.2).trans (List.sublist_append_left _ _)

theorem memberNames_sublist (members : List (String × Node)) :
    (members.map Prod.fst).Sublist (memberIdentifiers members) := by
  rw [List.map_eq_flatMap]
  exact List.Sublist.flatMap_right members fun m _ => List.sublist_append_right _ _

theorem Node.types_sublist_memberTypes {members : List (String × Node)} {m : String × Node}
    (hm : m ∈ members) : (m.2.types m.1).Sublist (memberTypes members) :=
  List.sublist_flatten_of_mem (List.mem_map.mpr ⟨m, hm, rfl⟩)

theorem Schema.types_sublist (s : Schema) : (memberTypes s.entries).Sublist s.identifiers :=
  List.Sublist.flatMap_right s.entries fun e _ => Node.types_sublist e.1 e.2

theorem placesIn_cons (around : List String) (name : String) (node : Node)
    (rest : List (String × Node)) :
    placesIn around ((name, node) :: rest) = ⟨around, name, node⟩ :: placesIn around rest := rfl

namespace Place

theorem ofPath_path (p : Place) : QualifiedName.ofPath p.path = p.type := by
  simp [path, type, scope]

theorem map_typeName_path (p : Place) : p.path.map typeName = p.classPath := by
  rw [path, List.map_append]
  rfl

theorem path_ne_nil (p : Place) : p.path ≠ [] :=
  List.append_ne_nil_of_right_ne_nil _ (List.cons_ne_nil _ _)

theorem classPath_ne_nil (p : Place) : p.classPath ≠ [] :=
  List.append_ne_nil_of_right_ne_nil _ (List.cons_ne_nil _ _)

theorem type_eq_of_classPath_eq {o o' : Place} (h : o.classPath = o'.classPath) :
    o.type = o'.type := by
  rw [Place.classPath, Place.classPath] at h
  obtain ⟨hscope, hname⟩ := List.append_inj' h (by simp only [List.length_cons])
  rw [List.singleton_inj] at hname
  rw [Place.type, QualifiedName.mk.injEq]
  exact ⟨hscope, hname⟩

theorem classPath_eq_of_type_eq {o o' : Place} (h : o.type = o'.type) :
    o.classPath = o'.classPath := by
  have hscope : o.scope = o'.scope := congrArg QualifiedName.scope h
  rw [classPath, classPath, hscope, h]

theorem children_object {p : Place} {members : List (String × Node)} (h : p.node = .object members) :
    p.children = placesIn p.path members := by
  rw [children, h]

theorem children_array {p : Place} {item : Node} {bounds : ItemBounds}
    (h : p.node = .array item bounds) : p.children = [⟨p.around, itemName p.name, item⟩] := by
  rw [children, h]

end Place

theorem mem_placesIn {around : List String} {nodes : List (String × Node)} {p : Place} :
    p ∈ placesIn around nodes ↔ ∃ m ∈ nodes, p = ⟨around, m.1, m.2⟩ := by
  rw [placesIn, List.mem_map]
  constructor
  · rintro ⟨m, hm, rfl⟩; exact ⟨m, hm, rfl⟩
  · rintro ⟨m, hm, rfl⟩; exact ⟨m, hm, rfl⟩

/-- A position of a list of trees is a position of one of the trees. -/
theorem exists_placeAt?_iff {forest : List Place} {q : Place} :
    (∃ position, placeAt? forest position = some q) ↔ ∃ p ∈ forest, p.Has q := by
  constructor
  · rintro ⟨position, h⟩
    cases position with
    | nil => simp [placeAt?] at h
    | cons i rest =>
      obtain ⟨p, hp, hq⟩ := Option.bind_eq_some_iff.mp h
      exact ⟨p, List.mem_of_getElem? hp, rest, hq⟩
  · rintro ⟨p, hp, position, hq⟩
    obtain ⟨i, hi⟩ := List.mem_iff_getElem?.mp hp
    exact ⟨i :: position, by rw [placeAt?, hi]; exact hq⟩

/-! ## Nodes of one scope -/

/-- Induction over nodes, with one hypothesis for all members of an object. -/
theorem Node.induction {P : Node → Prop} (scalar : ∀ s, P (.scalar s))
    (object : ∀ members, (∀ m ∈ members, P m.2) → P (.object members))
    (array : ∀ item bounds, P item → P (.array item bounds)) (reference : ∀ r, P (.reference r)) :
    ∀ node, P node
  | .scalar s => scalar s
  | .object members => object members (member members)
  | .array item bounds => array item bounds (Node.induction scalar object array reference item)
  | .reference r => reference r
where
  member : ∀ members : List (String × Node), ∀ m ∈ members, P m.2
  | [], _, h => nomatch h
  | (_, node) :: rest, m, h => by
    rcases List.mem_cons.mp h with rfl | h
    · exact Node.induction scalar object array reference node
    · exact member rest m h

/-- The objects of a node stand behind one of the types that the node declares. -/
theorem Node.exists_of_mem_completed {node : Node} {around path : List String} {name : String}
    (h : path ∈ node.completed around name) :
    ∃ first rest, path = around ++ first :: rest ∧ typeName first ∈ node.types name := by
  induction node using Node.induction generalizing around name with
  | scalar s => cases h
  | reference r => cases h
  | array item bounds ih =>
    obtain ⟨first, rest, hpath, htype⟩ := ih h
    exact ⟨first, rest, hpath, List.mem_cons_of_mem _ htype⟩
  | object members ih =>
    rw [Node.completed, List.mem_append, List.mem_singleton, completedMembers_eq,
      List.mem_flatMap] at h
    rcases h with ⟨p, hp, h⟩ | rfl
    · obtain ⟨m, hm, rfl⟩ := mem_placesIn.mp hp
      obtain ⟨first, rest, rfl, -⟩ := ih m hm h
      exact ⟨name, first :: rest, by simp, List.mem_cons_self⟩
    · exact ⟨name, [], rfl, List.mem_cons_self⟩

theorem Node.self_mem_withItems (around : List String) (name : String) (node : Node) :
    ⟨around, name, node⟩ ∈ node.withItems around name := by
  cases node <;> exact List.mem_cons_self

/-- The types declared in a scope are those of its nodes, references apart. -/
theorem Node.types_eq (around : List String) (name : String) (node : Node) :
    node.types name =
      ((node.withItems around name).filter fun p => !p.node.isReference).map (·.type.name) := by
  induction node using Node.induction generalizing name with
  | array item bounds ih => simp [Node.types, Node.withItems, Node.isReference, Place.type, ih]
  | _ => rfl

theorem memberTypes_eq (around : List String) (members : List (String × Node)) :
    memberTypes members =
      ((membersWithItems around members).filter fun p => !p.node.isReference).map (·.type.name) := by
  rw [memberTypes, membersWithItems, List.filter_flatMap, List.map_flatMap]
  exact List.flatMap_congr fun m _ => Node.types_eq around m.1 m.2

theorem Node.around_of_mem_withItems {around : List String} {name : String} {node : Node}
    {q : Place} (h : q ∈ node.withItems around name) : q.around = around := by
  induction node using Node.induction generalizing name with
  | array item bounds ih =>
    rcases List.mem_cons.mp h with rfl | h
    · rfl
    · exact ih h
  | _ => rw [List.mem_singleton.mp h]

section

variable {around : List String} {members : List (String × Node)} {p q : Place}

theorem around_of_mem_membersWithItems (h : q ∈ membersWithItems around members) :
    q.around = around := by
  obtain ⟨m, -, hm⟩ := List.mem_flatMap.mp h
  exact Node.around_of_mem_withItems hm

theorem scope_eq_nil_of_mem_membersWithItems (h : q ∈ membersWithItems [] members) :
    q.scope = [] := by
  rw [Place.scope, around_of_mem_membersWithItems h, List.map_nil]

/-- The nodes directly in the class of an object have this class around them. -/
theorem scope_of_mem_membersWithItems {o : Place} (h : q ∈ membersWithItems o.path members) :
    q.scope = o.classPath := by
  rw [Place.scope, around_of_mem_membersWithItems h, Place.map_typeName_path]

theorem type_mem_memberTypes (h : q ∈ membersWithItems around members)
    (href : q.node.isReference = false) : q.type.name ∈ memberTypes members := by
  rw [memberTypes_eq around]
  refine List.mem_map.mpr ⟨q, List.mem_filter.mpr ⟨h, ?_⟩, rfl⟩
  rw [href]
  rfl

/-- Where the types declared in a scope differ, each belongs to one node. -/
theorem eq_of_type_name_eq (hnodup : (memberTypes members).Nodup)
    (hp : p ∈ membersWithItems around members) (hq : q ∈ membersWithItems around members)
    (hpref : p.node.isReference = false) (hqref : q.node.isReference = false)
    (h : p.type.name = q.type.name) : p = q := by
  rw [memberTypes_eq around] at hnodup
  refine List.inj_on_of_nodup_map hnodup (List.mem_filter.mpr ⟨hp, ?_⟩)
    (List.mem_filter.mpr ⟨hq, ?_⟩) h
  · rw [hpref]; rfl
  · rw [hqref]; rfl

end

/-! ## Trees of places -/

namespace Place

/-- What holds of a place if it holds of the places directly below it holds of every place. -/
theorem induction {P : Place → Prop} (step : ∀ p : Place, (∀ c ∈ p.children, P c) → P p)
    (p : Place) : P p := by
  suffices h : ∀ node : Node, ∀ around name, P ⟨around, name, node⟩ from h p.node p.around p.name
  intro node
  induction node using Node.induction with
  | scalar s => intro around name; exact step _ (by simp [children])
  | object members ih =>
    intro around name
    refine step _ fun c hc => ?_
    rw [children_object rfl] at hc
    obtain ⟨m, hm, rfl⟩ := mem_placesIn.mp hc
    exact ih m hm _ _
  | array item bounds ih =>
    intro around name
    refine step _ fun c hc => ?_
    rw [children_array rfl, List.mem_singleton] at hc
    subst hc
    exact ih _ _
  | reference r => intro around name; exact step _ (by simp [children])

/-- The places of a tree are its root and the places of the children of the root. -/
theorem has_iff {p q : Place} : p.Has q ↔ q = p ∨ ∃ c ∈ p.children, c.Has q := by
  rw [← exists_placeAt?_iff]
  constructor
  · rintro ⟨position, h⟩
    cases position with
    | nil => exact .inl (Option.some.inj h).symm
    | cons i rest => exact .inr ⟨i :: rest, h⟩
  · rintro (rfl | ⟨position, h⟩)
    · exact ⟨[], rfl⟩
    · cases position with
      | nil => simp [placeAt?] at h
      | cons i rest => exact ⟨i :: rest, h⟩

theorem has_self (p : Place) : p.Has p :=
  ⟨[], rfl⟩

theorem has_of_child {p c q : Place} (hc : c ∈ p.children) (hq : c.Has q) : p.Has q :=
  has_iff.mpr (.inr ⟨c, hc, hq⟩)

theorem Has.trans {p q r : Place} (hq : p.Has q) : q.Has r → p.Has r := by
  induction p using Place.induction with
  | step p ih =>
    intro hr
    rcases has_iff.mp hq with rfl | ⟨c, hc, hcq⟩
    · exact hr
    · exact has_of_child hc (ih c hc hcq hr)

/-- A node of a tree stands in the scope of the root or directly in the class of an object of the
tree. -/
theorem Has.enclosing {root q : Place} (h : root.Has q) :
    q ∈ root.node.withItems root.around root.name ∨
      ∃ o members, root.Has o ∧ o.node = .object members ∧ q ∈ membersWithItems o.path members := by
  induction root using Place.induction with
  | step root ih =>
    obtain ⟨around, name, node⟩ := root
    rcases has_iff.mp h with rfl | ⟨c, hc, hcq⟩
    · exact .inl (Node.self_mem_withItems around name node)
    · rcases ih c hc hcq with hitems | ⟨o, members, ho, hnode, hmembers⟩
      · cases node with
        | scalar s => simp [children] at hc
        | reference r => simp [children] at hc
        | array item bounds =>
          rw [children_array rfl, List.mem_singleton] at hc
          subst hc
          exact .inl (List.mem_cons_of_mem _ hitems)
        | object members =>
          rw [children_object rfl] at hc
          obtain ⟨m, hm, rfl⟩ := mem_placesIn.mp hc
          exact .inr ⟨_, members, has_self _, rfl, List.mem_flatMap.mpr ⟨m, hm, hitems⟩⟩
      · exact .inr ⟨o, members, has_of_child hc ho, hnode, hmembers⟩

/-- The objects that the walk of a tree completes are the object nodes of the tree. -/
theorem mem_completed_iff {p : Place} {path : List String} :
    path ∈ p.completed ↔ ∃ q, p.Has q ∧ q.node.isObject = true ∧ q.path = path := by
  induction p using Place.induction with
  | step p ih =>
    obtain ⟨around, name, node⟩ := p
    cases node with
    | scalar s => simp [completed, Node.completed, has_iff (p := ⟨around, name, .scalar s⟩), children,
        Node.isObject]
    | reference r => simp [completed, Node.completed, has_iff (p := ⟨around, name, .reference r⟩),
        children, Node.isObject]
    | array item bounds =>
      rw [children_array rfl] at ih
      have hitem := ih _ (List.mem_singleton.mpr rfl)
      change path ∈ (⟨around, itemName name, item⟩ : Place).completed ↔ _
      rw [hitem]
      simp [has_iff (p := ⟨around, name, .array item bounds⟩), children, Node.isObject]
    | object members =>
      rw [children_object rfl] at ih
      change path ∈ completedMembers (around ++ [name]) members ++ [around ++ [name]] ↔ _
      rw [completedMembers_eq, List.mem_append, List.mem_flatMap, List.mem_singleton]
      constructor
      · rintro (⟨c, hc, hpath⟩ | rfl)
        · obtain ⟨q, hq, ho, rfl⟩ := (ih c hc).mp hpath
          exact ⟨q, has_of_child hc hq, ho, rfl⟩
        · exact ⟨_, has_self _, rfl, rfl⟩
      · rintro ⟨q, hq, ho, rfl⟩
        rcases has_iff.mp hq with rfl | ⟨c, hc, hcq⟩
        · exact .inr rfl
        · exact .inl ⟨c, hc, (ih c hc).mpr ⟨q, hcq, ho, rfl⟩⟩

theorem around_of_mem_children {p c : Place} {members : List (String × Node)}
    (hnode : p.node = .object members) (hc : c ∈ p.children) : c.around = p.path := by
  rw [children_object hnode] at hc
  obtain ⟨m, -, rfl⟩ := mem_placesIn.mp hc
  rfl

/-- The members of an object stand in the scope of its class. -/
theorem scope_of_mem_object {p c : Place} {members : List (String × Node)}
    (hnode : p.node = .object members) (hc : c ∈ p.children) : c.scope = p.classPath := by
  rw [scope, around_of_mem_children hnode hc, map_typeName_path]

/-- A node below stands in the same scope or in the class of the node above. -/
theorem scope_of_mem_children {p c : Place} (hc : c ∈ p.children) :
    c.scope = p.scope ∨ c.scope = p.classPath := by
  cases hnode : p.node with
  | scalar s => rw [children, hnode] at hc; cases hc
  | reference r => rw [children, hnode] at hc; cases hc
  | array item bounds =>
    rw [children_array hnode, List.mem_singleton] at hc
    rw [hc]
    exact .inl rfl
  | object members => exact .inr (scope_of_mem_object hnode hc)

end Place

namespace Schema

theorem has_iff {s : Schema} {q : Place} : s.Has q ↔ ∃ p ∈ placesIn [] s.entries, p.Has q :=
  exists_placeAt?_iff

theorem Has.trans {s : Schema} {p q : Place} (hp : s.Has p) (hq : p.Has q) : s.Has q := by
  obtain ⟨root, hroot, hp⟩ := has_iff.mp hp
  exact has_iff.mpr ⟨root, hroot, hp.trans hq⟩

theorem Has.child {s : Schema} {p c : Place} (hp : s.Has p) (hc : c ∈ p.children) : s.Has c :=
  hp.trans (Place.has_of_child hc c.has_self)

/-- A node of a schema stands in the target namespace or directly in the class of an object. -/
theorem Has.enclosing {s : Schema} {q : Place} (h : s.Has q) :
    q ∈ membersWithItems [] s.entries ∨
      ∃ o members, s.Has o ∧ o.node = .object members ∧ q ∈ membersWithItems o.path members := by
  obtain ⟨root, hroot, hq⟩ := has_iff.mp h
  rcases hq.enclosing with hitems | ⟨o, members, ho, hnode, hmembers⟩
  · obtain ⟨m, hm, rfl⟩ := mem_placesIn.mp hroot
    exact .inl (List.mem_flatMap.mpr ⟨m, hm, hitems⟩)
  · exact .inr ⟨o, members, has_iff.mpr ⟨root, hroot, ho⟩, hnode, hmembers⟩

/-- A node stands in the target namespace or in the class of an object. -/
theorem Has.scope_cases {s : Schema} {q : Place} (h : s.Has q) :
    q.scope = [] ∨
      ∃ o members, s.Has o ∧ o.node = .object members ∧ q.scope = o.classPath := by
  rcases h.enclosing with houter | ⟨o, members, ho, hnode, hitems⟩
  · exact .inl (scope_eq_nil_of_mem_membersWithItems houter)
  · exact .inr ⟨o, members, ho, hnode, scope_of_mem_membersWithItems hitems⟩

end Schema

end ConfigForge
