import ConfigForge.Proofs.Places
import Mathlib.Data.List.Induction

/-!
# Settled references

What a reference means depends on the objects that are complete when the walk comes to it. A
reference is settled when it spells the whole path of the object it means, from the root of the
schema. The settled form of a schema has all its references settled, and the code of a schema is a
function of its settled form alone.

Results:

* `tableOf_get?`: the table of complete objects leads to the object completed last under a key.
* `resolve?_tableOf`: looking a reference up in that table is settling it.
* `meant?_isSome_iff`: when a reference can be settled.
* `eachReferenceIn_iff`: a property of the references of a schema in the order of the walk, stated
  by their positions alone.
* `Schema.exists_target`: a settled reference means an object of the schema.
-/

namespace ConfigForge

open Code (Fragment)
open Emit

/-! ## What a reference means -/

/-- The key of an object in the table of complete objects. -/
def dotted (path : List String) : String :=
  Text.joinWith "." path

/-- The table of complete objects, given their paths in the order of completion. -/
def tableOf (done : List (List String)) : ReferenceTable :=
  done.foldl (fun t path => t.register (dotted path) (.ofPath path)) .empty

/-- The object completed last under a key. -/
def latest? (done : List (List String)) (key : String) : Option (List String) :=
  done.reverse.find? fun path => dotted path = key

namespace Reference

/-- The object found for `target` inside the first `depth` of the objects `around`, or inside fewer
of them. -/
def meantFrom? (done : List (List String)) (around : List String) (target : String) :
    Nat → Option (List String)
  | 0 => latest? done target
  | depth + 1 =>
    (latest? done (ReferenceTable.pathInside (around.take (depth + 1)) target)).or
      (meantFrom? done around target depth)

/-- The path of the object that a reference means inside the objects `around`. -/
def meant? (done : List (List String)) (around : List String) (r : Reference) :
    Option (List String) :=
  meantFrom? done around r.target around.length

/-- The reference with the whole path of the object it means, or as it is if it means none. -/
def settle (done : List (List String)) (around : List String) (r : Reference) : Reference :=
  ((r.meant? done around).map Reference.mk).getD r

end Reference

mutual

/-- The settled form of a node; `done` are the objects that are complete when the node is reached. -/
def Node.settle (done : List (List String)) (around : List String) (name : String) : Node → Node
  | .scalar s => .scalar s
  | .object members => .object (settleMembers done (around ++ [name]) members)
  | .array item bounds => .array (item.settle done around (itemName name)) bounds
  | .reference r => .reference (r.settle done around)

/-- The settled form of named nodes, each of which finds the objects of those before it complete. -/
def settleMembers (done : List (List String)) (around : List String) :
    List (String × Node) → List (String × Node)
  | [] => []
  | (name, node) :: rest =>
    (name, node.settle done around name) ::
      settleMembers (done ++ node.completed around name) around rest

end

/-- The settled form of a schema. -/
def Schema.settled (s : Schema) : Schema :=
  ⟨settleMembers [] [] s.entries⟩

mutual

/-- Whether `P` holds of every reference in a node, of the objects around it, and of the objects
that are complete when it is reached. -/
def Node.EachReference (P : (List String → Prop) → List String → Reference → Prop)
    (done : List (List String)) (around : List String) (name : String) : Node → Prop
  | .scalar _ => True
  | .object members => EachReferenceIn P done (around ++ [name]) members
  | .array item _ => item.EachReference P done around (itemName name)
  | .reference r => P (· ∈ done) around r

/-- Whether `P` holds of every reference in named nodes, which are reached one after the other. -/
def EachReferenceIn (P : (List String → Prop) → List String → Reference → Prop)
    (done : List (List String)) (around : List String) : List (String × Node) → Prop
  | [] => True
  | (name, node) :: rest =>
    node.EachReference P done around name ∧
      EachReferenceIn P (done ++ node.completed around name) around rest

end

/-- Whether a reference means something: inside some of the objects around it, its target is spelled
like the path of a complete object. -/
def Reference.Resolves (complete : List String → Prop) (around : List String) (r : Reference) :
    Prop :=
  ∃ d ≤ around.length, ∃ path, complete path ∧ dotted (around.take d ++ [r.target]) = dotted path

/-- Whether a reference spells the path of a complete object. -/
def Reference.IsSettled (complete : List String → Prop) (_ : List String) (r : Reference) : Prop :=
  complete r.segments

/-! ## The code of a settled node -/

mutual

/-- The code of a settled node and the type it provides. -/
def Node.emit (target : Target) (around : List String) (name : String) : Node → EmittedType
  | .scalar s =>
    ⟨aliasFragment target (typeName name) s s.primitive, ⟨around.map typeName, typeName name⟩⟩
  | .object members =>
    let type : QualifiedName := ⟨around.map typeName, typeName name⟩
    ⟨classFragment target name type (emitMembers target (around ++ [name]) members), type⟩
  | .array item bounds =>
    ⟨vectorFragment target (typeName name) (item.emit target around (itemName name)) bounds,
      ⟨around.map typeName, typeName name⟩⟩
  | .reference r => ⟨Fragment.empty, .ofPath r.segments⟩

/-- The members of an object, settled, with their code. -/
def emitMembers (target : Target) (around : List String) : List (String × Node) → List Member
  | [] => []
  | (name, node) :: rest => ⟨name, node.emit target around name⟩ :: emitMembers target around rest

end

/-- The unit of a settled entry. -/
def unitOf (target : Target) (entry : String × Node) : String × CodeUnit :=
  let emitted := entry.2.emit target [] entry.1
  (entry.1, ⟨emitted.fragment.place .topLevel, emitted.name⟩)

/-- The type that a settled node provides. -/
def Node.provided (around : List String) (name : String) : Node → QualifiedName
  | .reference r => .ofPath r.segments
  | _ => ⟨around.map typeName, typeName name⟩

/-- The type that a settled node provides. -/
def Place.provided (p : Place) : QualifiedName :=
  p.node.provided p.around p.name

/-- The member types of an object where they are placed. -/
def placedMembers (target : Target) (around : List String) (name : String)
    (members : List (String × Node)) : List Code.PlacedFragment :=
  (emitMembers target (around ++ [name]) members).map fun m =>
    m.emitted.fragment.place (memberPlacement ⟨around.map typeName, typeName name⟩)

theorem Node.emit_name (target : Target) (around : List String) (name : String) (node : Node) :
    (node.emit target around name).name = node.provided around name := by
  cases node <;> rfl

theorem Place.provided_of_not_reference {p : Place} (h : p.node.isReference = false) :
    p.provided = p.type := by
  obtain ⟨around, name, node⟩ := p
  cases node with
  | reference r => cases h
  | _ => rfl

/-- A settled reference provides the type of the object it names. -/
theorem Place.provided_eq_of_path {p o : Place} {r : Reference} (hr : p.node = .reference r)
    (ho : o.node.isObject = true) (hpath : o.path = r.segments) : p.provided = o.provided := by
  rw [provided_of_not_reference (Node.isReference_of_isObject ho), ← Place.ofPath_path, hpath,
    provided, hr]
  rfl

theorem emitMembers_eq (target : Target) (around : List String) (members : List (String × Node)) :
    emitMembers target around members =
      members.map fun m => ⟨m.1, m.2.emit target around m.1⟩ := by
  induction members with
  | nil => rfl
  | cons m rest ih => rw [emitMembers, ih]; rfl

theorem placed_flatMap (target : Target) (around : List String) (name : String)
    (members : List (String × Node)) (part : Code.PlacedFragment → List String) :
    (placedMembers target around name members).flatMap part =
      members.flatMap fun m => part ((m.2.emit target (around ++ [name]) m.1).fragment.place
        (memberPlacement ⟨around.map typeName, typeName name⟩)) := by
  rw [placedMembers, emitMembers_eq, List.map_map, List.flatMap_map]
  rfl

/-! ## The table of complete objects -/

theorem tableOf_append (done : List (List String)) (path : List String) :
    tableOf (done ++ [path]) = (tableOf done).register (dotted path) (.ofPath path) := by
  simp [tableOf]

theorem latest?_append (done : List (List String)) (path : List String) (key : String) :
    latest? (done ++ [path]) key = if dotted path = key then some path else latest? done key := by
  simp only [latest?, List.reverse_append, List.reverse_singleton, List.singleton_append,
    List.find?_cons]
  by_cases h : dotted path = key
  · simp [h]
  · simp [h]

theorem tableOf_get? (done : List (List String)) (key : String) :
    (tableOf done).objects.get? key = (latest? done key).map .ofPath := by
  induction done using List.reverseRecOn with
  | nil => rfl
  | append_singleton done path ih =>
    rw [tableOf_append, latest?_append]
    by_cases h : dotted path = key
    · subst h
      rw [if_pos rfl]
      exact Entries.get?_put_self _ _ _
    · rw [if_neg h, ← ih]
      exact Entries.get?_put_of_ne _ h _

theorem latest?_mem {done : List (List String)} {key : String} {path : List String}
    (h : latest? done key = some path) : path ∈ done :=
  List.mem_reverse.mp (List.mem_of_find?_eq_some h)

theorem latest?_isSome_iff {done : List (List String)} {key : String} :
    (latest? done key).isSome ↔ ∃ path ∈ done, dotted path = key := by
  simp [latest?]

/-! ## Settling a reference -/

theorem resolveFrom?_tableOf (done : List (List String)) (around : List String) (target : String)
    (depth : Nat) :
    (tableOf done).resolveFrom? around target depth =
      (Reference.meantFrom? done around target depth).map .ofPath := by
  induction depth with
  | zero => exact tableOf_get? done target
  | succ depth ih =>
    rw [ReferenceTable.resolveFrom?, Reference.meantFrom?, tableOf_get?, ih]
    cases latest? done (ReferenceTable.pathInside (around.take (depth + 1)) target) with
    | none => rfl
    | some path => rfl

/-- Looking a reference up in the table of complete objects is settling it. -/
theorem resolve?_tableOf (done : List (List String)) (around : List String) (r : Reference) :
    (tableOf done).resolve? around r = (r.meant? done around).map .ofPath :=
  resolveFrom?_tableOf done around r.target around.length

theorem meantFrom?_mem {done : List (List String)} {around : List String} {target : String}
    {depth : Nat} {path : List String}
    (h : Reference.meantFrom? done around target depth = some path) : path ∈ done := by
  induction depth with
  | zero => exact latest?_mem h
  | succ depth ih =>
    rcases Option.or_eq_some_iff.mp h with h | ⟨-, h⟩
    · exact latest?_mem h
    · exact ih h

theorem meant?_mem {done : List (List String)} {around : List String} {r : Reference}
    {path : List String} (h : r.meant? done around = some path) : path ∈ done :=
  meantFrom?_mem h

/-- The text of a target inside some objects is the dotted text of all their names. -/
theorem pathInside_eq (around : List String) (target : String) :
    ReferenceTable.pathInside around target = dotted (around ++ [target]) := by
  cases around with
  | nil => rfl
  | cons name rest =>
    change dotted (name :: rest) ++ "." ++ target = dotted (name :: rest ++ [target])
    induction rest generalizing name with
    | nil => rfl
    | cons next rest ih =>
      have h := ih next
      simp only [dotted, Text.joinWith, List.cons_append] at h ⊢
      rw [← h]
      simp [String.append_assoc]

theorem meantFrom?_isSome_iff {done : List (List String)} {around : List String} {target : String}
    {depth : Nat} :
    (Reference.meantFrom? done around target depth).isSome ↔
      ∃ d ≤ depth, ∃ path, path ∈ done ∧ dotted (around.take d ++ [target]) = dotted path := by
  induction depth with
  | zero =>
    rw [Reference.meantFrom?, latest?_isSome_iff]
    constructor
    · rintro ⟨path, hpath, h⟩
      exact ⟨0, Nat.le_refl 0, path, hpath, h.symm⟩
    · rintro ⟨d, hd, path, hpath, h⟩
      obtain rfl : d = 0 := by omega
      exact ⟨path, hpath, h.symm⟩
  | succ depth ih =>
    rw [Reference.meantFrom?, Option.isSome_or, Bool.or_eq_true, latest?_isSome_iff, ih,
      pathInside_eq]
    constructor
    · rintro (⟨path, hpath, h⟩ | ⟨d, hd, hfound⟩)
      · exact ⟨depth + 1, Nat.le_refl _, path, hpath, h.symm⟩
      · exact ⟨d, by omega, hfound⟩
    · rintro ⟨d, hd, path, hpath, h⟩
      rcases Nat.lt_or_eq_of_le hd with hlt | rfl
      · exact .inr ⟨d, by omega, path, hpath, h⟩
      · exact .inl ⟨path, hpath, h.symm⟩

/-- A reference can be settled exactly if it means something. -/
theorem meant?_isSome_iff {done : List (List String)} {around : List String} {r : Reference} :
    (r.meant? done around).isSome ↔ r.Resolves (· ∈ done) around :=
  meantFrom?_isSome_iff

theorem settle_of_meant? {done : List (List String)} {around path : List String} {r : Reference}
    (h : r.meant? done around = some path) : r.settle done around = ⟨path⟩ := by
  rw [Reference.settle, h]
  rfl

theorem Reference.Resolves.isSettled_settle {done : List (List String)} {around : List String}
    {r : Reference} (h : r.Resolves (· ∈ done) around) :
    (r.settle done around).IsSettled (· ∈ done) around := by
  obtain ⟨path, hpath⟩ := Option.isSome_iff_exists.mp (meant?_isSome_iff.mpr h)
  rw [settle_of_meant? hpath]
  exact meant?_mem hpath

/-! ## Settling keeps names and objects -/

mutual

@[simp] theorem Node.completed_settle (done : List (List String)) (around : List String)
    (name : String) : ∀ node : Node,
    (node.settle done around name).completed around name = node.completed around name
  | .scalar _ => rfl
  | .object members => by
    rw [Node.settle, Node.completed, Node.completed, completedMembers_settleMembers]
  | .array item bounds => by
    rw [Node.settle, Node.completed, Node.completed, Node.completed_settle done around _ item]
  | .reference _ => rfl

@[simp] theorem completedMembers_settleMembers (done : List (List String)) (around : List String) :
    ∀ members : List (String × Node),
      completedMembers around (settleMembers done around members) = completedMembers around members
  | [] => rfl
  | (name, node) :: rest => by
    rw [settleMembers, completedMembers, completedMembers, Node.completed_settle,
      completedMembers_settleMembers]

end

mutual

@[simp] theorem Node.check_settle (location : Location) (done : List (List String))
    (around : List String) (name : String) : ∀ node : Node,
    (node.settle done around name).check location = node.check location
  | .scalar _ => rfl
  | .object members => by
    rw [Node.settle, Node.check, Node.check, Node.checkMembers_settleMembers]
  | .array item bounds => by
    rw [Node.settle, Node.check, Node.check, Node.check_settle _ done around _ item]
  | .reference _ => rfl

@[simp] theorem Node.checkMembers_settleMembers (location : Location) (done : List (List String))
    (around : List String) : ∀ members : List (String × Node),
    Node.checkMembers location (settleMembers done around members) =
      Node.checkMembers location members
  | [] => rfl
  | (name, node) :: rest => by
    rw [settleMembers, Node.checkMembers, Node.checkMembers, Node.check_settle,
      Node.checkMembers_settleMembers]

end

@[simp] theorem Node.types_settle (done : List (List String)) (around : List String)
    (name : String) (node : Node) : (node.settle done around name).types name = node.types name := by
  induction node using Node.induction generalizing name with
  | scalar s => rfl
  | object members ih => rfl
  | array item bounds ih => rw [Node.settle, Node.types, Node.types, ih]
  | reference r => rfl

@[simp] theorem Node.identifiers_settle (done : List (List String)) (around : List String)
    (name : String) (node : Node) :
    (node.settle done around name).identifiers name = node.identifiers name := by
  rw [Node.identifiers, Node.types_settle, Node.identifiers]

theorem Node.isReference_settle (done : List (List String)) (around : List String) (name : String)
    (node : Node) : (node.settle done around name).isReference = node.isReference := by
  cases node <;> rfl

theorem Node.eq_scalar_of_settle {done : List (List String)} {around : List String} {name : String}
    {node : Node} {s : Scalar} (h : node.settle done around name = .scalar s) :
    node = .scalar s := by
  cases node with
  | scalar s' => exact h
  | _ => cases h

theorem mem_settleMembers {done : List (List String)} {around : List String}
    {members : List (String × Node)} {m : String × Node}
    (h : m ∈ settleMembers done around members) :
    ∃ before node, (m.1, node) ∈ members ∧ m.2 = node.settle before around m.1 := by
  induction members generalizing done with
  | nil => cases h
  | cons first rest ih =>
    rcases List.mem_cons.mp h with rfl | h
    · exact ⟨done, first.2, List.mem_cons_self, rfl⟩
    · obtain ⟨before, node, hmem, hnode⟩ := ih h
      exact ⟨before, node, List.mem_cons_of_mem _ hmem, hnode⟩

@[simp] theorem memberIdentifiers_settleMembers (done : List (List String)) (around : List String)
    (members : List (String × Node)) :
    memberIdentifiers (settleMembers done around members) = memberIdentifiers members := by
  induction members generalizing done with
  | nil => rfl
  | cons m rest ih =>
    obtain ⟨name, node⟩ := m
    rw [settleMembers, memberIdentifiers_cons, memberIdentifiers_cons, ih, Node.identifiers_settle]

mutual

/-- A property of references that settling brings about holds of every reference of the settled
form. -/
theorem Node.EachReference.settle {P Q : (List String → Prop) → List String → Reference → Prop}
    (step : ∀ done around r, P (· ∈ done) around r → Q (· ∈ done) around (r.settle done around))
    (done : List (List String)) (around : List String) (name : String) :
    ∀ node : Node, node.EachReference P done around name →
      (node.settle done around name).EachReference Q done around name
  | .scalar _, _ => trivial
  | .object members, h => EachReferenceIn.settle step done (around ++ [name]) members h
  | .array item _, h => Node.EachReference.settle step done around (itemName name) item h
  | .reference r, h => step done around r h

theorem EachReferenceIn.settle {P Q : (List String → Prop) → List String → Reference → Prop}
    (step : ∀ done around r, P (· ∈ done) around r → Q (· ∈ done) around (r.settle done around))
    (done : List (List String)) (around : List String) :
    ∀ members : List (String × Node), EachReferenceIn P done around members →
      EachReferenceIn Q done around (settleMembers done around members)
  | [], _ => trivial
  | (name, node) :: rest, h => by
    refine ⟨Node.EachReference.settle step done around name node h.1, ?_⟩
    rw [Node.completed_settle]
    exact EachReferenceIn.settle step _ around rest h.2

end

mutual

/-- A property that another one brings about holds wherever that one holds. -/
theorem Node.EachReference.imp {P Q : (List String → Prop) → List String → Reference → Prop}
    (step : ∀ (done : List (List String)) around r,
      P (· ∈ done) around r → Q (· ∈ done) around r)
    (done : List (List String)) (around : List String) (name : String) :
    ∀ node : Node, node.EachReference P done around name → node.EachReference Q done around name
  | .scalar _, _ => trivial
  | .object members, h => EachReferenceIn.imp step done (around ++ [name]) members h
  | .array item _, h => Node.EachReference.imp step done around (itemName name) item h
  | .reference r, h => step done around r h

theorem EachReferenceIn.imp {P Q : (List String → Prop) → List String → Reference → Prop}
    (step : ∀ (done : List (List String)) around r,
      P (· ∈ done) around r → Q (· ∈ done) around r)
    (done : List (List String)) (around : List String) :
    ∀ members : List (String × Node), EachReferenceIn P done around members →
      EachReferenceIn Q done around members
  | [], _ => trivial
  | (name, node) :: rest, h =>
    ⟨Node.EachReference.imp step done around name node h.1,
      EachReferenceIn.imp step _ around rest h.2⟩

end

/-- A settled reference means the object that it spells. -/
theorem Reference.IsSettled.resolves {complete : List String → Prop} {around : List String}
    {r : Reference} (h : r.IsSettled complete around) : r.Resolves complete around :=
  ⟨0, Nat.zero_le _, r.segments, h, rfl⟩

/-! ## Nodes one after the other -/

theorem settleMembers_append (done : List (List String)) (around : List String)
    (front back : List (String × Node)) :
    settleMembers done around (front ++ back) =
      settleMembers done around front ++
        settleMembers (done ++ completedMembers around front) around back := by
  induction front generalizing done with
  | nil => rw [completedMembers, List.append_nil]; rfl
  | cons m front ih =>
    rw [List.cons_append, settleMembers, ih, settleMembers, completedMembers, List.append_assoc,
      List.cons_append]

theorem length_settleMembers (done : List (List String)) (around : List String)
    (members : List (String × Node)) :
    (settleMembers done around members).length = members.length := by
  induction members generalizing done with
  | nil => rfl
  | cons m members ih => rw [settleMembers, List.length_cons, ih, List.length_cons]

theorem eachReferenceIn_append {P : (List String → Prop) → List String → Reference → Prop}
    {done : List (List String)} {around : List String} {front back : List (String × Node)} :
    EachReferenceIn P done around (front ++ back) ↔
      EachReferenceIn P done around front ∧
        EachReferenceIn P (done ++ completedMembers around front) around back := by
  induction front generalizing done with
  | nil => simp [EachReferenceIn, completedMembers]
  | cons m front ih =>
    rw [List.cons_append, EachReferenceIn, ih, EachReferenceIn, completedMembers, and_assoc,
      List.append_assoc]

/-! ## References by position -/

/-- The objects that are complete at a position of a list of trees: those that were complete before
and those that are over before the position is reached. -/
def CompleteAt (done : List (List String)) (forest : List Place) (position : List Nat)
    (path : List String) : Prop :=
  path ∈ done ∨ ∃ earlier o, placeAt? forest earlier = some o ∧ o.node.isObject = true ∧
    Before earlier position ∧ o.path = path

/-- Whether `P` holds of every reference in a list of trees, which are reached one after the
other. -/
def EachReferenceAmong (P : (List String → Prop) → List String → Reference → Prop) :
    List (List String) → List Place → Prop
  | _, [] => True
  | done, p :: rest =>
    p.node.EachReference P done p.around p.name ∧ EachReferenceAmong P (done ++ p.completed) rest

section

variable {P : (List String → Prop) → List String → Reference → Prop}

theorem eachReferenceIn_iff_among {done : List (List String)} {around : List String}
    {members : List (String × Node)} :
    EachReferenceIn P done around members ↔
      EachReferenceAmong P done (placesIn around members) := by
  induction members generalizing done with
  | nil => rfl
  | cons m rest ih => exact and_congr Iff.rfl ih

theorem eachReference_iff_children {done : List (List String)} {p : Place} :
    p.node.EachReference P done p.around p.name ↔
      (∀ r, p.node = .reference r → P (· ∈ done) p.around r) ∧
        EachReferenceAmong P done p.children := by
  obtain ⟨around, name, node⟩ := p
  cases node with
  | scalar s => simp [Node.EachReference, Place.children, EachReferenceAmong]
  | object members =>
    rw [Place.children_object rfl, ← eachReferenceIn_iff_among]
    simp [Node.EachReference, Place.path]
  | array item bounds => simp [Node.EachReference, Place.children, EachReferenceAmong]
  | reference r => simp [Node.EachReference, Place.children, EachReferenceAmong]

theorem not_before_nil (earlier : List Nat) : ¬ Before earlier [] := by
  cases earlier <;> simp [Before]

theorem completeAt_nil (done : List (List String)) (forest : List Place) :
    CompleteAt done forest [] = (· ∈ done) := by
  funext path
  simp [CompleteAt, not_before_nil]

/-- In the first tree of a list, what is complete is what is complete in the tree alone. -/
theorem completeAt_cons_zero (done : List (List String)) (p : Place) (forest : List Place)
    (rest : List Nat) :
    CompleteAt done (p :: forest) (0 :: rest) = CompleteAt done p.children rest := by
  funext path
  refine propext (or_congr Iff.rfl ?_)
  constructor
  · rintro ⟨earlier, o, ho, hobject, hbefore, hpath⟩
    match earlier, hbefore with
    | 0 :: i :: deeper, .inr ⟨_, hbefore⟩ => exact ⟨i :: deeper, o, ho, hobject, hbefore, hpath⟩
  · rintro ⟨earlier, o, ho, hobject, hbefore, hpath⟩
    match earlier, ho with
    | i :: deeper, ho =>
      exact ⟨0 :: i :: deeper, o, ho, hobject, .inr ⟨rfl, hbefore⟩, hpath⟩

/-- Behind the first tree of a list, the objects of that tree are complete. -/
theorem completeAt_cons_succ (done : List (List String)) (p : Place) (forest : List Place)
    (i : Nat) (rest : List Nat) :
    CompleteAt done (p :: forest) ((i + 1) :: rest) =
      CompleteAt (done ++ p.completed) forest (i :: rest) := by
  funext path
  apply propext
  simp only [CompleteAt, List.mem_append, or_assoc, Place.mem_completed_iff]
  refine or_congr Iff.rfl ?_
  constructor
  · rintro ⟨earlier, o, ho, hobject, hbefore, hpath⟩
    match earlier, hbefore with
    | 0 :: deeper, _ => exact .inl ⟨o, ⟨deeper, ho⟩, hobject, hpath⟩
    | (j + 1) :: deeper, .inl hlt =>
      exact .inr ⟨j :: deeper, o, ho, hobject, .inl (by omega), hpath⟩
    | (j + 1) :: deeper, .inr ⟨heq, hbefore⟩ =>
      exact .inr ⟨j :: deeper, o, ho, hobject, .inr ⟨by omega, hbefore⟩, hpath⟩
  · rintro (⟨o, ⟨deeper, ho⟩, hobject, hpath⟩ | ⟨earlier, o, ho, hobject, hbefore, hpath⟩)
    · exact ⟨0 :: deeper, o, ho, hobject, .inl (by omega), hpath⟩
    · match earlier, hbefore with
      | j :: deeper, .inl hlt =>
        exact ⟨(j + 1) :: deeper, o, ho, hobject, .inl (by omega), hpath⟩
      | j :: deeper, .inr ⟨heq, hbefore⟩ =>
        exact ⟨(j + 1) :: deeper, o, ho, hobject, .inr ⟨by omega, hbefore⟩, hpath⟩

/-- In a tree behind others, the objects of the others are complete. -/
theorem completeAt_append (done : List (List String)) (front : List Place) (p : Place)
    (back : List Place) (rest : List Nat) :
    CompleteAt done (front ++ p :: back) (front.length :: rest) =
      CompleteAt (done ++ front.flatMap Place.completed) p.children rest := by
  induction front generalizing done with
  | nil => rw [List.flatMap_nil, List.append_nil]; exact completeAt_cons_zero done p back rest
  | cons first front ih =>
    rw [List.cons_append, List.length_cons, completeAt_cons_succ, ih, List.flatMap_cons,
      List.append_assoc]

/-- From the trees of a list to the list: the first tree is reached with what was complete before,
the others with the objects of the first tree as well. -/
theorem eachReferenceAmong_iff_of_forall {forest : List Place}
    (tree : ∀ p ∈ forest, ∀ done, p.node.EachReference P done p.around p.name ↔
      ∀ position q r, p.at? position = some q → q.node = .reference r →
        P (CompleteAt done p.children position) q.around r) (done : List (List String)) :
    EachReferenceAmong P done forest ↔
      ∀ position q r, placeAt? forest position = some q → q.node = .reference r →
        P (CompleteAt done forest position) q.around r := by
  induction forest generalizing done with
  | nil =>
    constructor
    · intro _ position q r hq
      cases position <;> simp [placeAt?] at hq
    · intro _; trivial
  | cons p forest ih =>
    rw [EachReferenceAmong, tree p List.mem_cons_self,
      ih (fun p' hp' => tree p' (List.mem_cons_of_mem _ hp'))]
    constructor
    · rintro ⟨hfirst, hrest⟩ position q r hq hr
      cases position with
      | nil => cases hq
      | cons i deeper =>
        cases i with
        | zero => rw [completeAt_cons_zero]; exact hfirst deeper q r hq hr
        | succ i => rw [completeAt_cons_succ]; exact hrest (i :: deeper) q r hq hr
    · intro h
      refine ⟨fun position q r hq hr => ?_, fun position q r hq hr => ?_⟩
      · rw [← completeAt_cons_zero done p forest]
        exact h (0 :: position) q r hq hr
      · cases position with
        | nil => cases hq
        | cons i deeper => rw [← completeAt_cons_succ]; exact h ((i + 1) :: deeper) q r hq hr

theorem eachReference_iff_at? (p : Place) (done : List (List String)) :
    p.node.EachReference P done p.around p.name ↔
      ∀ position q r, p.at? position = some q → q.node = .reference r →
        P (CompleteAt done p.children position) q.around r := by
  induction p using Place.induction generalizing done with
  | step p ih =>
    rw [eachReference_iff_children, eachReferenceAmong_iff_of_forall ih]
    constructor
    · rintro ⟨hhere, hbelow⟩ position q r hq hr
      cases position with
      | nil =>
        obtain rfl := Option.some.inj hq
        rw [completeAt_nil]
        exact hhere r hr
      | cons i deeper => exact hbelow (i :: deeper) q r hq hr
    · intro h
      refine ⟨fun r hr => ?_, fun position q r hq hr => ?_⟩
      · rw [← completeAt_nil done p.children]
        exact h [] p r rfl hr
      · cases position with
        | nil => cases hq
        | cons i deeper => exact h (i :: deeper) q r hq hr

/-- **References by position.** A property holds of the references of named nodes in the order of the
walk exactly if it holds of each of them together with the objects around it and the objects that
are over before its position is reached. -/
theorem eachReferenceIn_iff {done : List (List String)} {around : List String}
    {members : List (String × Node)} :
    EachReferenceIn P done around members ↔
      ∀ position q r, placeAt? (placesIn around members) position = some q →
        q.node = .reference r →
          P (CompleteAt done (placesIn around members) position) q.around r := by
  rw [eachReferenceIn_iff_among]
  exact eachReferenceAmong_iff_of_forall (fun p _ => eachReference_iff_at? p) done

end

/-- A settled reference spells the path of an object of the schema. -/
theorem Schema.exists_object {s : Schema}
    (hrefs : EachReferenceIn Reference.IsSettled [] [] s.entries) {c : Place} {r : Reference}
    (hc : s.Has c) (hr : c.node = .reference r) :
    ∃ o, s.Has o ∧ o.node.isObject = true ∧ o.path = r.segments := by
  obtain ⟨position, hposition⟩ := hc
  have hsettled := eachReferenceIn_iff.mp hrefs position c r hposition hr
  rcases hsettled with hnone | ⟨earlier, o, ho, hobject, -, hpath⟩
  · cases hnone
  · exact ⟨o, ⟨earlier, ho⟩, hobject, hpath⟩

/-- A settled reference means an object of the schema. -/
theorem Schema.exists_target {s : Schema}
    (hrefs : EachReferenceIn Reference.IsSettled [] [] s.entries) {c : Place} {r : Reference}
    (hc : s.Has c) (hr : c.node = .reference r) :
    ∃ o, s.Has o ∧ o.node.isReference = false ∧ o.type = .ofPath r.segments := by
  obtain ⟨o, ho, hobject, hpath⟩ := s.exists_object hrefs hc hr
  exact ⟨o, ho, Node.isReference_of_isObject hobject, by rw [← hpath, Place.ofPath_path]⟩

end ConfigForge
