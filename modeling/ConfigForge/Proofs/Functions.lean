import ConfigForge.Proofs.Admissible
import Mathlib.Data.List.Basic

/-!
# The functions of the generated code

Every node that is no reference has helper functions, and every object has methods besides. The
definitions in the generated code are those of all nodes, each node after the nodes below it.

Results:

* `mem_postorder_iff`: the nodes in the order of their definitions are all nodes.
* `definitions_eq`: the definitions in the code of a node are those of its functions.
-/

namespace ConfigForge

open Code (Line Placement Fragment PlacedFragment)
open Emit Cpp

/-! ## Nodes in the order of their definitions -/

mutual

/-- The nodes of a tree, each after the nodes below it. -/
def Node.postorder (around : List String) (name : String) : Node → List Place
  | .scalar s => [⟨around, name, .scalar s⟩]
  | .object members =>
    postorderMembers (around ++ [name]) members ++ [⟨around, name, .object members⟩]
  | .array item bounds =>
    item.postorder around (itemName name) ++ [⟨around, name, .array item bounds⟩]
  | .reference r => [⟨around, name, .reference r⟩]

/-- The nodes of several trees. -/
def postorderMembers (around : List String) : List (String × Node) → List Place
  | [] => []
  | (name, node) :: rest => node.postorder around name ++ postorderMembers around rest

end

/-- The nodes of a schema, each after the nodes below it. -/
def Schema.postorder (s : Schema) : List Place :=
  postorderMembers [] s.entries

theorem postorderMembers_eq (around : List String) (members : List (String × Node)) :
    postorderMembers around members = members.flatMap fun m => m.2.postorder around m.1 := by
  induction members with
  | nil => rfl
  | cons m rest ih => rw [postorderMembers, ih]; rfl

theorem Node.mem_postorder_iff {node : Node} {around : List String} {name : String} {q : Place} :
    q ∈ node.postorder around name ↔ (⟨around, name, node⟩ : Place).Has q := by
  induction node using Node.induction generalizing around name with
  | scalar s =>
    rw [Node.postorder, List.mem_singleton, Place.has_iff]
    simp [Place.children]
  | reference r =>
    rw [Node.postorder, List.mem_singleton, Place.has_iff]
    simp [Place.children]
  | array item bounds ih =>
    rw [Node.postorder, List.mem_append, List.mem_singleton, ih, or_comm,
      Place.has_iff (p := ⟨around, name, .array item bounds⟩), Place.children_array rfl]
    simp
  | object members ih =>
    rw [Node.postorder, List.mem_append, List.mem_singleton, postorderMembers_eq,
      List.mem_flatMap, or_comm, Place.has_iff, Place.children_object rfl]
    refine or_congr Iff.rfl ?_
    constructor
    · rintro ⟨m, hm, hq⟩
      exact ⟨_, mem_placesIn.mpr ⟨m, hm, rfl⟩, (ih m hm).mp hq⟩
    · rintro ⟨c, hc, hq⟩
      obtain ⟨m, hm, rfl⟩ := mem_placesIn.mp hc
      exact ⟨m, hm, (ih m hm).mpr hq⟩

/-- The nodes in the order of their definitions are all nodes. -/
theorem mem_postorder_iff {s : Schema} {q : Place} : q ∈ s.postorder ↔ s.Has q := by
  rw [Schema.postorder, postorderMembers_eq, List.mem_flatMap, Schema.has_iff]
  constructor
  · rintro ⟨m, hm, hq⟩
    exact ⟨_, mem_placesIn.mpr ⟨m, hm, rfl⟩, Node.mem_postorder_iff.mp hq⟩
  · rintro ⟨root, hroot, hq⟩
    obtain ⟨m, hm, rfl⟩ := mem_placesIn.mp hroot
    exact ⟨m, hm, Node.mem_postorder_iff.mpr hq⟩

/-! ## Functions -/

theorem forall_mem_toList_map {α β : Type} {P : β → Prop} {f : α → β} (h : ∀ a, P (f a))
    (o : Option α) : ∀ b ∈ (o.map f).toList, P b := by
  cases o with
  | none => exact List.forall_mem_nil _
  | some a => exact List.forall_mem_singleton.mpr (h a)

/-- The head of a definition with all slots filled. -/
theorem fill_head (s : Signature) (p : Placement) :
    s.head.fill p = s.resultText ++ p.scope ++ s.name ++ "(" ++
      (Signature.paramsLine s.params).fill p ++ ")" ++ s.constText ++ " \x7b" := by
  simp only [Signature.head, Line.fill_text, Line.fill_append, Line.fill_ofSlot, Line.fill_ofText,
    Placement.value, String.append_assoc]

namespace Emit

theorem fill_param (p : Placement) (q : Param) :
    ∃ front, q.line.fill p = front ++ (" " ++ q.mark ++ q.name) :=
  ⟨(Line.ofText (if q.isConst then "const " else "") ++ q.type.line).fill p, by
    rw [Param.line, Line.fill_text]⟩

/-- A head ends in what its last parameter ends in. -/
theorem ending_head (p : Placement) (s : Signature) (params : List Param) (last : Param)
    (hparams : s.params = params ++ [last]) {ending : String}
    (hending : ending = " " ++ last.mark ++ last.name ++ ")" ++ s.constText ++ " \x7b") :
    ending.toList <:+ (s.head.fill p).toList := by
  have hlast : ∃ front, (Signature.paramsLine s.params).fill p =
      front ++ (" " ++ last.mark ++ last.name) := by
    obtain ⟨front, hfront⟩ := fill_param p last
    rw [hparams]
    cases params with
    | nil => exact ⟨front, hfront⟩
    | cons q params =>
      refine ⟨(params.foldl (fun l q => l.text ", " ++ q.line) q.line).fill p ++ ", " ++ front, ?_⟩
      simp only [List.cons_append, Signature.paramsLine, List.foldl_append, List.foldl_cons,
        List.foldl_nil, Line.fill_append, Line.fill_text, hfront, String.append_assoc]
  obtain ⟨front, hfront⟩ := hlast
  refine ⟨(s.resultText ++ p.scope ++ s.name ++ "(" ++ front).toList, ?_⟩
  rw [fill_head, hfront, hending, ← String.toList_append]
  simp only [String.append_assoc]

/-- The lines of a body at a place. -/
def bodyLines (p : Placement) (body : List Block) : List String :=
  (body.flatMap Block.lines).map fun l => "  " ++ l.fill p

theorem fill_functionLines (p : Placement) (f : Function) :
    f.lines.map (Line.fill p) = f.signature.head.fill p :: bodyLines p f.body ++ ["\x7d", ""] := by
  have hempty : Line.empty.fill p = "" := rfl
  simp [Function.lines, bodyLines, indentLine, Code.indentUnit, hempty, Function.comp_def]

theorem head?_of_mem_bodyLines {p : Placement} {body : List Block} {l : String}
    (h : l ∈ bodyLines p body) : l.toList.head? = some ' ' := by
  obtain ⟨line, -, rfl⟩ := List.mem_map.mp h
  simp

end Emit

/-- A function of the generated code: the node it belongs to, and whether it is a method of the class
of the node or a helper of its type. -/
structure GeneratedFunction where
  place : Place
  isMethod : Bool
  function : Function

/-- Where the code of the types of a scope is placed. -/
def scopePlacement : List String → Placement
  | [] => .topLevel
  | c :: rest => .inClass (qualification (c :: rest))

namespace GeneratedFunction

/-- The classes in whose scope the body stands. -/
def inside (f : GeneratedFunction) : List String :=
  if f.isMethod then f.place.classPath else f.place.scope

/-- The lines of the definition. -/
def lines (f : GeneratedFunction) : List String :=
  f.function.lines.map (Line.fill (scopePlacement f.place.scope))

end GeneratedFunction

namespace Place

variable (target : Target)

/-- The bodies of the helpers of a node. -/
def bodies? (p : Place) : Option HelperBodies :=
  match p.node with
  | .scalar s => some (aliasBodies p.type.name s s.primitive)
  | .object members => some (classBodies target (emitMembers target p.path members))
  | .array item bounds =>
    some (vectorBodies target (item.provided p.around (itemName p.name)) bounds)
  | .reference _ => none

variable {target} in
/-- What holds of the bodies of each kind of node holds of all. -/
theorem bodies?_cases {p : Place} {bodies : HelperBodies} {P : HelperBodies → Prop}
    (hbodies : p.bodies? target = some bodies)
    (hscalar : ∀ s, p.node = .scalar s → P (aliasBodies p.type.name s s.primitive))
    (hobject : ∀ members, p.node = .object members →
      P (classBodies target (emitMembers target p.path members)))
    (harray : ∀ item bounds, p.node = .array item bounds →
      P (vectorBodies target (item.provided p.around (itemName p.name)) bounds)) : P bodies := by
  rw [bodies?] at hbodies
  cases hnode : p.node with
  | scalar s =>
    rw [hnode] at hbodies
    exact Option.some.inj hbodies ▸ hscalar s hnode
  | object members =>
    rw [hnode] at hbodies
    exact Option.some.inj hbodies ▸ hobject members hnode
  | array item bounds =>
    rw [hnode] at hbodies
    exact Option.some.inj hbodies ▸ harray item bounds hnode
  | reference r =>
    rw [hnode] at hbodies
    cases hbodies

/-- The methods of the class of a node. -/
def methods (p : Place) : List Function :=
  match p.node with
  | .object members =>
    Emit.methods target p.name p.type.name (emitMembers target p.path members)
  | _ => []

/-- The functions of a node. -/
def functions (p : Place) : List GeneratedFunction :=
  (p.methods target).map (⟨p, true, ·⟩) ++
    ((p.bodies? target).toList.flatMap (helperFunctions target p.type.name)).map (⟨p, false, ·⟩)

end Place

/-- The functions of a schema, in the order of their definitions. -/
def Schema.functions (target : Target) (s : Schema) : List GeneratedFunction :=
  s.postorder.flatMap (Place.functions target)

/-! ## The definitions in the code -/

theorem qualification_append (scope : List String) (name : String) :
    qualification (scope ++ [name]) = qualification scope ++ name ++ "::" := by
  induction scope with
  | nil => simp [qualification]
  | cons c rest ih =>
    rw [List.cons_append, qualification, ih, qualification]
    simp only [String.append_assoc]

theorem not_mem_qualification {c : Char} (hc : c ≠ ':') {scope : List String}
    (h : ∀ name ∈ scope, c ∉ name.toList) : c ∉ (qualification scope).toList := by
  induction scope with
  | nil => simp [qualification]
  | cons name rest ih =>
    rw [List.forall_mem_cons] at h
    simp [qualification, String.toList_append, h.1, ih h.2, hc]

theorem memberPlacement_eq (scope : List String) (name : String) :
    memberPlacement ⟨scope, name⟩ = scopePlacement (scope ++ [name]) := by
  have htext : (⟨scope, name⟩ : QualifiedName).typePath ++ "::" =
      qualification (scope ++ [name]) := by
    rw [qualification_append]
    rfl
  rw [memberPlacement, htext]
  cases scope with
  | nil => rfl
  | cons c rest => rfl

/-- The lines of the functions of a node. -/
theorem flatMap_functions_lines (target : Target) (p : Place) :
    (p.functions target).flatMap GeneratedFunction.lines =
      ((p.methods target ++ (p.bodies? target).toList.flatMap
        (helperFunctions target p.type.name)).flatMap Function.lines).map
          (Line.fill (scopePlacement p.scope)) := by
  rw [Place.functions, List.flatMap_append, List.flatMap_map, List.flatMap_map, List.flatMap_append,
    List.map_append, List.map_flatMap, List.map_flatMap]
  rfl

/-- **Definitions.** The definitions in the code of a node are those of the functions of the node and
of the nodes below it. -/
theorem definitions_eq (target : Target) (around : List String) (name : String) (node : Node) :
    ((node.emit target around name).fragment.place
        (scopePlacement (around.map typeName))).definitions =
      (node.postorder around name).flatMap fun q =>
        (q.functions target).flatMap GeneratedFunction.lines := by
  induction node using Node.induction generalizing around name with
  | scalar s =>
    rw [Node.postorder, List.flatMap_singleton, flatMap_functions_lines]
    rfl
  | reference r =>
    rw [Node.postorder, List.flatMap_singleton, flatMap_functions_lines]
    rfl
  | array item bounds ih =>
    rw [Node.postorder, List.flatMap_append, List.flatMap_singleton, flatMap_functions_lines,
      ← ih, Node.emit, vectorFragment, Fragment.place_append, Node.emit_name]
    rfl
  | object members ih =>
    rw [Node.postorder, List.flatMap_append, List.flatMap_singleton, flatMap_functions_lines,
      postorderMembers_eq, List.flatMap_assoc]
    have hmembers : (placedMembers target around name members).flatMap PlacedFragment.definitions =
        members.flatMap fun m => (m.2.postorder (around ++ [name]) m.1).flatMap fun q =>
          (q.functions target).flatMap GeneratedFunction.lines := by
      rw [placed_flatMap, memberPlacement_eq]
      refine List.flatMap_congr fun m hm => ?_
      rw [← ih m hm, List.map_append]
      rfl
    rw [← hmembers, Node.emit]
    simp only [classFragment, Fragment.place, List.map_append, List.map_map, Function.comp_def,
      Line.fill_ofText, List.map_id', placedMembers]
    rfl

theorem Schema.definitions_eq (target : Target) (s : Schema) :
    (s.entries.map (unitOf target)).flatMap (fun e => e.2.fragment.definitions) =
      (s.functions target).flatMap GeneratedFunction.lines := by
  rw [List.flatMap_map, Schema.functions, Schema.postorder, postorderMembers_eq, List.flatMap_assoc,
    List.flatMap_assoc]
  refine List.flatMap_congr fun e _ => ?_
  exact ConfigForge.definitions_eq target [] e.1 e.2

end ConfigForge
