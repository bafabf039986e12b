import ConfigForge.Proofs.ClassScopes
import ConfigForge.Proofs.Outline

/-!
# The order of a header

Forward declarations and typedefs stand before all class bodies of their scope. So a typedef of a
vector comes after everything that is declared directly in its scope or outside it, but before the
bodies of the classes beside it. Whether the item type can be named at that point depends on where
it is declared: not if it lies inside one of those classes.

Results:

* `reads_forward`: the forward declarations of a node declare its types, and nothing else.
* `reads_declarations`: the declarations of a node open and close the classes of its objects.
* `header_vectors_inOrder_iff`: a typedef of a vector stands behind the classes it goes through,
  unless its item type lies inside a class of the same scope.
* `vector_before_class`: a typedef that goes through a class that is only forward declared.
-/

namespace ConfigForge

open Code (Line Placement PlacedFragment Fragment)
open Emit Cpp

/-! ## Types in scope -/

/-- Whether a type can be named: the bodies of the classes it is declared in have been opened, and it
has been declared itself. -/
def Outline.Knows (o : Outline) (q : QualifiedName) : Prop :=
  (∀ k, 0 < k → k ≤ q.scope.length → Event.opened (q.scope.take k) ∈ o.events) ∧
    (Event.declared (q.scope ++ [q.name]) ∈ o.events ∨
      Event.opened (q.scope ++ [q.name]) ∈ o.events)

/-- Whether a type lies inside a class that is declared in the scope. -/
def Beneath (scope : List String) (q : QualifiedName) : Prop :=
  scope <+: q.scope ∧ scope ≠ q.scope

/-- The typedef of a vector. -/
def vectorTypedef (namespaces : List String) (item : QualifiedName) (type : String) : String :=
  "typedef std::vector< " ++ item.absolute namespaces ++ "> " ++ type ++ ";"

/-- The line is the typedef of an array of the schema, it stands in the scope of the array, and the
item type can be named there exactly if it does not lie inside a class of that scope. -/
def VectorInOrder (s : Schema) (namespaces : List String) (o : Outline) (line : String) : Prop :=
  ∃ p item bounds, s.Has p ∧ p.node = .array item bounds ∧
    line = vectorTypedef namespaces (item.provided p.around (itemName p.name)) p.type.name ∧
    o.around = p.scope ∧
    (o.Knows (item.provided p.around (itemName p.name)) ↔
      ¬ Beneath p.scope (item.provided p.around (itemName p.name)))

theorem ofPath_classPath {path : List String} (h : path ≠ []) :
    (QualifiedName.ofPath path).scope ++ [(QualifiedName.ofPath path).name] =
      path.map typeName := by
  obtain ⟨around, name, rfl⟩ : ∃ around name, path = around ++ [name] :=
    ⟨path.dropLast, path.getLast h, (List.dropLast_concat_getLast h).symm⟩
  rw [QualifiedName.ofPath_append, List.map_append]
  rfl

/-! ## Declared types -/

/-- The declarations of types in a scope. -/
def declaredIn (scope types : List String) : List Event :=
  types.map fun type => .declared (scope ++ [type])

theorem opened_mem_append_declaredIn {path scope types : List String} {events : List Event} :
    Event.opened path ∈ events ++ declaredIn scope types ↔ Event.opened path ∈ events := by
  simp [declaredIn]

theorem Outline.Knows.mono {o o' : Outline} {q : QualifiedName} (h : o.Knows q)
    (hsub : ∀ e ∈ o.events, e ∈ o'.events) : o'.Knows q := by
  refine ⟨fun k hpos hk => hsub _ (h.1 k hpos hk), ?_⟩
  rcases h.2 with h | h
  · exact .inl (hsub _ h)
  · exact .inr (hsub _ h)

/-! ## Forward declarations -/

/-- What has been read when the forward declarations of a scope begin or go on: the classes around
are open, no class of the scope is, and every complete object can be named unless it lies inside a
class of the scope. -/
structure ForwardReady (done : List (List String)) (scope : List String) (o : Outline) : Prop where
  around : o.around = scope
  openAround : ∀ k, 0 < k → k ≤ scope.length → Event.opened (scope.take k) ∈ o.events
  closedInside : ∀ c rest, Event.opened (scope ++ c :: rest) ∉ o.events
  knows : ∀ path ∈ done, ¬ Beneath scope (.ofPath path) → o.Knows (.ofPath path)

namespace ForwardReady

variable {done : List (List String)} {scope : List String} {o : Outline}

/-- A type that is declared in the scope can be named. -/
theorem knows_declared (h : ForwardReady done scope o) {type : String}
    (hdeclared : Event.declared (scope ++ [type]) ∈ o.events) : o.Knows ⟨scope, type⟩ :=
  ⟨h.openAround, .inl hdeclared⟩

/-- A type inside a class of the scope cannot be named. -/
theorem not_knows_beneath (h : ForwardReady done scope o) {q : QualifiedName}
    (hq : Beneath scope q) : ¬ o.Knows q := by
  rintro ⟨hopened, -⟩
  obtain ⟨⟨deeper, hscope⟩, hne⟩ := hq
  cases deeper with
  | nil => exact hne (by rw [← hscope, List.append_nil])
  | cons c rest =>
    have hlength : scope.length + 1 ≤ q.scope.length := by
      rw [← hscope, List.length_append, List.length_cons]
      omega
    have htake : q.scope.take (scope.length + 1) = scope ++ [c] := by
      rw [← hscope, List.take_length_add_append]
      rfl
    have hclass := hopened (scope.length + 1) (by omega) hlength
    rw [htake] at hclass
    exact h.closedInside c [] hclass

/-- Further declarations in the scope change nothing. -/
theorem declare (h : ForwardReady done scope o) (types : List String) :
    ForwardReady done scope ⟨o.around, o.events ++ declaredIn scope types⟩ where
  around := h.around
  openAround k hpos hk := List.mem_append_left _ (h.openAround k hpos hk)
  closedInside c rest hmem := h.closedInside c rest (opened_mem_append_declaredIn.mp hmem)
  knows path hpath hq := (h.knows path hpath hq).mono fun _ he => List.mem_append_left _ he

/-- Behind the forward declarations of a node its objects are as good as complete: they can be named
or lie inside a class of the scope. -/
theorem complete {around : List String} (h : ForwardReady done (around.map typeName) o)
    (name : String) (node : Node) :
    ForwardReady (done ++ node.completed around name) (around.map typeName)
      ⟨o.around, o.events ++ declaredIn (around.map typeName) (node.types name).reverse⟩ := by
  have hready := h.declare (node.types name).reverse
  refine { hready with knows := fun path hpath hq => ?_ }
  rcases List.mem_append.mp hpath with hpath | hpath
  · exact hready.knows path hpath hq
  · obtain ⟨first, rest, rfl, htype⟩ := Node.exists_of_mem_completed hpath
    rcases List.eq_nil_or_concat rest with rfl | ⟨middle, last, rfl⟩
    · rw [QualifiedName.ofPath_append]
      refine hready.knows_declared (List.mem_append_right _ ?_)
      exact List.mem_map.mpr ⟨_, List.mem_reverse.mpr htype, rfl⟩
    · -- the object lies inside the class of `first`
      refine absurd ⟨?_, ?_⟩ hq
      all_goals
        rw [show around ++ first :: middle.concat last =
            (around ++ first :: middle) ++ [last] by simp,
          QualifiedName.ofPath_append, List.map_append]
      · exact List.prefix_append _ _
      · intro heq
        have hlength := congrArg List.length heq
        simp at hlength

end ForwardReady

/-- The typedef of a vector as a typedef. -/
theorem vectorTypedef_eq (namespaces : List String) (item : QualifiedName) (type : String) :
    vectorTypedef namespaces item type =
      "typedef " ++ ("std::vector< " ++ item.absolute namespaces ++ ">") ++ " " ++ type ++ ";" := by
  have hfront : "typedef std::vector< " = "typedef " ++ "std::vector< " := by decide
  have hback : "> " = ">" ++ " " := by decide
  unfold vectorTypedef
  generalize item.absolute namespaces = path
  rw [hfront, hback]
  simp only [String.append_assoc, -String.reduceAppend]

theorem read_vectorTypedef (namespaces : List String) (item : QualifiedName) {type : String}
    (hblank : ' ' ∉ type.toList) :
    Mark.read (vectorTypedef namespaces item type) = .declares type := by
  rw [vectorTypedef_eq]
  exact Mark.read_typedef _ hblank

theorem bare_vectorTypedef (namespaces : List String) (item : QualifiedName) (type : String) :
    bare (vectorTypedef namespaces item type) = vectorTypedef namespaces item type := by
  have hfront : "typedef " = "typedef" ++ " " := by decide
  rw [vectorTypedef_eq, hfront]
  simp only [String.append_assoc, -String.reduceAppend]
  exact bare_append (by decide) (by decide) _

/-- What the forward declaration of a type leads to. -/
theorem read_declares {o : Outline} {line type : String} {scope : List String}
    (hline : Mark.read line = .declares type) (haround : o.around = scope) :
    o.read line = ⟨o.around, o.events ++ declaredIn scope [type]⟩ := by
  rw [Outline.read, hline, ← haround]
  rfl

/-- In the scope of an array the item type can be named exactly if it does not lie inside a class of
that scope. -/
theorem knows_item_iff {item : Node} {around : List String} {name : String}
    {done : List (List String)} {o : Outline}
    (hrefs : item.EachReference Reference.IsSettled done around (itemName name))
    (hready : ForwardReady done (around.map typeName) o)
    (hdeclared : ∀ type ∈ item.types (itemName name),
      Event.declared (around.map typeName ++ [type]) ∈ o.events) :
    o.Knows (item.provided around (itemName name)) ↔
      ¬ Beneath (around.map typeName) (item.provided around (itemName name)) := by
  constructor
  · intro hknows hbeneath
    exact hready.not_knows_beneath hbeneath hknows
  · intro hbeneath
    cases item with
    | reference r => exact hready.knows r.segments hrefs hbeneath
    | _ => exact hready.knows_declared (hdeclared _ (Node.own_type_mem_types rfl))

section

variable {s : Schema} (target : Target) (p : Placement)

/-- **Forward declarations.** The forward declarations of a node declare its types in its scope, the
item of an array before the array, and every typedef of a vector among them is in order. -/
theorem reads_forward {node : Node} {around : List String} {name : String}
    {done : List (List String)} {o : Outline}
    (hs : ∀ q, s.Has q → ' ' ∉ (typeName q.name).toList)
    (hhas : s.Has ⟨around, name, node⟩)
    (hrefs : node.EachReference Reference.IsSettled done around name)
    (hready : ForwardReady done (around.map typeName) o) :
    Reads (VectorInOrder s target.namespaces) o
      ((node.emit target around name).fragment.place p).forward
      ⟨o.around, o.events ++ declaredIn (around.map typeName) (node.types name).reverse⟩ := by
  have hblank := hs _ hhas
  induction node using Node.induction generalizing name o with
  | scalar sc =>
    simp only [Node.emit, aliasFragment, Fragment.place, List.map_cons, List.map_nil,
      Line.fill_ofText, Node.types, List.reverse_singleton]
    rw [← read_declares (Mark.read_typedef sc.primitive.cppName hblank) hready.around]
    exact Reads.other (isVectorTypedef_scalar _ _)
  | object members ih =>
    simp only [Node.emit, classFragment, Fragment.place, List.map_cons, List.map_nil,
      Line.fill_ofText, Node.types, List.reverse_singleton]
    rw [← read_declares (Mark.read_forward hblank) hready.around, String.append_assoc]
    exact Reads.other (isVectorTypedef_class _)
  | reference r =>
    simp only [Node.emit, Node.types, declaredIn, List.reverse_nil, List.map_nil, List.append_nil]
    exact Reads.nil
  | array item bounds ih =>
    have hitem : s.Has ⟨around, itemName name, item⟩ :=
      hhas.child (by rw [Place.children_array rfl]; exact List.mem_cons_self)
    have hfirst := ih hitem hrefs hready (hs _ hitem)
    have hready' := hready.declare (item.types (itemName name)).reverse
    rw [Node.emit, vectorFragment, Fragment.place_append]
    simp only [PlacedFragment.append, Fragment.place, List.map_cons, List.map_nil,
      Line.fill_ofText, Node.types, List.reverse_cons, Node.emit_name]
    refine hfirst.append ?_
    have hread := read_declares (o := ⟨o.around, o.events ++ declaredIn (around.map typeName)
      (item.types (itemName name)).reverse⟩) (read_vectorTypedef target.namespaces
        (item.provided around (itemName name)) hblank) hready'.around
    have hline : Reads (VectorInOrder s target.namespaces) _
        [vectorTypedef target.namespaces (item.provided around (itemName name)) (typeName name)]
        _ := Reads.line fun _ => ⟨⟨around, name, .array item bounds⟩, item, bounds, hhas, rfl,
          bare_vectorTypedef _ _ _, hready'.around, knows_item_iff hrefs hready' fun type htype => ?_⟩
    · rw [hread, List.append_assoc, declaredIn, declaredIn, ← List.map_append] at hline
      exact hline
    · refine List.mem_append_right _ (List.mem_map.mpr ⟨type, ?_, rfl⟩)
      exact List.mem_reverse.mpr htype

/-- The forward declarations of named nodes, one node after the other. -/
theorem reads_forwardMembers {members : List (String × Node)} {around : List String}
    {done : List (List String)} {o : Outline}
    (hs : ∀ q, s.Has q → ' ' ∉ (typeName q.name).toList)
    (hhas : ∀ m ∈ members, s.Has ⟨around, m.1, m.2⟩)
    (hrefs : EachReferenceIn Reference.IsSettled done around members)
    (hready : ForwardReady done (around.map typeName) o) :
    ∃ types, Reads (VectorInOrder s target.namespaces) o
      (members.flatMap fun m => ((m.2.emit target around m.1).fragment.place p).forward)
      ⟨o.around, o.events ++ declaredIn (around.map typeName) types⟩ := by
  induction members generalizing done o with
  | nil =>
    refine ⟨[], ?_⟩
    rw [declaredIn, List.map_nil, List.append_nil]
    exact Reads.nil
  | cons m rest ih =>
    obtain ⟨name, node⟩ := m
    rw [List.forall_mem_cons] at hhas
    have hfirst := reads_forward target p hs hhas.1 hrefs.1 hready
    obtain ⟨types, hrest⟩ := ih hhas.2 hrefs.2 (hready.complete name node)
    refine ⟨(node.types name).reverse ++ types, ?_⟩
    rw [List.flatMap_cons, declaredIn, List.map_append, ← List.append_assoc]
    exact hfirst.append hrest

end

/-! ## Class bodies -/

theorem take_ne_nil {path : List String} {k : Nat} (hpos : 0 < k) (hk : k ≤ path.length) :
    path.take k ≠ [] := by
  intro hnil
  have hlength := congrArg List.length hnil
  rw [List.length_take, List.length_nil] at hlength
  omega

/-- What has been read when the declarations of a scope begin or go on: the classes that have been
opened are those of the complete objects, with all classes around them, and the classes around the
scope, the scope included. -/
structure BodyReady (done : List (List String)) (scope : List String) (o : Outline) : Prop where
  around : o.around = scope
  opened_iff : ∀ path, Event.opened path ∈ o.events ↔
    (∃ d ∈ done, d.map typeName = path) ∨ path ≠ [] ∧ path <+: scope
  enclosing : ∀ d ∈ done, ∀ path, path ≠ [] → path <+: d.map typeName →
    Event.opened path ∈ o.events
  nonempty : ∀ d ∈ done, d ≠ []

namespace BodyReady

variable {done : List (List String)} {scope : List String} {o : Outline}

/-- Declarations of types open nothing. -/
theorem declare (h : BodyReady done scope o) (inner types : List String) :
    BodyReady done scope ⟨o.around, o.events ++ declaredIn inner types⟩ where
  around := h.around
  opened_iff path := by rw [opened_mem_append_declaredIn]; exact h.opened_iff path
  enclosing d hd path hne hpath := List.mem_append_left _ (h.enclosing d hd path hne hpath)
  nonempty := h.nonempty

/-- A class of the scope is opened. -/
theorem openClass (h : BodyReady done scope o) (type : String) :
    BodyReady done (scope ++ [type])
      ⟨scope ++ [type], o.events ++ [.opened (scope ++ [type])]⟩ where
  around := rfl
  opened_iff path := by
    rw [List.mem_append, List.mem_singleton, h.opened_iff, Event.opened.injEq,
      List.prefix_concat_iff, or_assoc]
    refine or_congr Iff.rfl ?_
    constructor
    · rintro (⟨hne, hpath⟩ | rfl)
      · exact ⟨hne, .inr hpath⟩
      · exact ⟨by simp, .inl rfl⟩
    · rintro ⟨hne, rfl | hpath⟩
      · exact .inr rfl
      · exact .inl ⟨hne, hpath⟩
  enclosing d hd path hne hpath := List.mem_append_left _ (h.enclosing d hd path hne hpath)
  nonempty := h.nonempty

/-- The innermost class is closed, and the object at `path` is complete. -/
theorem closeClass {type : String} {path : List String} (h : BodyReady done (scope ++ [type]) o)
    (hpath : path.map typeName = scope ++ [type]) :
    BodyReady (done ++ [path]) scope ⟨scope, o.events ++ [.closed (scope ++ [type])]⟩ where
  around := rfl
  opened_iff other := by
    rw [List.mem_append, List.mem_singleton, h.opened_iff, List.prefix_concat_iff]
    simp only [List.mem_append, List.mem_singleton, reduceCtorEq, or_false]
    constructor
    · rintro (⟨d, hd, hother⟩ | ⟨hother, rfl | hstart⟩)
      · exact .inl ⟨d, .inl hd, hother⟩
      · exact .inl ⟨path, .inr rfl, hpath⟩
      · exact .inr ⟨hother, hstart⟩
    · rintro (⟨d, hd | rfl, hother⟩ | ⟨hother, hstart⟩)
      · exact .inl ⟨d, hd, hother⟩
      · exact .inr ⟨by rw [← hother, hpath]; simp, .inl (by rw [← hother, hpath])⟩
      · exact .inr ⟨hother, .inr hstart⟩
  enclosing d hd other hother hstart := by
    refine List.mem_append_left _ ?_
    rcases List.mem_append.mp hd with hd | hd
    · exact h.enclosing d hd other hother hstart
    · rw [List.mem_singleton.mp hd, hpath] at hstart
      exact (h.opened_iff other).mpr (.inr ⟨hother, hstart⟩)
  nonempty d hd := by
    rcases List.mem_append.mp hd with hd | hd
    · exact h.nonempty d hd
    · rintro rfl
      rw [← List.mem_singleton.mp hd] at hpath
      simp at hpath

/-- At the start of a scope that holds no complete object, its forward declarations can begin. -/
theorem forward (h : BodyReady done scope o)
    (hfresh : ∀ d ∈ done, ¬ scope <+: d.map typeName) : ForwardReady done scope o where
  around := h.around
  openAround k hpos hk :=
    (h.opened_iff _).mpr (.inr ⟨take_ne_nil hpos hk, List.take_prefix k scope⟩)
  closedInside c rest hmem := by
    rcases (h.opened_iff _).mp hmem with ⟨d, hd, hpath⟩ | ⟨-, hstart⟩
    · exact hfresh d hd ⟨c :: rest, hpath.symm⟩
    · have hlength := hstart.length_le
      rw [List.length_append, List.length_cons] at hlength
      omega
  knows path hpath _ := by
    have hclass := ofPath_classPath (h.nonempty path hpath)
    refine ⟨fun k hpos hk => ?_, .inr ?_⟩
    · refine h.enclosing path hpath _ (take_ne_nil hpos hk) ?_
      rw [← hclass]
      exact (List.take_prefix _ _).trans (List.prefix_append _ _)
    · rw [hclass]
      exact (h.opened_iff _).mpr (.inl ⟨path, hpath, rfl⟩)

end BodyReady

/-- Whether no complete object is, or lies in, a class with one of the names. -/
def Fresh (done : List (List String)) (scope types : List String) : Prop :=
  ∀ type ∈ types, ∀ d ∈ done, ¬ scope ++ [type] <+: d.map typeName

/-- The objects of a node are in none of the classes with other names. -/
theorem Fresh.complete {done : List (List String)} {around types : List String} {name : String}
    {node : Node} (h : Fresh done (around.map typeName) types)
    (hother : ∀ type ∈ types, type ∉ node.types name) :
    Fresh (done ++ node.completed around name) (around.map typeName) types := by
  intro type htype d hd hstart
  rcases List.mem_append.mp hd with hd | hd
  · exact h type htype d hd hstart
  · obtain ⟨first, rest, rfl, hfirst⟩ := Node.exists_of_mem_completed hd
    rw [List.map_append, List.prefix_append_right_inj, List.map_cons, List.cons_prefix_cons] at hstart
    exact hother type htype (hstart.1 ▸ hfirst)

section

variable {s : Schema} (target : Target) (p : Placement)

/-- What is read from the declarations of a node, given what has been read before. -/
def ReadsDeclarations (s : Schema) (target : Target) (p : Placement) (around : List String)
    (name : String) (node : Node) : Prop :=
  ∀ done o, node.EachReference Reference.IsSettled done around name →
    BodyReady done (around.map typeName) o →
    Fresh done (around.map typeName) (node.types name) →
    ∃ o', Reads (VectorInOrder s target.namespaces) o
        ((node.emit target around name).fragment.place p).declarations o' ∧
      BodyReady (done ++ node.completed around name) (around.map typeName) o'

/-- The declarations of named nodes, one node after the other. -/
theorem reads_declarationsMembers {members : List (String × Node)} {around : List String}
    {done : List (List String)} {o : Outline} (wrap : List String → List String)
    (hwrap : ∀ {o o' : Outline} {lines : List String},
      Reads (VectorInOrder s target.namespaces) o lines o' →
      Reads (VectorInOrder s target.namespaces) o (wrap lines) o')
    (step : ∀ m ∈ members, ReadsDeclarations s target p around m.1 m.2)
    (hnodup : (memberTypes members).Nodup)
    (hrefs : EachReferenceIn Reference.IsSettled done around members)
    (hready : BodyReady done (around.map typeName) o)
    (hfresh : Fresh done (around.map typeName) (memberTypes members)) :
    ∃ o', Reads (VectorInOrder s target.namespaces) o
        (members.flatMap fun m =>
          wrap ((m.2.emit target around m.1).fragment.place p).declarations) o' ∧
      BodyReady (done ++ completedMembers around members) (around.map typeName) o' := by
  induction members generalizing done o with
  | nil =>
    rw [completedMembers, List.append_nil]
    exact ⟨o, Reads.nil, hready⟩
  | cons m rest ih =>
    obtain ⟨name, node⟩ := m
    rw [List.forall_mem_cons] at step
    rw [memberTypes, List.flatMap_cons] at hnodup hfresh
    obtain ⟨-, hrest, hdiff⟩ := List.nodup_append.mp hnodup
    obtain ⟨o₁, hfirst, hready₁⟩ := step.1 done o hrefs.1 hready
      fun type htype => hfresh type (List.mem_append_left _ htype)
    have hfresh₁ : Fresh (done ++ node.completed around name) (around.map typeName)
        (memberTypes rest) := by
      refine Fresh.complete (fun type htype => hfresh type (List.mem_append_right _ htype)) ?_
      exact fun type htype hmem => hdiff type hmem type htype rfl
    obtain ⟨o₂, hlater, hready₂⟩ := ih step.2 hrest hrefs.2 hready₁ hfresh₁
    rw [List.flatMap_cons, completedMembers, ← List.append_assoc]
    exact ⟨o₂, (hwrap hfirst).append hlater, hready₂⟩

theorem object_declarations (around : List String) (name : String)
    (members : List (String × Node)) :
    (((Node.object members).emit target around name).fragment.place p).declarations =
      classLines target (typeName name) (emitMembers target (around ++ [name]) members)
          (placedMembers target around name members) ++
        (prototypes target (typeName name)).map (Line.fill p) := by
  rw [Node.emit]
  simp only [classFragment, Fragment.place, List.map_append, List.map_map, Function.comp_def,
    Line.fill_ofText, List.map_id', placedMembers]

/-- **Declarations.** The declarations of a node open and close the classes of its objects, each
behind the classes of the objects before it. -/
theorem reads_declarations {node : Node} {around : List String} {name : String}
    (hs : ∀ q, s.Has q → ' ' ∉ (typeName q.name).toList)
    (htypes : ∀ q members, s.Has q → q.node = .object members → (memberTypes members).Nodup)
    (hp : p.storage = "" ∨ p.storage = "static ")
    (hhas : s.Has ⟨around, name, node⟩) : ReadsDeclarations s target p around name node := by
  induction node using Node.induction generalizing around name p with
  | scalar sc =>
    intro done o hrefs hready hfresh
    rw [Node.completed, List.append_nil]
    exact ⟨o, reads_prototypes target p hp, hready⟩
  | reference r =>
    intro done o hrefs hready hfresh
    rw [Node.completed, List.append_nil]
    exact ⟨o, Reads.nil, hready⟩
  | array item bounds ih =>
    intro done o hrefs hready hfresh
    have hitem : s.Has ⟨around, itemName name, item⟩ :=
      hhas.child (by rw [Place.children_array rfl]; exact List.mem_cons_self)
    obtain ⟨o₁, hread, hready₁⟩ := ih p hp hitem done o hrefs hready
      fun type htype => hfresh type (List.mem_cons_of_mem _ htype)
    refine ⟨o₁, ?_, hready₁⟩
    rw [Node.emit, vectorFragment, Fragment.place_append]
    exact hread.append (reads_prototypes target p hp)
  | object members ih =>
    intro done o hrefs hready hfresh
    have hmember : ∀ m ∈ members, s.Has ⟨around ++ [name], m.1, m.2⟩ := fun m hm =>
      hhas.child (by rw [Place.children_object rfl]; exact mem_placesIn.mpr ⟨m, hm, rfl⟩)
    have hscope : (around ++ [name]).map typeName = around.map typeName ++ [typeName name] := by
      rw [List.map_append]
      rfl
    have hopen : o.read ("class " ++ typeName name ++ " \x7b") =
        ⟨around.map typeName ++ [typeName name],
          o.events ++ [.opened (around.map typeName ++ [typeName name])]⟩ := by
      rw [Outline.read, Mark.read_open (hs _ hhas), hready.around]
    have hfreshHere : ∀ d ∈ done, ¬ (around ++ [name]).map typeName <+: d.map typeName := by
      rw [hscope]
      exact hfresh (typeName name) List.mem_cons_self
    have hready₁ := hready.openClass (typeName name)
    rw [← hopen, ← hscope] at hready₁
    obtain ⟨types, hforward⟩ := reads_forwardMembers target
      (memberPlacement ⟨around.map typeName, typeName name⟩) hs hmember hrefs
      (hready₁.forward hfreshHere)
    have hready₂ := hready₁.declare ((around ++ [name]).map typeName) types
    have hfreshInside : Fresh done ((around ++ [name]).map typeName) (memberTypes members) :=
      fun type _ d hd hstart => hfreshHere d hd ((List.prefix_append _ _).trans hstart)
    obtain ⟨o₃, hbodies, hready₃⟩ := reads_declarationsMembers target
      (memberPlacement ⟨around.map typeName, typeName name⟩) id id
      (fun m hm => ih m hm _ (.inr rfl) (hmember m hm)) (htypes _ members hhas rfl) hrefs hready₂
      hfreshInside
    have hclose : o₃.read "\x7d;" = ⟨around.map typeName,
        o₃.events ++ [.closed (around.map typeName ++ [typeName name])]⟩ := by
      rw [Outline.read, Mark.read_close, hready₃.around, hscope, List.dropLast_concat]
    have hnested := hforward.append hbodies
    rw [hscope] at hready₃
    have hready₄ := hready₃.closeClass hscope
    rw [← hclose, List.append_assoc] at hready₄
    refine ⟨_, ?_, hready₄⟩
    rw [object_declarations]
    refine (reads_classLines (hs _ hhas) ?_).append (reads_prototypes target p hp)
    rw [placed_flatMap, placed_flatMap]
    exact hnested

end

/-! ## The header -/

/-- The header in parts: what stands before the declarations, all forward declarations, the
declarations of one entry after the other, and the end. -/
theorem headerLines_eq (o : Options) (t : Schema) :
    headerLines o ((t.entries.map (unitOf o.target)).map fun e => e.2.fragment) =
      headerFront o ++
        paragraph (t.entries.flatMap fun m =>
          ((m.2.emit o.target [] m.1).fragment.place .topLevel).forward) ++
        t.entries.flatMap (fun m =>
          paragraph ((m.2.emit o.target [] m.1).fragment.place .topLevel).declarations) ++
        closeNamespaces o.namespaces ++ ["#endif  // " ++ o.includeGuard] := by
  rw [headerLines, headerFront, List.map_map, List.flatMap_map, List.flatMap_map]
  rfl

/-- The header of a settled schema, read from the first line to the last. -/
theorem reads_header {o : Options} {t : Schema} (ht : t.Admissible)
    (hrefs : EachReferenceIn Reference.IsSettled [] [] t.entries) :
    ∃ o', Reads (VectorInOrder t o.namespaces) .start
      (headerLines o ((t.entries.map (unitOf o.target)).map fun e => e.2.fragment)) o' := by
  have hs : ∀ q, t.Has q → ' ' ∉ (typeName q.name).toList := fun q hq hblank =>
    absurd (typeName_isAlphanum (ht.isIdentifier_name hq) hblank) (by decide)
  have htypes : ∀ q members, t.Has q → q.node = .object members → (memberTypes members).Nodup :=
    fun q members hq hnode => (ht.classes q members hq hnode).1.sublist (memberTypes_sublist members)
  have houter : (memberTypes t.entries).Nodup := ht.outermost.sublist t.types_sublist
  have hhas : ∀ m ∈ t.entries, t.Has ⟨[], m.1, m.2⟩ := fun m hm =>
    Schema.has_iff.mpr ⟨_, mem_placesIn.mpr ⟨m, hm, rfl⟩, Place.has_self _⟩
  have hready : BodyReady [] [] Outline.start := ⟨rfl, by simp [Outline.start], nofun, nofun⟩
  obtain ⟨types, hforward⟩ := reads_forwardMembers o.target .topLevel hs hhas hrefs
    (hready.forward nofun)
  obtain ⟨o', hbodies, -⟩ := reads_declarationsMembers o.target .topLevel paragraph Reads.paragraph
    (fun m hm => reads_declarations o.target .topLevel hs htypes (.inl rfl) (hhas m hm)) houter hrefs
    (hready.declare [] types) nofun
  refine ⟨o', ?_⟩
  rw [headerLines_eq]
  refine (((Reads.append (Reads.plain ?_) hforward.paragraph).append hbodies).append_plain
    ?_).append_plain ?_
  · exact fun l hl => read_headerFront hl
  · exact fun l hl => read_closeNamespaces hl
  · intro l hl
    rw [List.mem_singleton.mp hl]
    exact Mark.read_of_front (by decide) _

/-! ## Every array has its typedef -/

theorem indent_mem_classLines {target : Target} {type line : String} {members : List Member}
    {placed : List PlacedFragment}
    (h : line ∈ placed.flatMap PlacedFragment.forward ++
      placed.flatMap PlacedFragment.declarations) :
    Code.indent 1 line ∈ classLines target type members placed := by
  rw [classLines]
  refine List.mem_append_left _ (List.mem_cons_of_mem _ (List.mem_cons_of_mem _ ?_))
  refine List.mem_map.mpr ⟨line, ?_, rfl⟩
  exact List.mem_append_left _ (List.mem_append_left _ (List.mem_append_left _
    (List.mem_append_left _ h)))

/-- The typedef of an array is among the lines of every tree that has the array. -/
theorem Place.Has.exists_vectorTypedef {root p : Place} {item : Node} {bounds : ItemBounds}
    (target : Target) (h : root.Has p) (hnode : p.node = .array item bounds) (place : Placement) :
    ∃ line,
      bare line = vectorTypedef target.namespaces (item.provided p.around (itemName p.name))
        p.type.name ∧
      (line ∈ ((root.node.emit target root.around root.name).fragment.place place).forward ∨
        line ∈
          ((root.node.emit target root.around root.name).fragment.place place).declarations) := by
  induction root using Place.induction generalizing place with
  | step root ih =>
    obtain ⟨around, name, node⟩ := root
    rcases Place.has_iff.mp h with rfl | ⟨c, hc, hcp⟩
    · change node = _ at hnode
      subst hnode
      refine ⟨_, bare_vectorTypedef _ _ _, .inl ?_⟩
      simp only [Node.emit, vectorFragment, Fragment.place, Fragment.append, List.map_append,
        List.map_cons, List.map_nil, Line.fill_ofText, Node.emit_name]
      exact List.mem_append_right _ List.mem_cons_self
    · cases node with
      | scalar s => simp [Place.children] at hc
      | reference r => simp [Place.children] at hc
      | array inner innerBounds =>
        rw [Place.children_array rfl, List.mem_singleton] at hc
        subst hc
        obtain ⟨line, hline, hmem⟩ := ih _ (by rw [Place.children_array rfl]; simp) hcp place
        refine ⟨line, hline, ?_⟩
        rw [Node.emit, vectorFragment, Fragment.place_append]
        exact hmem.imp (List.mem_append_left _) (List.mem_append_left _)
      | object members =>
        have hmember := hc
        rw [Place.children_object rfl] at hmember
        obtain ⟨m, hm, rfl⟩ := mem_placesIn.mp hmember
        obtain ⟨line, hline, hmem⟩ := ih _ hc hcp
          (memberPlacement ⟨around.map typeName, typeName name⟩)
        refine ⟨Code.indent 1 line, by rw [bare_indent, hline], .inr ?_⟩
        have hnested : line ∈ (placedMembers target around name members).flatMap
              PlacedFragment.forward ++
            (placedMembers target around name members).flatMap PlacedFragment.declarations := by
          rw [placed_flatMap, placed_flatMap]
          exact List.mem_append.mpr (hmem.imp (fun h => List.mem_flatMap.mpr ⟨m, hm, h⟩)
            fun h => List.mem_flatMap.mpr ⟨m, hm, h⟩)
        change _ ∈ (((Node.object members).emit target around name).fragment.place place).declarations
        rw [object_declarations]
        exact List.mem_append_left _ (indent_mem_classLines hnested)

theorem mem_headerLines_of_mem_unit {o : Options} {units : List PlacedFragment}
    {unit : PlacedFragment} {line : String} (hunit : unit ∈ units)
    (h : line ∈ unit.forward ∨ line ∈ unit.declarations) : line ∈ headerLines o units := by
  have hparagraph : ∀ lines : List String, line ∈ lines → line ∈ paragraph lines := by
    intro lines hmem
    unfold paragraph
    rw [if_neg (by simp [List.ne_nil_of_mem hmem])]
    exact List.mem_append_left _ hmem
  rw [headerLines]
  refine List.mem_append_left _ (List.mem_append_left _ ?_)
  rcases h with h | h
  · refine List.mem_append_left _ (List.mem_append_right _ (hparagraph _ ?_))
    exact List.mem_flatMap.mpr ⟨unit, hunit, h⟩
  · exact List.mem_append_right _ (List.mem_flatMap.mpr ⟨unit, hunit, hparagraph _ h⟩)

/-- **Vectors in the header.** Every typedef of a vector in the header belongs to an array of the
schema and stands in the scope of the array. When it is reached, all classes around its item type
have been opened and the item type has been declared, exactly if the item type does not lie inside a
class that is declared in that scope. Every array has its typedef. -/
theorem header_vectors_inOrder_iff {o : Options} {s : Schema} {units : Entries CodeUnit}
    (h : generateUnits o.target s = .ok units) :
    (∀ before line after, headerLines o (units.map fun e => e.2.fragment) = before ++ line :: after →
      isVectorTypedef line = true →
      VectorInOrder s.settled o.namespaces (Outline.start.readAll before) (bare line)) ∧
    ∀ p item bounds, s.settled.Has p → p.node = .array item bounds →
      ∃ line ∈ headerLines o (units.map fun e => e.2.fragment),
        bare line =
          vectorTypedef o.namespaces (item.provided p.around (itemName p.name)) p.type.name := by
  obtain ⟨hs, rfl⟩ := generateUnits_ok_iff.mp h
  obtain ⟨hsettled, hrefs⟩ := hs.settled
  refine ⟨fun before line after hsplit hline => ?_, fun p item bounds hp hnode => ?_⟩
  · obtain ⟨o', hreads⟩ := reads_header hsettled hrefs
    exact hreads.each before line after hsplit hline
  · obtain ⟨root, hroot, hhas⟩ := Schema.has_iff.mp hp
    obtain ⟨entry, hentry, rfl⟩ := mem_placesIn.mp hroot
    obtain ⟨line, hline, hmem⟩ := hhas.exists_vectorTypedef o.target hnode .topLevel
    refine ⟨line, mem_headerLines_of_mem_unit ?_ hmem, hline⟩
    rw [List.map_map]
    exact List.mem_map.mpr ⟨entry, hentry, rfl⟩

/-- An array inside a class whose items are objects declared before the class. -/
def outerItemExample : Schema :=
  ⟨[("point", .object []),
    ("path", .object [("steps", .array (.reference ⟨["point"]⟩) ⟨none, none⟩)])]⟩

theorem outerItemExample_vector :
    ∃ units, generateUnits Options.default.target outerItemExample = .ok units ∧
      ∃ line ∈ headerLines .default (units.map fun e => e.2.fragment),
        bare line = vectorTypedef [] ⟨[], "Point"⟩ "Steps" := by
  obtain ⟨units, h⟩ := Schema.generates_of_toBool
    (show (generateUnits Options.default.target outerItemExample).toBool = true by decide)
  have hplace : outerItemExample.settled.Has
      ⟨["path"], "steps", .array (.reference ⟨["point"]⟩) ⟨none, none⟩⟩ := ⟨[1, 0], rfl⟩
  obtain ⟨line, hmem, hline⟩ := (header_vectors_inOrder_iff h).2 _ _ _ hplace rfl
  have hpoint : QualifiedName.ofPath ["point"] = ⟨[], "Point"⟩ := by decide
  have hsteps : typeName "steps" = "Steps" := by decide
  refine ⟨units, h, line, hmem, ?_⟩
  rw [← hpoint, ← hsteps]
  exact hline

/-- An array beside an object, whose items are objects inside that object. -/
def innerItemExample : Schema :=
  ⟨[("outer", .object [("inner", .object [])]),
    ("list", .array (.reference ⟨["outer", "inner"]⟩) ⟨none, none⟩)]⟩

/-- The header of that schema. -/
def innerItemHeader : List String :=
  headerLines .default
    ((innerItemExample.settled.entries.map (unitOf Options.default.target)).map fun e => e.2.fragment)

/-- The typedef goes through a class whose body comes later. -/
theorem vector_before_class :
    ∃ units before line after,
      generateUnits Options.default.target innerItemExample = .ok units ∧
      headerLines .default (units.map fun e => e.2.fragment) = before ++ line :: after ∧
      bare line = vectorTypedef [] ⟨["Outer"], "Inner"⟩ "List" ∧
      Event.opened ["Outer"] ∉ (Outline.start.readAll before).events := by
  have hok : (generateUnits Options.default.target innerItemExample).toBool = true := by
    decide
  obtain ⟨units, h⟩ := Schema.generates_of_toBool hok
  obtain ⟨-, rfl⟩ := generateUnits_ok_iff.mp h
  have hheader : (innerItemHeader.drop 14).head?.map bare =
        some (vectorTypedef [] ⟨["Outer"], "Inner"⟩ "List") ∧
      Event.opened ["Outer"] ∉ (Outline.start.readAll (innerItemHeader.take 14)).events := by
    decide +kernel
  obtain ⟨line, hfirst, hline⟩ := Option.map_eq_some_iff.mp hheader.1
  obtain ⟨after, hafter⟩ := List.head?_eq_some_iff.mp hfirst
  refine ⟨_, innerItemHeader.take 14, line, after, h, ?_, hline, hheader.2⟩
  rw [← hafter, List.take_append_drop]
  rfl

end ConfigForge
