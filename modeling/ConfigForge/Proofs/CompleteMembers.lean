import ConfigForge.Proofs.Containment
import ConfigForge.Proofs.HeaderOrder

/-!
# Data members of complete types

A class holds its data members by value, so the class of a data member, or of the items of its
vector, has to be closed before the line of the data member. The data members of a class are its last
lines. By then the walk is over with the members, and with every object that they refer to; and the
header closes the classes in the order in which the walk completes the objects.

Results:

* `mem_memberLines_iff`: the data members of a header, each with what has been read before it.
* `memberLines_classLines`: the data members in the lines of a class.
* `MembersRead.object`: from the members of an object to the object.
* `membersRead_header`: the data members of a header.
* `class_closed_before_data_member`: the class of a data member is closed before the line of the data
  member.
-/

namespace ConfigForge

open Code (Line Placement PlacedFragment Fragment)
open Emit Cpp

/-! ## Data members among lines -/

/-- The line of a data member. -/
def dataMember (namespaces : List String) (type : QualifiedName) (name : String) : String :=
  type.absolute namespaces ++ " " ++ name ++ ";"

/-- Whether a line begins like that of a data member. -/
def isDataMember (line : String) : Bool :=
  (bare line).toList.head? == some ':'

/-- The data members among the lines, each with what has been read before it. Outside all classes
there are none. -/
def Outline.memberLines (o : Outline) : List String → List (Outline × String)
  | [] => []
  | line :: rest =>
    (if o.around ≠ [] ∧ isDataMember line = true then [(o, bare line)] else []) ++
      (o.read line).memberLines rest

theorem isDataMember_of_front {front : String} {c : Char} (h : front.toList.head? = some c)
    (hc : c ≠ ' ') (rest : String) : isDataMember (front ++ rest) = (c == ':') := by
  obtain ⟨cs, hchars⟩ := List.head?_eq_some_iff.mp h
  have hline : (front ++ rest).toList = c :: (cs ++ rest.toList) := by
    rw [String.toList_append, hchars, List.cons_append]
  rw [isDataMember, bare_of_head hline hc, hline, List.head?_cons]
  rfl

theorem not_isDataMember_of_not_mem {line : String} (h : ':' ∉ line.toList) :
    isDataMember line = false := by
  rw [isDataMember, beq_eq_false_iff_ne, bare, String.toList_ofList]
  intro hhead
  exact h ((List.dropWhile_sublist _).subset (List.mem_of_head? hhead))

/-- A line that opens or closes a class or declares a type is no data member. -/
theorem not_isDataMember_of_mark {line : String} (h : Mark.read line ≠ .plain) :
    isDataMember line = false := by
  rw [isDataMember, beq_eq_false_iff_ne]
  intro hhead
  obtain ⟨cs, hchars⟩ := List.head?_eq_some_iff.mp hhead
  have hmark : Mark.read (bare line) = .plain := Mark.read_of_head hchars (by decide)
  have hwords : words (bare line) = words line := by
    rw [words, bare_of_head hchars (by decide), words]
  rw [Mark.read, hwords] at hmark
  exact h hmark

theorem isDataMember_indent (levels : Nat) (line : String) :
    isDataMember (Code.indent levels line) = isDataMember line := by
  rw [isDataMember, bare_indent, isDataMember]

theorem isDataMember_dataMember (namespaces : List String) (type : QualifiedName) (name : String) :
    isDataMember (dataMember namespaces type name) = true := by
  rw [dataMember, QualifiedName.absolute]
  simp only [String.append_assoc]
  exact isDataMember_of_front (show "::".toList.head? = some ':' by decide) (by decide) _

theorem read_dataMember (namespaces : List String) (type : QualifiedName) (name : String) :
    Mark.read (dataMember namespaces type name) = .plain := by
  rw [dataMember, QualifiedName.absolute]
  simp only [String.append_assoc]
  exact Mark.read_of_front (by decide) _

theorem bare_dataMember (namespaces : List String) (type : QualifiedName) (name : String) :
    bare (dataMember namespaces type name) = dataMember namespaces type name := by
  rw [dataMember, QualifiedName.absolute]
  simp only [String.append_assoc]
  exact bare_append (by decide) (by decide) _

namespace Outline

variable {o : Outline}

theorem memberLines_cons_of_not {line : String} (h : isDataMember line = false)
    (rest : List String) : o.memberLines (line :: rest) = (o.read line).memberLines rest := by
  rw [memberLines, h]
  simp

theorem memberLines_append (lines more : List String) :
    o.memberLines (lines ++ more) = o.memberLines lines ++ (o.readAll lines).memberLines more := by
  induction lines generalizing o with
  | nil => rfl
  | cons line rest ih =>
    rw [List.cons_append, memberLines, ih, memberLines, readAll_cons, List.append_assoc]

theorem memberLines_eq_nil {lines : List String} (h : ∀ l ∈ lines, isDataMember l = false) :
    o.memberLines lines = [] := by
  induction lines generalizing o with
  | nil => rfl
  | cons line rest ih =>
    rw [List.forall_mem_cons] at h
    rw [memberLines_cons_of_not h.1, ih h.2]

theorem memberLines_indent (levels : Nat) (lines : List String) :
    o.memberLines (lines.map (Code.indent levels)) = o.memberLines lines := by
  induction lines generalizing o with
  | nil => rfl
  | cons line rest ih =>
    rw [List.map_cons, memberLines, isDataMember_indent, bare_indent, read_indent, ih, memberLines]

theorem readAll_plain {lines : List String} (h : ∀ l ∈ lines, Mark.read l = .plain) :
    o.readAll lines = o :=
  (Reads.plain (G := fun _ _ => True) h).result

theorem memberLines_of_members (ho : o.around ≠ []) {lines : List String}
    (h : ∀ l ∈ lines, Mark.read l = .plain ∧ isDataMember l = true ∧ bare l = l) :
    o.memberLines lines = lines.map fun l => (o, l) := by
  induction lines with
  | nil => rfl
  | cons line rest ih =>
    rw [List.forall_mem_cons] at h
    obtain ⟨⟨hplain, hmember, hbare⟩, hrest⟩ := h
    have hread : o.read line = o := by rw [read, hplain]
    rw [memberLines, hread, ih hrest, if_pos ⟨ho, hmember⟩, hbare]
    rfl

/-- Plain lines outside all classes. -/
theorem memberLines_outside (ho : o.around = []) {lines : List String}
    (h : ∀ l ∈ lines, Mark.read l = .plain) : o.memberLines lines = [] := by
  induction lines with
  | nil => rfl
  | cons line rest ih =>
    rw [List.forall_mem_cons] at h
    have hread : o.read line = o := by rw [read, h.1]
    rw [memberLines, hread, ih h.2, ho]
    simp

end Outline

/-- **Data members by their lines.** -/
theorem mem_memberLines_iff {o o' : Outline} {lines : List String} {text : String} :
    (o', text) ∈ o.memberLines lines ↔
      ∃ before line after, lines = before ++ line :: after ∧ o' = o.readAll before ∧
        o'.around ≠ [] ∧ isDataMember line = true ∧ text = bare line := by
  induction lines generalizing o with
  | nil => simp [Outline.memberLines]
  | cons first rest ih =>
    rw [Outline.memberLines, List.mem_append, ih]
    constructor
    · rintro (hfirst | ⟨before, line, after, rfl, hbefore, hline⟩)
      · split at hfirst
        · next hmember =>
          obtain ⟨rfl, rfl⟩ := Prod.mk.inj (List.mem_singleton.mp hfirst)
          exact ⟨[], first, rest, rfl, rfl, hmember.1, hmember.2, rfl⟩
        · cases hfirst
      · refine ⟨first :: before, line, after, rfl, ?_, hline⟩
        rw [Outline.readAll_cons]
        exact hbefore
    · rintro ⟨before, line, after, hsplit, hbefore, haround, hmember, rfl⟩
      cases before with
      | nil =>
        obtain ⟨rfl, rfl⟩ := List.cons.inj hsplit
        refine .inl ?_
        rw [Outline.readAll_nil] at hbefore
        rw [hbefore] at haround ⊢
        rw [if_pos ⟨haround, hmember⟩]
        exact List.mem_singleton.mpr rfl
      | cons head before =>
        obtain ⟨rfl, rfl⟩ := List.cons.inj hsplit
        rw [Outline.readAll_cons] at hbefore
        exact .inr ⟨before, line, after, rfl, hbefore, haround, hmember, rfl⟩

/-! ## Lines of a class -/

theorem not_isDataMember_prototypes {target : Target} {p : Placement}
    (hp : p.storage = "" ∨ p.storage = "static ") {type line : String}
    (h : line ∈ (prototypes target type).map (Line.fill p)) : isDataMember line = false := by
  obtain ⟨prototype, hprototype, rfl⟩ := List.mem_map.mp h
  obtain ⟨signature, hsignature, rfl⟩ := List.mem_map.mp hprototype
  obtain ⟨front, hfront, rest, hline⟩ := exists_prototype_front hp hsignature
  rw [hline]
  simp only [List.mem_cons, List.not_mem_nil, or_false] at hfront
  rcases hfront with rfl | rfl | rfl
  · exact isDataMember_of_front (show "static ".toList.head? = some 's' by decide)
      (by decide) _
  · exact isDataMember_of_front (show "void ".toList.head? = some 'v' by decide)
      (by decide) _
  · exact isDataMember_of_front (show "bool ".toList.head? = some 'b' by decide)
      (by decide) _

theorem not_isDataMember_methodDeclarations {type : String} (hcolon : ':' ∉ type.toList)
    {line : String} (h : line ∈ methodDeclarations type) : isDataMember line = false := by
  simp only [methodDeclarations, List.mem_cons, List.not_mem_nil, or_false] at h
  rcases h with rfl | rfl | rfl | rfl | rfl
  · refine not_isDataMember_of_not_mem ?_
    rw [String.toList_append, List.mem_append, not_or]
    exact ⟨hcolon, by decide⟩
  · simp only [String.append_assoc]
    exact isDataMember_of_front
      (show "bool operator==(const ".toList.head? = some 'b' by decide) (by decide) _
  · simp only [String.append_assoc]
    exact isDataMember_of_front
      (show "bool operator!=(const ".toList.head? = some 'b' by decide) (by decide) _
  · decide
  · decide

/-- The lines that stand for the data members of a class, and the hook behind them. -/
theorem dataMembers_eq (target : Target) (type : String) (path : List String)
    (members : List (String × Node)) :
    dataMembers target type (emitMembers target path members) =
      members.map (fun m => dataMember target.namespaces (m.2.provided path m.1) m.1) ++
        ["std::function<bool(const " ++ type ++ " &, const " ++ type ++ " &)> pre_update;"] := by
  rw [dataMembers, emitMembers_eq, List.map_map]
  refine congrArg (· ++ _) (List.map_congr_left fun m _ => ?_)
  rw [Function.comp_apply, dataMember, Node.emit_name]

/-- **Data members of a class.** The data members in the lines of a class are those in the lines of
its member types and then its own. The latter are read when the lines of the member types have
been. -/
theorem memberLines_classLines (target : Target) {type : String} (path : List String)
    (members : List (String × Node)) {placed : List PlacedFragment} {o : Outline}
    (hblank : ' ' ∉ type.toList) (hcolon : ':' ∉ type.toList) {nested : List String}
    (hnested : nested =
      placed.flatMap PlacedFragment.forward ++ placed.flatMap PlacedFragment.declarations)
    {inner : Outline} (hinner : inner = (o.read ("class " ++ type ++ " \x7b")).readAll nested)
    (haround : inner.around ≠ []) :
    o.memberLines (classLines target type (emitMembers target path members) placed) =
      (o.read ("class " ++ type ++ " \x7b")).memberLines nested ++
        members.map fun m =>
          (inner, dataMember target.namespaces (m.2.provided path m.1) m.1) := by
  have hopen : isDataMember ("class " ++ type ++ " \x7b") = false :=
    not_isDataMember_of_mark (by rw [Mark.read_open hblank]; exact Mark.noConfusion)
  have hclose : isDataMember "\x7d;" = false := by decide
  have hpublic : (o.read ("class " ++ type ++ " \x7b")).read " public:" =
      o.read ("class " ++ type ++ " \x7b") := by
    rw [Outline.read, show Mark.read " public:" = .plain by decide]
  -- Between the lines of the member types and the data members nothing happens.
  have hquiet : ∀ l ∈ (if nested.isEmpty then [] else [""]) ++ methodDeclarations type ++ [""],
      Mark.read l = .plain ∧ isDataMember l = false := by
    have hempty : Mark.read "" = .plain ∧ isDataMember "" = false := by decide
    simp only [List.mem_append, List.mem_singleton]
    rintro l ((hl | hl) | rfl)
    · split at hl
      · cases hl
      · rw [List.mem_singleton.mp hl]
        exact hempty
    · exact ⟨read_methodDeclarations hblank hl, not_isDataMember_methodDeclarations hcolon hl⟩
    · exact hempty
  have hown : inner.memberLines (dataMembers target type (emitMembers target path members)) =
      members.map fun m =>
        (inner, dataMember target.namespaces (m.2.provided path m.1) m.1) := by
    have hhook : isDataMember ("std::function<bool(const " ++ type ++ " &, const " ++ type ++
        " &)> pre_update;") = false := by
      simp only [String.append_assoc]
      exact isDataMember_of_front
        (show "std::function<bool(const ".toList.head? = some 's' by decide) (by decide) _
    rw [dataMembers_eq, Outline.memberLines_append,
      Outline.memberLines_eq_nil (List.forall_mem_singleton.mpr hhook), List.append_nil,
      Outline.memberLines_of_members haround, List.map_map]
    · rfl
    · intro l hl
      obtain ⟨m, -, rfl⟩ := List.mem_map.mp hl
      exact ⟨read_dataMember _ _ _, isDataMember_dataMember _ _ _, bare_dataMember _ _ _⟩
  have hlines : classLines target type (emitMembers target path members) placed =
      ("class " ++ type ++ " \x7b") :: " public:" ::
        ((nested ++ ((if nested.isEmpty then [] else [""]) ++ methodDeclarations type ++ [""]) ++
          dataMembers target type (emitMembers target path members)).map (Code.indent 1) ++
            ["\x7d;"]) := by
    rw [classLines, hnested]
    simp only [List.append_assoc, List.cons_append]
  rw [hlines, Outline.memberLines_cons_of_not hopen,
    Outline.memberLines_cons_of_not (by decide), hpublic, Outline.memberLines_append,
    Outline.memberLines_eq_nil (List.forall_mem_singleton.mpr hclose), List.append_nil,
    Outline.memberLines_indent, Outline.memberLines_append, Outline.memberLines_append,
    Outline.readAll_append, ← hinner, Outline.readAll_plain fun l hl => (hquiet l hl).1,
    Outline.memberLines_eq_nil fun l hl => (hquiet l hl).2, List.append_nil, hown]

theorem readAll_classLines (target : Target) {type : String} (members : List Member)
    {placed : List PlacedFragment} (o : Outline) (hblank : ' ' ∉ type.toList)
    {nested : List String} (hnested : nested =
      placed.flatMap PlacedFragment.forward ++ placed.flatMap PlacedFragment.declarations) :
    o.readAll (classLines target type members placed) =
      ((o.read ("class " ++ type ++ " \x7b")).readAll nested).read "\x7d;" := by
  rw [hnested]
  exact (reads_classLines (G := fun _ _ => True) hblank ⟨fun _ _ _ _ _ => trivial, rfl⟩).result

/-! ## Objects inside members -/

/-- The path of the object that a settled node holds: its own, that of the object it refers to, or
that of the object that the items of an array hold. -/
def Node.held? (around : List String) (name : String) : Node → Option (List String)
  | .scalar _ => none
  | .object _ => some (around ++ [name])
  | .array item _ => item.held? around (itemName name)
  | .reference r => some r.segments

theorem Place.completed_eq (p : Place) :
    p.completed = p.children.flatMap Place.completed ++
      if p.node.isObject then [p.path] else [] := by
  obtain ⟨around, name, node⟩ := p
  cases node with
  | scalar s => rfl
  | reference r => rfl
  | array item bounds =>
    rw [Place.children_array rfl, List.flatMap_singleton]
    exact (List.append_nil _).symm
  | object members =>
    rw [Place.children_object rfl, ← completedMembers_eq]
    rfl

/-- The object that a node holds is complete when the node is over. -/
theorem Node.held?_mem {node : Node} {done : List (List String)} {around path : List String}
    {name : String} (hrefs : node.EachReference Reference.IsSettled done around name)
    (h : node.held? around name = some path) : path ∈ done ++ node.completed around name := by
  induction node using Node.induction generalizing name with
  | scalar s => cases h
  | object members ih =>
    obtain rfl := Option.some.inj h
    exact List.mem_append_right _ (List.mem_append_right _ (List.mem_singleton.mpr rfl))
  | array item bounds ih => exact ih hrefs h
  | reference r =>
    obtain rfl := Option.some.inj h
    exact List.mem_append_left _ hrefs

/-- The object that one of several nodes holds is complete when they all are over. -/
theorem held?_mem_of_among {forest : List Place} {done : List (List String)} {path : List String}
    (hrefs : EachReferenceAmong Reference.IsSettled done forest) {p : Place} (hp : p ∈ forest)
    (h : p.node.held? p.around p.name = some path) :
    path ∈ done ++ forest.flatMap Place.completed := by
  induction forest generalizing done with
  | nil => cases hp
  | cons first forest ih =>
    rw [List.flatMap_cons, ← List.append_assoc]
    rcases List.mem_cons.mp hp with rfl | hp
    · exact List.mem_append_left _ (Node.held?_mem hrefs.1 h)
    · exact ih hrefs.2 hp

/-! ## Closed classes -/

/-- What has been read when the declarations of a scope begin or go on: the scope is open, and the
classes of the complete objects have been closed. -/
structure ClosedReady (done : List (List String)) (scope : List String) (o : Outline) : Prop where
  around : o.around = scope
  closed : ∀ path ∈ done, Event.closed (path.map typeName) ∈ o.events

namespace ClosedReady

variable {done : List (List String)} {scope : List String} {o : Outline}

theorem declare (h : ClosedReady done scope o) {line : String}
    (hline : ∃ type, Mark.read line = .declares type) : ClosedReady done scope (o.read line) := by
  obtain ⟨type, hline⟩ := hline
  rw [Outline.read, hline]
  exact ⟨h.around, fun path hpath => List.mem_append_left _ (h.closed path hpath)⟩

/-- Declarations of types close nothing. -/
theorem declareAll (h : ClosedReady done scope o) {lines : List String}
    (hlines : ∀ l ∈ lines, ∃ type, Mark.read l = .declares type) :
    ClosedReady done scope (o.readAll lines) := by
  induction lines generalizing o with
  | nil => exact h
  | cons line rest ih =>
    rw [List.forall_mem_cons] at hlines
    rw [Outline.readAll_cons]
    exact ih (h.declare hlines.1) hlines.2

/-- A class of the scope is opened. -/
theorem openClass (h : ClosedReady done scope o) {type : String} (hblank : ' ' ∉ type.toList) :
    ClosedReady done (scope ++ [type]) (o.read ("class " ++ type ++ " \x7b")) := by
  rw [Outline.read, Mark.read_open hblank, h.around]
  exact ⟨rfl, fun path hpath => List.mem_append_left _ (h.closed path hpath)⟩

/-- The innermost class is closed, and its object is complete. -/
theorem closeClass {p : Place} (h : ClosedReady done p.classPath o) :
    ClosedReady (done ++ [p.path]) p.scope (o.read "\x7d;") := by
  rw [Outline.read, Mark.read_close, h.around]
  refine ⟨List.dropLast_concat, fun path hpath => ?_⟩
  rcases List.mem_append.mp hpath with hpath | hpath
  · exact List.mem_append_left _ (h.closed path hpath)
  · rw [List.mem_singleton.mp hpath, Place.map_typeName_path]
    exact List.mem_append_right _ (List.mem_singleton.mpr rfl)

end ClosedReady

/-- Every forward declaration declares a type. -/
theorem read_forward_declares {target : Target} {placement : Placement} {p : Place}
    (hblank : ∀ q, p.Has q → ' ' ∉ (typeName q.name).toList) {line : String}
    (h : line ∈ ((p.node.emit target p.around p.name).fragment.place placement).forward) :
    ∃ type, Mark.read line = .declares type := by
  induction p using Place.induction with
  | step p ih =>
    obtain ⟨around, name, node⟩ := p
    have hname := hblank _ (Place.has_self _)
    cases node with
    | scalar s =>
      simp only [Node.emit, aliasFragment, Fragment.place, List.map_cons, List.map_nil,
        Line.fill_ofText, List.mem_singleton] at h
      rw [h]
      exact ⟨_, Mark.read_typedef _ hname⟩
    | reference r => simp [Node.emit, Fragment.empty, Fragment.place] at h
    | object members =>
      simp only [Node.emit, classFragment, Fragment.place, List.map_cons, List.map_nil,
        Line.fill_ofText, List.mem_singleton] at h
      rw [h]
      exact ⟨_, Mark.read_forward hname⟩
    | array item bounds =>
      have hitem : ⟨around, itemName name, item⟩ ∈
          (⟨around, name, .array item bounds⟩ : Place).children := by
        rw [Place.children_array rfl]
        exact List.mem_singleton.mpr rfl
      rw [Node.emit, vectorFragment, Fragment.place_append] at h
      rcases List.mem_append.mp h with h | h
      · exact ih _ hitem (fun q hq => hblank q (Place.has_of_child hitem hq)) h
      · simp only [Fragment.place, List.map_cons, List.map_nil, Line.fill_ofText,
          List.mem_singleton] at h
        rw [h]
        exact ⟨_, read_vectorTypedef target.namespaces _ hname⟩

/-! ## Data members of trees -/

/-- The entry is the data member for the member `m` of the object `q`, inside the class of `q`. -/
def IsMember (target : Target) (q : Place) (m : String × Node) (entry : Outline × String) : Prop :=
  entry.1.around = q.classPath ∧
    entry.2 = dataMember target.namespaces (m.2.provided q.path m.1) m.1

/-- What the declarations of trees show: the classes of all their objects are closed, every data
member belongs to a member of one of the objects and stands behind the class of the object that the
member holds, and every member has its data member. -/
structure MembersRead (target : Target) (done : List (List String)) (scope : List String)
    (forest : List Place) (o : Outline) (lines : List String) : Prop where
  ready : ClosedReady (done ++ forest.flatMap Place.completed) scope (o.readAll lines)
  each : ∀ entry ∈ o.memberLines lines, ∃ p ∈ forest, ∃ q members, p.Has q ∧
    q.node = .object members ∧ ∃ m ∈ members, IsMember target q m entry ∧
      ∀ path, m.2.held? q.path m.1 = some path →
        Event.closed (path.map typeName) ∈ entry.1.events
  all : ∀ p ∈ forest, ∀ q members, p.Has q → q.node = .object members → ∀ m ∈ members,
    ∃ entry ∈ o.memberLines lines, IsMember target q m entry

namespace MembersRead

variable {target : Target} {done : List (List String)} {scope : List String}
  {forest : List Place} {o : Outline} {lines : List String}

/-- Lines that belong to no tree: there is no data member among them. -/
theorem none (h : ClosedReady done scope (o.readAll lines)) (hlines : o.memberLines lines = []) :
    MembersRead target done scope [] o lines where
  ready := by rw [List.flatMap_nil, List.append_nil]; exact h
  each entry hentry := by rw [hlines] at hentry; cases hentry
  all p hp := by cases hp

theorem nil (h : ClosedReady done scope o) : MembersRead target done scope [] o [] :=
  none h rfl

/-- Declarations of types. -/
theorem declares (h : ClosedReady done scope o)
    (hlines : ∀ l ∈ lines, ∃ type, Mark.read l = .declares type) :
    MembersRead target done scope [] o lines := by
  refine none (h.declareAll hlines) (Outline.memberLines_eq_nil fun l hl => ?_)
  obtain ⟨type, htype⟩ := hlines l hl
  exact not_isDataMember_of_mark (by rw [htype]; exact Mark.noConfusion)

/-- Plain lines outside all classes. -/
theorem outside (h : ClosedReady done [] o) (hlines : ∀ l ∈ lines, Mark.read l = .plain) :
    MembersRead target done [] [] o lines := by
  refine none ?_ (Outline.memberLines_outside h.around hlines)
  rw [Outline.readAll_plain hlines]
  exact h

/-- Trees one after the other. -/
theorem append {more : List Place} {moreLines : List String}
    (h : MembersRead target done scope forest o lines)
    (h' : MembersRead target (done ++ forest.flatMap Place.completed) scope more (o.readAll lines)
      moreLines) :
    MembersRead target done scope (forest ++ more) o (lines ++ moreLines) where
  ready := by
    rw [List.flatMap_append, ← List.append_assoc, Outline.readAll_append]
    exact h'.ready
  each entry hentry := by
    rw [Outline.memberLines_append, List.mem_append] at hentry
    rcases hentry with hentry | hentry
    · obtain ⟨p, hp, hrest⟩ := h.each entry hentry
      exact ⟨p, List.mem_append_left _ hp, hrest⟩
    · obtain ⟨p, hp, hrest⟩ := h'.each entry hentry
      exact ⟨p, List.mem_append_right _ hp, hrest⟩
  all p hp q members hq hnode m hm := by
    rw [Outline.memberLines_append]
    rcases List.mem_append.mp hp with hp | hp
    · obtain ⟨entry, hentry, hmember⟩ := h.all p hp q members hq hnode m hm
      exact ⟨entry, List.mem_append_left _ hentry, hmember⟩
    · obtain ⟨entry, hentry, hmember⟩ := h'.all p hp q members hq hnode m hm
      exact ⟨entry, List.mem_append_right _ hentry, hmember⟩

/-- Trees behind lines that belong to no tree. -/
theorem behind {front : List String} (h : MembersRead target done scope [] o front)
    (h' : MembersRead target done scope forest (o.readAll front) lines) :
    MembersRead target done scope forest o (front ++ lines) := by
  have hbehind : MembersRead target (done ++ [].flatMap Place.completed) scope forest
      (o.readAll front) lines := by
    rw [List.flatMap_nil, List.append_nil]
    exact h'
  exact h.append hbehind

/-- Plain lines behind trees, outside all classes. -/
theorem append_outside {more : List String} (h : MembersRead target done [] forest o lines)
    (hplain : ∀ l ∈ more, Mark.read l = .plain) :
    MembersRead target done [] forest o (lines ++ more) := by
  have hboth := h.append (outside h.ready hplain)
  rwa [List.append_nil] at hboth

/-- Lines that leave the outline alone and hold no data member. -/
theorem append_quiet (h : MembersRead target done scope forest o lines) {more : List String}
    (hplain : ∀ l ∈ more, Mark.read l = .plain) (hmembers : ∀ l ∈ more, isDataMember l = false) :
    MembersRead target done scope forest o (lines ++ more) := by
  have hread : o.readAll (lines ++ more) = o.readAll lines := by
    rw [Outline.readAll_append, Outline.readAll_plain hplain]
  have hlines : o.memberLines (lines ++ more) = o.memberLines lines := by
    rw [Outline.memberLines_append, Outline.memberLines_eq_nil hmembers, List.append_nil]
  refine ⟨?_, ?_, ?_⟩
  · rw [hread]; exact h.ready
  · rw [hlines]; exact h.each
  · rw [hlines]; exact h.all

theorem paragraph (h : MembersRead target done scope forest o lines) :
    MembersRead target done scope forest o (paragraph lines) := by
  unfold ConfigForge.paragraph
  split
  · next hempty =>
    rw [List.isEmpty_iff.mp hempty] at h
    exact h
  · exact h.append_quiet (by decide) (by decide)

/-- From the nodes below to a node that is no object. -/
theorem of_children {p : Place} (hp : p.node.isObject = false)
    (h : MembersRead target done scope p.children o lines) :
    MembersRead target done scope [p] o lines where
  ready := by
    rw [List.flatMap_singleton, Place.completed_eq, hp]
    simpa using h.ready
  each entry hentry := by
    obtain ⟨c, hc, q, members, hq, hrest⟩ := h.each entry hentry
    exact ⟨p, List.mem_singleton.mpr rfl, q, members, Place.has_of_child hc hq, hrest⟩
  all p' hp' q members hq hnode m hm := by
    obtain rfl := List.mem_singleton.mp hp'
    rcases Place.has_iff.mp hq with rfl | ⟨c, hc, hq⟩
    · rw [hnode] at hp
      cases hp
    · exact h.all c hc q members hq hnode m hm

/-- **Objects.** From the members of an object to the object: its own data members come when the
classes of all objects that the members hold have been closed. -/
theorem object {p : Place} {members : List (String × Node)} (hnode : p.node = .object members)
    (hblank : ' ' ∉ p.type.name.toList) (hcolon : ':' ∉ p.type.name.toList)
    {placed : List PlacedFragment} {nested : List String}
    (hnested : nested =
      placed.flatMap PlacedFragment.forward ++ placed.flatMap PlacedFragment.declarations)
    (hrefs : EachReferenceAmong Reference.IsSettled done p.children)
    (h : MembersRead target done p.classPath p.children
      (o.read ("class " ++ p.type.name ++ " \x7b")) nested) :
    MembersRead target done p.scope [p] o
      (classLines target p.type.name (emitMembers target p.path members) placed) := by
  have hlines := memberLines_classLines target p.path members hblank hcolon hnested rfl
    (by rw [h.ready.around]; exact p.classPath_ne_nil)
  refine ⟨?_, ?_, ?_⟩
  · rw [readAll_classLines target _ o hblank hnested, List.flatMap_singleton, Place.completed_eq,
      if_pos (by rw [hnode]; rfl), ← List.append_assoc]
    exact h.ready.closeClass
  · intro entry hentry
    rw [hlines, List.mem_append] at hentry
    refine ⟨p, List.mem_singleton.mpr rfl, ?_⟩
    rcases hentry with hentry | hentry
    · obtain ⟨c, hc, q, inner, hq, hrest⟩ := h.each entry hentry
      exact ⟨q, inner, Place.has_of_child hc hq, hrest⟩
    · obtain ⟨m, hm, rfl⟩ := List.mem_map.mp hentry
      have hc : ⟨p.path, m.1, m.2⟩ ∈ p.children := by
        rw [Place.children_object hnode]
        exact mem_placesIn.mpr ⟨m, hm, rfl⟩
      exact ⟨p, members, p.has_self, hnode, m, hm, ⟨h.ready.around, rfl⟩, fun path hpath =>
        h.ready.closed path (held?_mem_of_among hrefs hc hpath)⟩
  · intro p' hp' q inner hq hinner m hm
    obtain rfl := List.mem_singleton.mp hp'
    rw [hlines]
    rcases Place.has_iff.mp hq with rfl | ⟨c, hc, hq⟩
    · obtain rfl : members = inner := Node.object.inj (hnode.symm.trans hinner)
      exact ⟨_, List.mem_append_right _ (List.mem_map.mpr ⟨m, hm, rfl⟩), h.ready.around, rfl⟩
    · obtain ⟨entry, hentry, hmember⟩ := h.all c hc q inner hq hinner m hm
      exact ⟨entry, List.mem_append_left _ hentry, hmember⟩

end MembersRead

/-- Trees one after the other, given what each of them shows. -/
theorem membersRead_forest {target : Target} {scope : List String} {forest : List Place}
    {lines : Place → List String}
    (step : ∀ p ∈ forest, ∀ done o, p.node.EachReference Reference.IsSettled done p.around p.name →
      ClosedReady done scope o → MembersRead target done scope [p] o (lines p))
    {done : List (List String)} {o : Outline}
    (hrefs : EachReferenceAmong Reference.IsSettled done forest) (hready : ClosedReady done scope o) :
    MembersRead target done scope forest o (forest.flatMap lines) := by
  induction forest generalizing done o with
  | nil => exact MembersRead.nil hready
  | cons p forest ih =>
    have hfirst := step p List.mem_cons_self done o hrefs.1 hready
    have hready' := hfirst.ready
    rw [List.flatMap_singleton] at hready'
    have hrest := ih (fun p hp => step p (List.mem_cons_of_mem _ hp)) hrefs.2 hready'
    rw [List.flatMap_cons]
    refine hfirst.append ?_
    rw [List.flatMap_singleton]
    exact hrest

section

variable {t : Schema} (target : Target)

/-- The declarations of a node where they are placed. -/
def Place.declarations (placement : Placement) (p : Place) : List String :=
  ((p.node.emit target p.around p.name).fragment.place placement).declarations

theorem Place.declarations_scalar (placement : Placement) {p : Place} {s : Scalar}
    (hnode : p.node = .scalar s) : p.declarations target placement =
      (prototypes target p.type.name).map (Line.fill placement) := by
  rw [declarations, hnode]
  rfl

theorem Place.declarations_reference (placement : Placement) {p : Place} {r : Reference}
    (hnode : p.node = .reference r) : p.declarations target placement = [] := by
  rw [declarations, hnode]
  rfl

theorem Place.declarations_array (placement : Placement) {p : Place} {item : Node}
    {bounds : ItemBounds} (hnode : p.node = .array item bounds) :
    p.declarations target placement =
      (⟨p.around, itemName p.name, item⟩ : Place).declarations target placement ++
        (prototypes target p.type.name).map (Line.fill placement) := by
  rw [declarations, hnode, Node.emit, vectorFragment, Fragment.place_append]
  rfl

theorem Place.declarations_object (placement : Placement) {p : Place}
    {members : List (String × Node)} (hnode : p.node = .object members) :
    p.declarations target placement =
      classLines target p.type.name (emitMembers target p.path members)
          (placedMembers target p.around p.name members) ++
        (prototypes target p.type.name).map (Line.fill placement) := by
  rw [declarations, hnode]
  exact object_declarations target placement p.around p.name members

/-- Inside the class of an object stand the declarations of its members. -/
theorem placed_declarations {p : Place} {members : List (String × Node)}
    (hnode : p.node = .object members) :
    (placedMembers target p.around p.name members).flatMap PlacedFragment.declarations =
      p.children.flatMap (Place.declarations target (memberPlacement p.type)) := by
  rw [placed_flatMap, Place.children_object hnode, placesIn, List.flatMap_map]
  rfl

theorem placed_forward_declares {p : Place} {members : List (String × Node)}
    (hnode : p.node = .object members)
    (hblank : ∀ q, p.Has q → ' ' ∉ (typeName q.name).toList) {line : String}
    (h : line ∈ (placedMembers target p.around p.name members).flatMap PlacedFragment.forward) :
    ∃ type, Mark.read line = .declares type := by
  rw [placed_flatMap] at h
  obtain ⟨m, hm, hline⟩ := List.mem_flatMap.mp h
  have hc : ⟨p.path, m.1, m.2⟩ ∈ p.children := by
    rw [Place.children_object hnode]
    exact mem_placesIn.mpr ⟨m, hm, rfl⟩
  have hbelow : ∀ q, (⟨p.path, m.1, m.2⟩ : Place).Has q → ' ' ∉ (typeName q.name).toList :=
    fun q hq => hblank q (Place.has_of_child hc hq)
  exact read_forward_declares hbelow hline

/-- **Declarations.** What the declarations of a node show. -/
theorem membersRead_declarations
    (hnames : ∀ q, t.Has q → ' ' ∉ (typeName q.name).toList ∧ ':' ∉ (typeName q.name).toList)
    {p : Place} (hhas : t.Has p) (placement : Placement)
    (hplacement : placement.storage = "" ∨ placement.storage = "static ")
    (done : List (List String)) (o : Outline)
    (hrefs : p.node.EachReference Reference.IsSettled done p.around p.name)
    (hready : ClosedReady done p.scope o) :
    MembersRead target done p.scope [p] o (p.declarations target placement) := by
  induction p using Place.induction generalizing placement done o with
  | step p ih =>
    have hname := hnames p hhas
    have hplain : ∀ l ∈ (prototypes target p.type.name).map (Line.fill placement),
        Mark.read l = .plain := fun l hl => read_prototypes hplacement hl
    have hquiet : ∀ l ∈ (prototypes target p.type.name).map (Line.fill placement),
        isDataMember l = false := fun l hl => not_isDataMember_prototypes hplacement hl
    have hamong := (eachReference_iff_children.mp hrefs).2
    cases hnode : p.node with
    | scalar s =>
      rw [Place.declarations_scalar target placement hnode, ← List.nil_append (List.map _ _)]
      refine MembersRead.of_children (by rw [hnode]; rfl) (MembersRead.append_quiet ?_ hplain hquiet)
      rw [Place.children, hnode]
      exact MembersRead.nil hready
    | reference r =>
      rw [Place.declarations_reference target placement hnode]
      refine MembersRead.of_children (by rw [hnode]; rfl) ?_
      rw [Place.children, hnode]
      exact MembersRead.nil hready
    | array item bounds =>
      rw [Place.declarations_array target placement hnode]
      refine MembersRead.of_children (by rw [hnode]; rfl) (MembersRead.append_quiet ?_ hplain hquiet)
      have hchildren := Place.children_array hnode
      rw [hchildren] at ih hamong ⊢
      have hitem := hhas.child (by rw [hchildren]; exact List.mem_singleton.mpr rfl)
      exact ih _ (List.mem_singleton.mpr rfl) hitem placement hplacement done o hamong.1 hready
    | object members =>
      have hstep : ∀ c ∈ p.children, ∀ done o,
          c.node.EachReference Reference.IsSettled done c.around c.name →
          ClosedReady done p.classPath o →
          MembersRead target done p.classPath [c] o
            (c.declarations target (memberPlacement p.type)) := by
        intro c hc done o hrefs hready
        rw [← Place.scope_of_mem_object hnode hc] at hready ⊢
        exact ih c hc (hhas.child hc) (memberPlacement p.type) (.inr rfl) done o hrefs hready
      have hopened := hready.openClass hname.1
      have hforward : ∀ l ∈ (placedMembers target p.around p.name members).flatMap
          PlacedFragment.forward, ∃ type, Mark.read l = .declares type := fun l hl =>
        placed_forward_declares target hnode (fun q hq => (hnames q (hhas.trans hq)).1) hl
      have hnested := (MembersRead.declares hopened hforward).behind
        (membersRead_forest hstep hamong (hopened.declareAll hforward))
      rw [Place.declarations_object target placement hnode]
      refine MembersRead.append_quiet ?_ hplain hquiet
      refine MembersRead.object hnode hname.1 hname.2 rfl hamong ?_
      rw [placed_declarations target hnode]
      exact hnested

end

/-! ## The header -/

/-- **Data members of a header.** What the header of a settled schema shows. -/
theorem membersRead_header {o : Options} {t : Schema} (ht : t.Admissible)
    (hrefs : EachReferenceIn Reference.IsSettled [] [] t.entries) :
    MembersRead o.target [] [] (placesIn [] t.entries) .start
      (headerLines o ((t.entries.map (unitOf o.target)).map fun e => e.2.fragment)) := by
  have hnames : ∀ q, t.Has q →
      ' ' ∉ (typeName q.name).toList ∧ ':' ∉ (typeName q.name).toList := by
    intro q hq
    constructor
    all_goals
      intro hmem
      exact absurd (typeName_isAlphanum (ht.isIdentifier_name hq) hmem) (by decide)
  have hroots : ∀ p ∈ placesIn [] t.entries, t.Has p := fun p hp =>
    Schema.has_iff.mpr ⟨p, hp, p.has_self⟩
  have hstart : ClosedReady [] [] Outline.start := ⟨rfl, nofun⟩
  have hfront : MembersRead o.target [] [] [] .start (headerFront o) :=
    MembersRead.outside hstart fun l hl => read_headerFront hl
  have hforward : MembersRead o.target [] [] [] (Outline.start.readAll (headerFront o))
      (paragraph (t.entries.flatMap fun m =>
        ((m.2.emit o.target [] m.1).fragment.place .topLevel).forward)) := by
    refine (MembersRead.declares hfront.ready fun l hl => ?_).paragraph
    obtain ⟨m, hm, hl⟩ := List.mem_flatMap.mp hl
    have hroot := hroots ⟨[], m.1, m.2⟩ (mem_placesIn.mpr ⟨m, hm, rfl⟩)
    have hblank : ∀ q, (⟨[], m.1, m.2⟩ : Place).Has q → ' ' ∉ (typeName q.name).toList :=
      fun q hq => (hnames q (hroot.trans hq)).1
    exact read_forward_declares hblank hl
  have hstep : ∀ p ∈ placesIn [] t.entries, ∀ done o',
      p.node.EachReference Reference.IsSettled done p.around p.name → ClosedReady done [] o' →
      MembersRead o.target done [] [p] o' (paragraph (p.declarations o.target .topLevel)) := by
    intro p hp done o' hrefs hready
    have hread := membersRead_declarations o.target hnames (hroots p hp) .topLevel (.inl rfl) done o'
      hrefs
    obtain ⟨m, -, rfl⟩ := mem_placesIn.mp hp
    exact (hread hready).paragraph
  have hboth := hfront.behind hforward
  have hbodies := membersRead_forest hstep (eachReferenceIn_iff_among.mp hrefs) hboth.ready
  rw [placesIn, List.flatMap_map] at hbodies
  rw [headerLines_eq]
  refine ((hboth.behind hbodies).append_outside ?_).append_outside ?_
  · exact fun l hl => read_closeNamespaces hl
  · intro l hl
    rw [List.mem_singleton.mp hl]
    exact Mark.read_of_front (by decide) _

/-! ## Which data member it is -/

/-- The name is the last word of the line. -/
theorem name_eq_of_dataMember_eq {namespaces : List String} {type type' : QualifiedName}
    {name name' : String} (hblank : ' ' ∉ name.toList) (hblank' : ' ' ∉ name'.toList)
    (h : dataMember namespaces type name = dataMember namespaces type' name') : name = name' := by
  have hlast : ∀ (type : QualifiedName) (name : String), ' ' ∉ name.toList →
      (Text.split ' ' (dataMember namespaces type name).toList).getLast? =
        some (name ++ ";").toList := by
    intro type name hblank
    have hword : ' ' ∉ (name ++ ";").toList := by
      rw [String.toList_append, List.mem_append, not_or]
      exact ⟨hblank, by decide⟩
    have hchars : (dataMember namespaces type name).toList =
        (type.absolute namespaces).toList ++ ' ' :: (name ++ ";").toList := by
      simp [dataMember, String.toList_append]
    rw [hchars, Text.split_append, Text.split_of_not_mem hword, List.getLast?_concat]
  have hwords := (hlast type name hblank).symm.trans ((congrArg _ (congrArg _ (congrArg _ h))).trans
    (hlast type' name' hblank'))
  exact String.toList_inj.mp (by simpa [String.toList_append] using hwords)

/-- Data members of one class with the same line are one data member. -/
theorem IsMember.eq {target : Target} {t : Schema} (ht : t.Admissible) {p q : Place}
    {members others : List (String × Node)} {m other : String × Node} {entry : Outline × String}
    (hp : t.Has p) (hq : t.Has q) (hpnode : p.node = .object members)
    (hqnode : q.node = .object others) (hm : m ∈ members) (hother : other ∈ others)
    (h : IsMember target p m entry) (h' : IsMember target q other entry) : p = q ∧ m = other := by
  have htype : p.type = q.type := Place.type_eq_of_classPath_eq (h.1.symm.trans h'.1)
  obtain rfl := ht.eq_of_type_eq hp hq (by rw [hpnode]; rfl) (by rw [hqnode]; rfl) htype
  obtain rfl := Node.object.inj (hpnode.symm.trans hqnode)
  have hblank : ∀ m ∈ members, ' ' ∉ m.1.toList := by
    intro m hm hmem
    have hword := all_isWordChar_of_isIdentifier (ht.members p members hp hpnode m hm).1 hmem
    revert hword
    decide
  have hname := name_eq_of_dataMember_eq (hblank m hm) (hblank other hother) (h.2.symm.trans h'.2)
  have hnodup := (ht.classes p members hp hpnode).1.sublist (memberNames_sublist members)
  exact ⟨rfl, List.inj_on_of_nodup_map hnodup hm hother hname⟩

/-! ## Classes are closed before data members -/

/-- How many arrays a node is, one as the item of the other. -/
def Node.nesting : Node → Nat
  | .array item _ => item.nesting + 1
  | _ => 0

theorem Node.nesting_settle (done : List (List String)) (around : List String) (name : String)
    (node : Node) : (node.settle done around name).nesting = node.nesting := by
  induction node using Node.induction generalizing name with
  | array item bounds ih => rw [Node.settle, Node.nesting, Node.nesting, ih]
  | _ => rfl

theorem Node.isObject_settle (done : List (List String)) (around : List String) (name : String)
    (node : Node) : (node.settle done around name).isObject = node.isObject := by
  cases node <;> rfl

/-- If the innermost item of a node provides the type of an object, the node holds that object. -/
theorem exists_held? {t : Schema} (ht : t.Admissible)
    (hrefs : EachReferenceIn Reference.IsSettled [] [] t.entries) {p c q : Place} (hp : t.Has p)
    (hc : p.at? (List.replicate p.node.nesting 0) = some c) (hq : t.Has q)
    (hobject : q.node.isObject = true) (h : c.provided = q.type) :
    ∃ path, p.node.held? p.around p.name = some path ∧ path.map typeName = q.classPath := by
  have hqref := Node.isReference_of_isObject hobject
  induction p using Place.induction with
  | step p ih =>
    obtain ⟨around, name, node⟩ := p
    cases node with
    | scalar s =>
      obtain rfl := Option.some.inj hc
      obtain rfl := ht.eq_of_type_eq hp hq rfl hqref h
      cases hobject
    | object members =>
      obtain rfl := Option.some.inj hc
      refine ⟨_, rfl, ?_⟩
      rw [← Place.classPath_eq_of_type_eq h]
      exact Place.map_typeName_path _
    | reference r =>
      obtain rfl := Option.some.inj hc
      obtain ⟨o, -, hnode, hpath⟩ := t.exists_object hrefs hp rfl
      refine ⟨_, rfl, ?_⟩
      rw [Place.provided_eq_of_path rfl hnode hpath,
        Place.provided_of_not_reference (Node.isReference_of_isObject hnode)] at h
      rw [← Place.classPath_eq_of_type_eq h, ← Place.map_typeName_path, hpath]
    | array item bounds =>
      have hitem : ⟨around, itemName name, item⟩ ∈
          (⟨around, name, .array item bounds⟩ : Place).children := by
        rw [Place.children_array rfl]
        exact List.mem_singleton.mpr rfl
      exact ih ⟨around, itemName name, item⟩ hitem (hp.child hitem) hc

/-- In the header of a settled schema the class of the object that a member holds is closed wherever
the data member stands. -/
theorem closed_before_data_member {o : Options} {t : Schema} (ht : t.Admissible)
    (hrefs : EachReferenceIn Reference.IsSettled [] [] t.entries) {p : Place}
    {members : List (String × Node)} {m : String × Node} (hp : t.Has p)
    (hnode : p.node = .object members) (hm : m ∈ members) {before after : List String}
    {line : String}
    (hsplit : headerLines o ((t.entries.map (unitOf o.target)).map fun e => e.2.fragment) =
      before ++ line :: after)
    (hline : IsMember o.target p m (Outline.start.readAll before, bare line)) {path : List String}
    (hheld : m.2.held? p.path m.1 = some path) :
    Event.closed (path.map typeName) ∈ (Outline.start.readAll before).events := by
  have hmember : isDataMember line = true := by
    have htext := isDataMember_dataMember o.namespaces (m.2.provided p.path m.1) m.1
    rw [isDataMember, bare_dataMember] at htext
    rw [isDataMember, show bare line = _ from hline.2]
    exact htext
  have haround : (Outline.start.readAll before).around ≠ [] := by
    rw [show _ = p.classPath from hline.1]
    exact p.classPath_ne_nil
  have hentry := mem_memberLines_iff.mpr
    ⟨before, line, after, hsplit, rfl, haround, hmember, rfl⟩
  obtain ⟨root, hroot, q, others, hq, hqnode, other, hother, hline', hclosed⟩ :=
    (membersRead_header ht hrefs).each _ hentry
  obtain ⟨rfl, rfl⟩ := IsMember.eq ht hp (Schema.has_iff.mpr ⟨root, hroot, hq⟩) hnode hqnode hm
    hother hline hline'
  exact hclosed path hheld

/-- **Classes before data members.** In a run that succeeds, every member of every object has its
data member inside the class of the object; and if the innermost item of the member yields the type
of an object, the class of that object has been closed wherever the data member stands. -/
theorem class_closed_before_data_member {o : Options} {s : Schema} {units : Entries CodeUnit}
    (h : generateUnits o.target s = .ok units) {position : List Nat} {p : Place}
    {members : List (String × Node)} {i : Nat} {m : String × Node}
    (hp : s.at? position = some p) (hnode : p.node = .object members)
    (hm : members[i]? = some m) :
    ∃ type, s.yields? o.target (position ++ [i]) = some type ∧
      (∃ before line after, headerLines o (units.map fun e => e.2.fragment) =
          before ++ line :: after ∧ (Outline.start.readAll before).around = p.classPath ∧
        bare line = dataMember o.namespaces type m.1) ∧
      ∀ before line after, headerLines o (units.map fun e => e.2.fragment) =
          before ++ line :: after → (Outline.start.readAll before).around = p.classPath →
        bare line = dataMember o.namespaces type m.1 →
        ∀ q, s.Has q → q.node.isObject = true →
          s.yields? o.target (position ++ i :: List.replicate m.2.nesting 0) = some q.type →
          Event.closed q.classPath ∈ (Outline.start.readAll before).events := by
  have hchild : s.at? (position ++ [i]) = some ⟨p.path, m.1, m.2⟩ := by
    rw [Schema.at?_append hp, Place.at?, Place.children_object hnode, placesIn, List.getElem?_map, hm]
    rfl
  obtain ⟨visit, -, -, hsettled, -⟩ := exists_visit h hp
  obtain ⟨visit', -, -, hsettled', -⟩ := exists_visit h hchild
  have hyields : s.yields? o.target (position ++ [i]) =
      some (Place.settle visit'.done ⟨p.path, m.1, m.2⟩).provided := by
    rw [yields?_eq h hchild, hsettled', Option.map_some]
  obtain ⟨hs, rfl⟩ := generateUnits_ok_iff.mp h
  obtain ⟨ht, hrefs⟩ := hs.settled
  -- The member in its settled form, at the same position.
  have hobject : (p.settle visit.done).node =
      .object (settleMembers visit.done p.path members) := by
    rw [Place.settle, hnode]
    rfl
  have hmember : (m.1, m.2.settle visit'.done p.path m.1) ∈
      settleMembers visit.done p.path members := by
    rw [Schema.at?_append hsettled] at hsettled'
    obtain ⟨c, hc, hsame⟩ := Option.bind_eq_some_iff.mp hsettled'
    rw [Place.children_object hobject] at hc
    obtain ⟨m', hm', rfl⟩ := mem_placesIn.mp (List.mem_of_getElem? hc)
    obtain ⟨-, hname, hsame⟩ := Place.mk.inj (Option.some.inj hsame)
    rwa [show m' = (m.1, m.2.settle visit'.done p.path m.1) from Prod.ext hname hsame] at hm'
  refine ⟨_, hyields, ?_, ?_⟩
  · obtain ⟨root, hroot, hhas⟩ := Schema.has_iff.mp ⟨position, hsettled⟩
    obtain ⟨⟨before, text⟩, hentry, haround, htext⟩ :=
      (membersRead_header ht hrefs).all root hroot _ _ hhas hobject _ hmember
    obtain ⟨before, line, after, hsplit, rfl, -, -, rfl⟩ := mem_memberLines_iff.mp hentry
    exact ⟨before, line, after, hsplit, haround, htext⟩
  · intro before line after hsplit haround hline q hq hqobject hinner
    obtain ⟨positionq, hq⟩ := hq
    obtain ⟨visitq, -, -, hqsettled, -⟩ := exists_visit h hq
    have hqnode : (q.settle visitq.done).node.isObject = true := by
      rw [Place.settle, Node.isObject_settle, hqobject]
    obtain ⟨c, hc, hprovided⟩ := exists_of_yields? h hinner
    have hsplitPosition : position ++ i :: List.replicate m.2.nesting 0 =
        (position ++ [i]) ++ List.replicate m.2.nesting 0 := by
      rw [List.append_assoc, List.singleton_append]
    rw [hsplitPosition, Schema.at?_append hsettled',
      ← Node.nesting_settle visit'.done p.path m.1 m.2] at hc
    obtain ⟨path, hheld, hpath⟩ := exists_held? ht hrefs ⟨_, hsettled'⟩ hc ⟨_, hqsettled⟩ hqnode
      hprovided
    have hclosed := closed_before_data_member ht hrefs ⟨position, hsettled⟩ hobject hmember hsplit
      ⟨haround, hline⟩ hheld
    rw [hpath] at hclosed
    exact hclosed

/-- A data member whose items are objects of the class around it. -/
theorem shadowExample_steps_closed :
    ∃ units before line after,
      generateUnits Options.default.target shadowExample = .ok units ∧
      headerLines .default (units.map fun e => e.2.fragment) = before ++ line :: after ∧
      bare line = dataMember [] ⟨["Path"], "Steps"⟩ "steps" ∧
      Event.closed ["Path", "Point"] ∈ (Outline.start.readAll before).events := by
  obtain ⟨units, h⟩ := Schema.generates_of_toBool
    (show (generateUnits Options.default.target shadowExample).toBool = true by decide)
  have hsteps : shadowExample.yields? Options.default.target [1, 1] =
      some ⟨["Path"], "Steps"⟩ := by decide
  have hpoint : shadowExample.yields? Options.default.target [1, 1, 0] =
      some ⟨["Path"], "Point"⟩ := by decide
  have hpath : shadowExample.at? [1] = some ⟨[], "path", .object
      [("point", .object [("y", .scalar (.bool none))]),
        ("steps", .array (.reference ⟨["point"]⟩) ⟨none, none⟩)]⟩ := rfl
  have hinner : shadowExample.Has ⟨["path"], "point", .object [("y", .scalar (.bool none))]⟩ :=
    ⟨[1, 0], rfl⟩
  have htypes : typeName "path" = "Path" ∧ typeName "point" = "Point" := by decide
  obtain ⟨type, htype, ⟨before, line, after, hsplit, haround, hline⟩, hclosed⟩ :=
    class_closed_before_data_member (i := 1) h hpath rfl rfl
  obtain rfl := Option.some.inj (hsteps.symm.trans htype)
  refine ⟨units, before, line, after, h, hsplit, hline, ?_⟩
  have hevent := hclosed before line after hsplit haround hline _ hinner rfl ?_
  · rw [Place.classPath, Place.type, Place.scope, List.map_singleton, htypes.1, htypes.2] at hevent
    exact hevent
  · rw [Place.type, Place.scope, List.map_singleton, htypes.1, htypes.2]
    exact hpoint

end ConfigForge
