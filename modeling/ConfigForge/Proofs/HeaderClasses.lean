import ConfigForge.Proofs.CompleteMembers

/-!
# The classes of a header

Read line by line, a header opens one class for every object of the schema, inside the classes of
the objects around it, and nothing else opens a class. An object comes before the objects inside it.
The data members of a class come behind everything that stands inside it, so they are in the other
order.

Results:

* `Outline.classOpenings_classLines`: which classes the lines of a class open.
* `Outline.Shows.object`: from the members of an object to the object.
* `shows_header`: the classes and the data members of a header, in the order of its lines.
* `memberClassPaths_settleMembers`: the classes are those of the schema as it is written.
* `length_filter_opens`: the lines `class X {` are as many as the classes `X` that are opened.
-/

namespace ConfigForge

open Code (Line Placement PlacedFragment)
open Emit Cpp

/-! ## Lines that open a class -/

/-- The name of the class that a line opens, if it does. -/
def Mark.opened : Mark → List String
  | .opens name => [name]
  | _ => []

/-- The classes that lines open, each with the classes around it, in the order of the lines. -/
def Outline.classOpenings (o : Outline) : List String → List (List String)
  | [] => []
  | line :: rest =>
    ((Mark.read line).opened.map fun name => o.around ++ [name]) ++
      (o.read line).classOpenings rest

namespace Outline

variable {o : Outline}

theorem classOpenings_append (lines more : List String) :
    o.classOpenings (lines ++ more) =
      o.classOpenings lines ++ (o.readAll lines).classOpenings more := by
  induction lines generalizing o with
  | nil => rfl
  | cons line rest ih =>
    rw [List.cons_append, classOpenings, ih, classOpenings, readAll_cons, List.append_assoc]

theorem classOpenings_eq_nil {lines : List String} (h : ∀ l ∈ lines, (Mark.read l).opened = []) :
    o.classOpenings lines = [] := by
  induction lines generalizing o with
  | nil => rfl
  | cons line rest ih =>
    rw [List.forall_mem_cons] at h
    rw [classOpenings, h.1, ih h.2]
    rfl

theorem classOpenings_indent (levels : Nat) (lines : List String) :
    o.classOpenings (lines.map (Code.indent levels)) = o.classOpenings lines := by
  induction lines generalizing o with
  | nil => rfl
  | cons line rest ih =>
    rw [List.map_cons, classOpenings, Mark.read_indent, read_indent, ih, classOpenings]

/-- The lines of a class open it and then the classes of its member types. -/
theorem classOpenings_classLines (target : Target) {type : String} (members : List Member)
    {placed : List PlacedFragment} (hblank : ' ' ∉ type.toList) {nested : List String}
    (hnested : nested =
      placed.flatMap PlacedFragment.forward ++ placed.flatMap PlacedFragment.declarations) :
    o.classOpenings (classLines target type members placed) =
      (o.around ++ [type]) :: (o.read ("class " ++ type ++ " \x7b")).classOpenings nested := by
  have hpublic : (Mark.read " public:").opened = [] ∧
      (o.read ("class " ++ type ++ " \x7b")).read " public:" =
        o.read ("class " ++ type ++ " \x7b") := by
    have hplain : Mark.read " public:" = .plain := by decide
    rw [Outline.read, hplain]
    exact ⟨rfl, rfl⟩
  have hquiet : ∀ l ∈ (if nested.isEmpty then [] else [""]) ++ methodDeclarations type ++ [""] ++
      dataMembers target type members, (Mark.read l).opened = [] := by
    have hplain : ∀ {l : String}, Mark.read l = .plain → (Mark.read l).opened = [] := by
      intro l hl
      rw [hl]
      rfl
    simp only [List.mem_append, List.mem_singleton]
    rintro l (((hl | hl) | rfl) | hl)
    · split at hl
      · cases hl
      · rw [List.mem_singleton.mp hl]
        exact hplain Mark.read_empty
    · exact hplain (read_methodDeclarations hblank hl)
    · exact hplain Mark.read_empty
    · exact hplain (read_dataMembers hl)
  have hlines : classLines target type members placed =
      ("class " ++ type ++ " \x7b") :: " public:" ::
        ((nested ++ ((if nested.isEmpty then [] else [""]) ++ methodDeclarations type ++ [""] ++
          dataMembers target type members)).map (Code.indent 1) ++ ["\x7d;"]) := by
    rw [classLines, hnested]
    simp only [List.append_assoc, List.cons_append]
  rw [hlines, classOpenings, Mark.read_open hblank, classOpenings, hpublic.1, hpublic.2,
    classOpenings_append, classOpenings_indent, classOpenings_append, classOpenings_eq_nil hquiet,
    classOpenings_eq_nil (List.forall_mem_singleton.mpr (by rw [Mark.read_close]; rfl)),
    List.append_nil, List.append_nil]
  rfl

end Outline

/-! ## Classes and data members of nodes -/

mutual

/-- The classes of the objects in a node, each with the classes around it. An object comes before
the objects inside it. -/
def Node.classPaths (around : List String) (name : String) : Node → List (List String)
  | .scalar _ => []
  | .object members =>
    (around ++ [name]).map typeName :: memberClassPaths (around ++ [name]) members
  | .array item _ => item.classPaths around (itemName name)
  | .reference _ => []

/-- The classes of the objects in named nodes, one node after the other. -/
def memberClassPaths (around : List String) : List (String × Node) → List (List String)
  | [] => []
  | (name, node) :: rest => node.classPaths around name ++ memberClassPaths around rest

end

mutual

/-- The data members of the classes in a settled node, each with its class. An object comes after
the objects inside it. -/
def Node.dataLines (namespaces around : List String) (name : String) :
    Node → List (List String × String)
  | .scalar _ => []
  | .object members =>
    memberDataLines namespaces (around ++ [name]) members ++ members.map fun m =>
      ((around ++ [name]).map typeName,
        dataMember namespaces (m.2.provided (around ++ [name]) m.1) m.1)
  | .array item _ => item.dataLines namespaces around (itemName name)
  | .reference _ => []

/-- The data members of the classes in named settled nodes, one node after the other. -/
def memberDataLines (namespaces around : List String) :
    List (String × Node) → List (List String × String)
  | [] => []
  | (name, node) :: rest =>
    node.dataLines namespaces around name ++ memberDataLines namespaces around rest

end

/-- The classes of the objects in a tree. -/
def Place.classPaths (p : Place) : List (List String) :=
  p.node.classPaths p.around p.name

/-- The data members of the classes in a tree. -/
def Place.dataLines (namespaces : List String) (p : Place) : List (List String × String) :=
  p.node.dataLines namespaces p.around p.name

theorem memberClassPaths_eq (around : List String) (members : List (String × Node)) :
    memberClassPaths around members = (placesIn around members).flatMap Place.classPaths := by
  induction members with
  | nil => rfl
  | cons m rest ih => rw [memberClassPaths, ih]; rfl

theorem memberDataLines_eq (namespaces around : List String) (members : List (String × Node)) :
    memberDataLines namespaces around members =
      (placesIn around members).flatMap (Place.dataLines namespaces) := by
  induction members with
  | nil => rfl
  | cons m rest ih => rw [memberDataLines, ih]; rfl

mutual

/-- Settling references changes no class. -/
@[simp] theorem Node.classPaths_settle (done : List (List String)) (around : List String)
    (name : String) : ∀ node : Node,
    (node.settle done around name).classPaths around name = node.classPaths around name
  | .scalar _ => rfl
  | .object members => by
    rw [Node.settle, Node.classPaths, Node.classPaths, memberClassPaths_settleMembers]
  | .array item _ => Node.classPaths_settle done around (itemName name) item
  | .reference _ => rfl

@[simp] theorem memberClassPaths_settleMembers (done : List (List String)) (around : List String) :
    ∀ members : List (String × Node),
      memberClassPaths around (settleMembers done around members) = memberClassPaths around members
  | [] => rfl
  | (name, node) :: rest => by
    rw [settleMembers, memberClassPaths, memberClassPaths, Node.classPaths_settle,
      memberClassPaths_settleMembers]

end

/-! ## Reading trees -/

theorem around_read_open {o : Outline} {p : Place} (hblank : ' ' ∉ p.type.name.toList)
    (ho : o.around = p.scope) :
    (o.read ("class " ++ p.type.name ++ " \x7b")).around = p.classPath := by
  rw [Outline.read, Mark.read_open hblank, ho]
  rfl

/-- What lines show: the classes that they open, the data members among them, each with the class
that it stands in, and that all classes that they open are closed. -/
structure Outline.Shows (o : Outline) (lines : List String) (classes : List (List String))
    (members : List (List String × String)) : Prop where
  classes : o.classOpenings lines = classes
  members : (o.memberLines lines).map (fun entry => (entry.1.around, entry.2)) = members
  around : (o.readAll lines).around = o.around

namespace Outline.Shows

variable {o : Outline} {lines more : List String} {classes classes' : List (List String)}
  {members members' : List (List String × String)}

theorem append (h : o.Shows lines classes members)
    (h' : (o.readAll lines).Shows more classes' members') :
    o.Shows (lines ++ more) (classes ++ classes') (members ++ members') where
  classes := by rw [Outline.classOpenings_append, h.classes, h'.classes]
  members := by rw [Outline.memberLines_append, List.map_append, h.members, h'.members]
  around := by rw [Outline.readAll_append, h'.around, h.around]

/-- Declarations of types. -/
theorem declares (h : ∀ l ∈ lines, ∃ type, Mark.read l = .declares type) : o.Shows lines [] [] where
  classes := Outline.classOpenings_eq_nil fun l hl => by
    obtain ⟨type, htype⟩ := h l hl
    rw [htype]
    rfl
  members := by
    rw [Outline.memberLines_eq_nil, List.map_nil]
    intro l hl
    obtain ⟨type, htype⟩ := h l hl
    exact not_isDataMember_of_mark (by rw [htype]; exact Mark.noConfusion)
  around := by
    induction lines generalizing o with
    | nil => rfl
    | cons line rest ih =>
      obtain ⟨⟨type, htype⟩, hrest⟩ := List.forall_mem_cons.mp h
      rw [Outline.readAll_cons, ih hrest, Outline.read, htype]

/-- Lines that leave the outline alone and hold no data member. -/
theorem quiet (hplain : ∀ l ∈ lines, Mark.read l = .plain)
    (hmembers : ∀ l ∈ lines, isDataMember l = false) : o.Shows lines [] [] where
  classes := Outline.classOpenings_eq_nil fun l hl => by rw [hplain l hl]; rfl
  members := by rw [Outline.memberLines_eq_nil hmembers, List.map_nil]
  around := by rw [Outline.readAll_plain hplain]

/-- Plain lines outside all classes. -/
theorem outside (ho : o.around = []) (hplain : ∀ l ∈ lines, Mark.read l = .plain) :
    o.Shows lines [] [] where
  classes := Outline.classOpenings_eq_nil fun l hl => by rw [hplain l hl]; rfl
  members := by rw [Outline.memberLines_outside ho hplain, List.map_nil]
  around := by rw [Outline.readAll_plain hplain]

theorem append_quiet (h : o.Shows lines classes members) (hplain : ∀ l ∈ more, Mark.read l = .plain)
    (hmembers : ∀ l ∈ more, isDataMember l = false) : o.Shows (lines ++ more) classes members := by
  have hboth := h.append (quiet hplain hmembers)
  rwa [List.append_nil, List.append_nil] at hboth

theorem append_outside (ho : o.around = []) (h : o.Shows lines classes members)
    (hplain : ∀ l ∈ more, Mark.read l = .plain) : o.Shows (lines ++ more) classes members := by
  have hboth := h.append (outside (by rw [h.around, ho]) hplain)
  rwa [List.append_nil, List.append_nil] at hboth

theorem paragraph (h : o.Shows lines classes members) :
    o.Shows (paragraph lines) classes members := by
  unfold ConfigForge.paragraph
  split
  · next hempty =>
    rw [List.isEmpty_iff.mp hempty] at h
    exact h
  · exact h.append_quiet (by decide) (by decide)

/-- Trees one after the other, given what each of them shows. -/
theorem forest {namespaces scope : List String} {forest : List Place} {text : Place → List String}
    (step : ∀ p ∈ forest, ∀ o : Outline, o.around = scope →
      o.Shows (text p) p.classPaths (p.dataLines namespaces)) (ho : o.around = scope) :
    o.Shows (forest.flatMap text) (forest.flatMap Place.classPaths)
      (forest.flatMap (Place.dataLines namespaces)) := by
  induction forest generalizing o with
  | nil => exact ⟨rfl, rfl, rfl⟩
  | cons p forest ih =>
    have hfirst := step p List.mem_cons_self o ho
    exact hfirst.append (ih (fun p hp => step p (List.mem_cons_of_mem _ hp))
      (by rw [hfirst.around, ho]))

/-- **Objects.** From the members of an object to the object. -/
theorem object {target : Target} {p : Place} {nodes : List (String × Node)}
    (hnode : p.node = .object nodes) (hblank : ' ' ∉ p.type.name.toList)
    (hcolon : ':' ∉ p.type.name.toList) (ho : o.around = p.scope) {placed : List PlacedFragment}
    {nested : List String} (hnested : nested =
      placed.flatMap PlacedFragment.forward ++ placed.flatMap PlacedFragment.declarations)
    (h : (o.read ("class " ++ p.type.name ++ " \x7b")).Shows nested
      (p.children.flatMap Place.classPaths)
      (p.children.flatMap (Place.dataLines target.namespaces))) :
    o.Shows (classLines target p.type.name (emitMembers target p.path nodes) placed) p.classPaths
      (p.dataLines target.namespaces) := by
  have hinner : ((o.read ("class " ++ p.type.name ++ " \x7b")).readAll nested).around =
      p.classPath := by rw [h.around, around_read_open hblank ho]
  have hlines := memberLines_classLines target p.path nodes hblank hcolon hnested rfl
    (by rw [hinner]; exact p.classPath_ne_nil)
  have hclasses : p.classPaths = p.classPath :: p.children.flatMap Place.classPaths := by
    rw [Place.classPaths, hnode, Node.classPaths, Place.children_object hnode,
      ← memberClassPaths_eq, ← p.map_typeName_path]
    rfl
  have hmembers : p.dataLines target.namespaces =
      p.children.flatMap (Place.dataLines target.namespaces) ++ nodes.map fun m =>
        (p.classPath, dataMember target.namespaces (m.2.provided p.path m.1) m.1) := by
    rw [Place.dataLines, hnode, Node.dataLines, Place.children_object hnode, ← memberDataLines_eq,
      ← p.map_typeName_path]
    rfl
  refine ⟨?_, ?_, ?_⟩
  · rw [Outline.classOpenings_classLines target _ hblank hnested, h.classes, hclasses, ho]
    rfl
  · rw [hlines, List.map_append, h.members, List.map_map, hmembers, ← hinner]
    rfl
  · rw [readAll_classLines target _ o hblank hnested, Outline.read, Mark.read_close, hinner, ho]
    exact List.dropLast_concat

end Outline.Shows

/-- **Declarations.** The classes and the data members in the declarations of a tree. -/
theorem shows_declarations (target : Target) {p : Place}
    (hnames : ∀ q, p.Has q → ' ' ∉ (typeName q.name).toList ∧ ':' ∉ (typeName q.name).toList)
    (placement : Placement) (hplacement : placement.storage = "" ∨ placement.storage = "static ")
    {o : Outline} (ho : o.around = p.scope) :
    o.Shows (p.declarations target placement) p.classPaths (p.dataLines target.namespaces) := by
  induction p using Place.induction generalizing placement o with
  | step p ih =>
    have hname : ' ' ∉ p.type.name.toList ∧ ':' ∉ p.type.name.toList := hnames p p.has_self
    have hplain : ∀ l ∈ (prototypes target p.type.name).map (Line.fill placement),
        Mark.read l = .plain := fun l hl => read_prototypes hplacement hl
    have hquiet : ∀ l ∈ (prototypes target p.type.name).map (Line.fill placement),
        isDataMember l = false := fun l hl => not_isDataMember_prototypes hplacement hl
    cases hnode : p.node with
    | scalar s =>
      rw [Place.declarations_scalar target placement hnode, Place.classPaths, Place.dataLines,
        hnode]
      exact .quiet hplain hquiet
    | reference r =>
      rw [Place.declarations_reference target placement hnode, Place.classPaths, Place.dataLines,
        hnode]
      exact ⟨rfl, rfl, rfl⟩
    | array item bounds =>
      have hitem : ⟨p.around, itemName p.name, item⟩ ∈ p.children := by
        rw [Place.children_array hnode]
        exact List.mem_singleton.mpr rfl
      have hread := ih _ hitem (fun q hq => hnames q (Place.has_of_child hitem hq)) placement
        hplacement ho
      rw [Place.declarations_array target placement hnode, Place.classPaths, Place.dataLines, hnode]
      exact hread.append_quiet hplain hquiet
    | object members =>
      have hopen := around_read_open hname.1 ho
      have hforward : ∀ l ∈ (placedMembers target p.around p.name members).flatMap
          PlacedFragment.forward, ∃ type, Mark.read l = .declares type := fun l hl =>
        placed_forward_declares target hnode (fun q hq => (hnames q hq).1) hl
      have hfront := Outline.Shows.declares
        (o := o.read ("class " ++ p.type.name ++ " \x7b")) hforward
      have hstep : ∀ c ∈ p.children, ∀ o : Outline, o.around = p.classPath →
          o.Shows (c.declarations target (memberPlacement p.type)) c.classPaths
            (c.dataLines target.namespaces) := by
        intro c hc o ho
        exact ih c hc (fun q hq => hnames q (Place.has_of_child hc hq)) _ (.inr rfl)
          (by rw [ho, Place.scope_of_mem_object hnode hc])
      -- inside the class the forward declarations come first, then the members in their order
      have hnested := hfront.append (Outline.Shows.forest hstep (by rw [hfront.around, hopen]))
      rw [List.nil_append, List.nil_append, ← placed_declarations target hnode] at hnested
      rw [Place.declarations_object target placement hnode]
      exact (Outline.Shows.object hnode hname.1 hname.2 ho rfl hnested).append_quiet hplain hquiet

/-- **The classes of a header.** The header of a schema opens exactly the classes of its objects,
each inside the classes of the objects around it, and has exactly the data members of their
members. -/
theorem shows_header {o : Options} {t : Schema} (ht : t.Admissible) :
    Outline.start.Shows
      (headerLines o ((t.entries.map (unitOf o.target)).map fun e => e.2.fragment))
      (memberClassPaths [] t.entries) (memberDataLines o.namespaces [] t.entries) := by
  have hnames : ∀ p ∈ placesIn [] t.entries, ∀ q, p.Has q →
      ' ' ∉ (typeName q.name).toList ∧ ':' ∉ (typeName q.name).toList := by
    intro p hp q hq
    have hhas : t.Has q := Schema.has_iff.mpr ⟨p, hp, hq⟩
    constructor
    all_goals
      intro hmem
      exact absurd (typeName_isAlphanum (ht.isIdentifier_name hhas) hmem) (by decide)
  have hfront : Outline.start.Shows (headerFront o) [] [] :=
    .outside rfl fun l hl => read_headerFront hl
  have hforward : (Outline.start.readAll (headerFront o)).Shows
      (paragraph (t.entries.flatMap fun m =>
        ((m.2.emit o.target [] m.1).fragment.place .topLevel).forward)) [] [] := by
    refine (Outline.Shows.declares fun l hl => ?_).paragraph
    obtain ⟨m, hm, hl⟩ := List.mem_flatMap.mp hl
    have hroot := hnames ⟨[], m.1, m.2⟩ (mem_placesIn.mpr ⟨m, hm, rfl⟩)
    exact read_forward_declares (p := ⟨[], m.1, m.2⟩) (fun q hq => (hroot q hq).1) hl
  have hboth := hfront.append hforward
  have hstep : ∀ p ∈ placesIn [] t.entries, ∀ o' : Outline, o'.around = [] →
      o'.Shows (paragraph (p.declarations o.target .topLevel)) p.classPaths
        (p.dataLines o.namespaces) := by
    intro p hp o' ho'
    have hread := shows_declarations (o := o') o.target (hnames p hp) .topLevel (.inl rfl)
    obtain ⟨m, -, rfl⟩ := mem_placesIn.mp hp
    exact (hread ho').paragraph
  have hbodies := Outline.Shows.forest hstep hboth.around
  rw [← memberClassPaths_eq, ← memberDataLines_eq, placesIn, List.flatMap_map] at hbodies
  rw [headerLines_eq]
  refine (((hboth.append hbodies).append_outside rfl ?_).append_outside rfl ?_)
  · exact fun l hl => read_closeNamespaces hl
  · intro l hl
    rw [List.mem_singleton.mp hl]
    exact Mark.read_of_front (by decide) _

/-! ## Lines of one form -/

theorem words_of_read_opens {line name : String} (h : Mark.read line = .opens name) :
    words line = ["class", name, "\x7b"] := by
  unfold Mark.read Mark.ofWords at h
  split at h
  · cases h
  · next heq =>
    obtain rfl := Mark.opens.inj h
    exact heq
  all_goals cases h

/-- A class of a given name is opened by lines of one form only. -/
theorem read_eq_opens_iff {line name : String} (hblank : ' ' ∉ name.toList) :
    Mark.read line = .opens name ↔ bare line = "class " ++ name ++ " \x7b" := by
  constructor
  · intro h
    have hpieces : Text.split ' ' (bare line).toList = ["class".toList, name.toList, ['\x7b']] := by
      have hwords := congrArg (List.map String.toList) (words_of_read_opens h)
      rw [words, List.map_map] at hwords
      simpa [Function.comp_def] using hwords
    have hflat := Text.flatten_intersperse_split ' ' (bare line).toList
    rw [hpieces] at hflat
    apply String.toList_inj.mp
    rw [← hflat]
    simp
  · intro h
    have hbare : bare ("class " ++ name ++ " \x7b") = "class " ++ name ++ " \x7b" :=
      bare_of_head (c := 'c') (by simp; rfl) (by decide)
    have hwords : words line = words ("class " ++ name ++ " \x7b") := by
      rw [words, h, words, hbare]
    rw [Mark.read, hwords, ← Mark.read, Mark.read_open hblank]

/-- The lines that open a class of a given name are as many as its openings. -/
theorem length_filter_opens {name : String} (hblank : ' ' ∉ name.toList) (o : Outline)
    (lines : List String) :
    (lines.filter fun l => bare l = "class " ++ name ++ " \x7b").length =
      ((o.classOpenings lines).filter fun path => path.getLast? = some name).length := by
  induction lines generalizing o with
  | nil => rfl
  | cons line rest ih =>
    rw [Outline.classOpenings, List.filter_append, List.length_append, ← ih]
    by_cases h : bare line = "class " ++ name ++ " \x7b"
    · rw [(read_eq_opens_iff hblank).mpr h, List.filter_cons_of_pos (by simpa using h)]
      simp [Mark.opened, Nat.add_comm]
    · have hread := fun hopens => h ((read_eq_opens_iff hblank).mp hopens)
      rw [List.filter_cons_of_neg (by simpa using h)]
      cases hmark : Mark.read line with
      | opens other =>
        have hne : other ≠ name := by
          rintro rfl
          exact hread hmark
        simp [Mark.opened, hne]
      | closes => simp [Mark.opened]
      | declares type => simp [Mark.opened]
      | plain => simp [Mark.opened]

end ConfigForge
