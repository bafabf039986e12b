import ConfigForge.Proofs.Grammar

/-!
# What stops a run

A run of the generator stops at the first error. Whatever the schema, the walk never loses its
balance: at every moment the innermost scope is open and every object and array that is left has been
entered. So an error of the walk is a fault of the schema: a reference that means nothing where it
stands, a name that is declared twice, or a name that is not allowed.

The reader of schemas checks names too. A schema that it accepts has identifiers for names and no
reference among its entries, and what is left to refuse is a member with a reserved name.

Results:

* `walkNode_error`, `walkMembers_error`: what stops the walk of a tree.
* `generateUnits_error`: what stops a run.
* `Describes.isIdentifier_member`: what the reader accepts has identifiers for names at every depth.
* `errors_of_parsed_schema`: what stops a run on a schema that was read.
-/

namespace ConfigForge

open Emit

/-! ## Declarations -/

section

variable {done : List (List String)} {around : List String} {arrays : List ItemBounds}
  {scope : Scope} {outer : List Scope} {e : GenerationError}

theorem declare_error {name : String}
    (h : (Context.moment done around arrays (scope :: outer)).declare name = .error e) :
    e = .collision scope.label name := by
  rw [Context.declare_eq rfl] at h
  split at h
  · exact (Except.error.inj h).symm
  · cases h

/-- Names that cannot be declared together collide in the innermost scope. -/
theorem declareAll_error {names : List String}
    (h : (Context.moment done around arrays (scope :: outer)).declareAll names = .error e) :
    ∃ name ∈ names, e = .collision scope.label name := by
  obtain ⟨front, name, back, rfl, -, he⟩ := Context.declareAll_error rfl h
  exact ⟨name, List.mem_append_right _ List.mem_cons_self, he⟩

end

/-! ## The walk -/

/-- What can stop the walk of a tree: a reference in it, two declarations of one name in a scope, or
the name of a member. -/
inductive Place.Faulty (root : Place) : GenerationError → Prop where
  | reference (p : Place) (r : Reference) : root.Has p → p.node = .reference r →
      Faulty root (.unresolved ((⟨p.around⟩ : NamePath).memberPath p.name) r.target)
  | collision (scope name : String) : Faulty root (.collision scope name)
  | member (p : Place) (members : List (String × Node)) (m : String × Node) : root.Has p →
      p.node = .object members → m ∈ members → isMemberName m.1 = false →
      Faulty root (.schema (.at (p.path ++ [m.1]) (.invalidName m.1)))

/-- A fault in a tree is a fault in every tree around it. -/
theorem Place.Faulty.of_has {p c : Place} {e : GenerationError} (h : c.Faulty e) (hc : p.Has c) :
    p.Faulty e := by
  cases h with
  | reference q r hq hr => exact .reference q r (hc.trans hq) hr
  | collision scope name => exact .collision scope name
  | member q members m hq hnode hm hname => exact .member q members m (hc.trans hq) hnode hm hname

theorem declareType_faulty {done : List (List String)} {around : List String}
    {arrays : List ItemBounds} {scope : Scope} {outer : List Scope} {type : QualifiedName}
    {e : GenerationError}
    (h : (Context.moment done around arrays (scope :: outer)).declareType type = .error e)
    (p : Place) : p.Faulty e := by
  obtain ⟨name, -, rfl⟩ := declareAll_error h
  exact .collision _ name

section

variable (target : Target)

mutual

/-- What stops the walk of a node is a fault in its tree. -/
theorem walkNode_error : ∀ (node : Node) {done : List (List String)} {around : List String}
    {name : String} {arrays : List ItemBounds} {scope : Scope} {outer : List Scope}
    {e : GenerationError},
    walkNode target (.moment done around arrays (scope :: outer)) name node = .error e →
      (⟨around, name, node⟩ : Place).Faulty e
  | .scalar s, done, around, name, arrays, scope, outer, e => by
    intro h
    rw [walkNode] at h
    rcases Except.bind_eq_error_iff.mp h with h | ⟨ctx, -, h⟩
    · exact declareType_faulty h _
    · cases h
  | .object members, done, around, name, arrays, scope, outer, e => by
    intro h
    rw [walkNode] at h
    rcases Except.bind_eq_error_iff.mp h with h | ⟨ctx, hdeclare, h⟩
    · exact declareType_faulty h _
    obtain ⟨-, rfl⟩ := declareType_ok_iff.mp hdeclare
    rw [enterObject_moment] at h
    rcases Except.bind_eq_error_iff.mp h with h | ⟨⟨emitted, ctx⟩, hmembers, h⟩
    · -- the members stand in the object that was entered
      rcases walkMembers_error members h with ⟨m, hm, hname, rfl⟩ | ⟨c, hc, hfaulty⟩
      · exact .member ⟨around, name, .object members⟩ members m (Place.has_self _) rfl hm hname
      · exact hfaulty.of_has (Place.has_of_child hc c.has_self)
    obtain ⟨-, -, rfl⟩ := (walkMembers_ok_iff target members).mp hmembers
    rw [qualify_moment] at h
    rcases Except.bind_eq_error_iff.mp h with h | ⟨ctx, -, h⟩
    · rw [leaveObject_moment] at h
      cases h
    · cases h
  | .array item bounds, done, around, name, arrays, scope, outer, e => by
    intro h
    rw [walkNode] at h
    rcases Except.bind_eq_error_iff.mp h with h | ⟨ctx, hdeclare, h⟩
    · exact declareType_faulty h _
    obtain ⟨-, rfl⟩ := declareType_ok_iff.mp hdeclare
    rw [enterArray_moment] at h
    rcases Except.bind_eq_error_iff.mp h with h | ⟨⟨emitted, ctx⟩, hitem, h⟩
    · have hfaulty := walkNode_error item h
      exact hfaulty.of_has (Place.has_of_child (List.mem_singleton.mpr rfl) (Place.has_self _))
    obtain ⟨-, -, rfl⟩ := (walkNode_ok_iff target item).mp hitem
    rcases Except.bind_eq_error_iff.mp h with h | ⟨result, -, h⟩
    · rw [leaveArray_moment] at h
      cases h
    · cases h
  | .reference r, done, around, name, arrays, scope, outer, e => by
    intro h
    rw [walkNode_reference] at h
    cases hmeant : r.meant? done around with
    | some path => rw [hmeant] at h; cases h
    | none =>
      rw [hmeant] at h
      obtain rfl := Except.error.inj h
      exact .reference ⟨around, name, .reference r⟩ r (Place.has_self _) rfl

/-- What stops the walk of members is the name of one of them or a fault in one of their trees. -/
theorem walkMembers_error : ∀ (members : List (String × Node)) {done : List (List String)}
    {around : List String} {arrays : List ItemBounds} {scope : Scope} {outer : List Scope}
    {e : GenerationError},
    walkMembers target (.moment done around arrays (scope :: outer)) members = .error e →
      (∃ m ∈ members, isMemberName m.1 = false ∧
        e = .schema (.at (around ++ [m.1]) (.invalidName m.1))) ∨
      ∃ c ∈ placesIn around members, c.Faulty e
  | [], done, around, arrays, scope, outer, e => by
    intro h
    cases h
  | (name, node) :: rest, done, around, arrays, scope, outer, e => by
    intro h
    have hfirst : (⟨around, name, node⟩ : Place) ∈ placesIn around ((name, node) :: rest) :=
      List.mem_cons_self
    rw [walkMembers] at h
    by_cases hname : isMemberName name = true
    · rw [if_pos hname] at h
      rcases Except.bind_eq_error_iff.mp h with h | ⟨⟨emitted, ctx⟩, hnode, h⟩
      · exact .inr ⟨_, hfirst, walkNode_error node h⟩
      obtain ⟨-, -, rfl⟩ := (walkNode_ok_iff target node).mp hnode
      rcases Except.bind_eq_error_iff.mp h with h | ⟨ctx, hdeclare, h⟩
      · rw [declare_error h]
        exact .inr ⟨_, hfirst, .collision _ _⟩
      obtain ⟨-, rfl⟩ := declare_ok_iff.mp hdeclare
      rcases Except.bind_eq_error_iff.mp h with h | ⟨result, -, h⟩
      · rcases walkMembers_error rest h with ⟨m, hm, hnot, he⟩ | ⟨c, hc, hfaulty⟩
        · exact .inl ⟨m, List.mem_cons_of_mem _ hm, hnot, he⟩
        · exact .inr ⟨c, List.mem_cons_of_mem _ hc, hfaulty⟩
      · cases h
    · rw [if_neg hname] at h
      obtain rfl := Except.error.inj h
      exact .inl ⟨_, List.mem_cons_self, Bool.eq_false_iff.mpr hname, rfl⟩

end

/-- What stops the walk of entries. -/
theorem walkEntries_error {entries : List (String × Node)} {done : List (List String)}
    {arrays : List ItemBounds} {scope : Scope} {outer : List Scope} {e : GenerationError}
    (h : walkEntries target (.moment done [] arrays (scope :: outer)) entries = .error e) :
    ∃ entry ∈ entries,
      (isIdentifier entry.1 = false ∧ e = .schema (.at [entry.1] (.invalidName entry.1))) ∨
      (entry.2.isReference = true ∧ e = .schema (.at [entry.1] .topLevelReference)) ∨
      (⟨[], entry.1, entry.2⟩ : Place).Faulty e := by
  induction entries generalizing done scope with
  | nil => cases h
  | cons entry rest ih =>
    obtain ⟨name, node⟩ := entry
    rw [walkEntries] at h
    by_cases hname : isIdentifier name = true
    · by_cases href : node.isReference = true
      · rw [if_neg (by simp [hname]), if_pos href] at h
        exact ⟨_, List.mem_cons_self, .inr (.inl ⟨href, (Except.error.inj h).symm⟩)⟩
      · rw [if_neg (by simp [hname]), if_neg href] at h
        rcases Except.bind_eq_error_iff.mp h with h | ⟨⟨emitted, ctx⟩, hnode, h⟩
        · exact ⟨_, List.mem_cons_self, .inr (.inr (walkNode_error target node h))⟩
        obtain ⟨-, -, rfl⟩ := (walkNode_ok_iff target node).mp hnode
        rcases Except.bind_eq_error_iff.mp h with h | ⟨result, -, h⟩
        · obtain ⟨entry, hentry, hcases⟩ := ih h
          exact ⟨entry, List.mem_cons_of_mem _ hentry, hcases⟩
        · cases h
    · rw [if_pos (by simp [hname])] at h
      exact ⟨_, List.mem_cons_self, .inl ⟨Bool.eq_false_iff.mpr hname, (Except.error.inj h).symm⟩⟩

/-- **What stops a run.** A contradiction in the limits, found before the walk, or a fault of one of
the entries. The walk itself ends balanced. -/
theorem generateUnits_error {s : Schema} {e : GenerationError}
    (h : generateUnits target s = .error e) :
    (∃ c, s.check = .error c ∧ e = .constraint c) ∨
      ∃ entry ∈ s.entries,
        (isIdentifier entry.1 = false ∧ e = .schema (.at [entry.1] (.invalidName entry.1))) ∨
        (entry.2.isReference = true ∧ e = .schema (.at [entry.1] .topLevelReference)) ∨
        (⟨[], entry.1, entry.2⟩ : Place).Faulty e := by
  have hstart : Context.initial = .moment [] [] [] [.outermost] := rfl
  rw [generateUnits, hstart] at h
  rcases Except.bind_eq_error_iff.mp h with h | ⟨_, -, h⟩
  · cases hcheck : s.check with
    | ok _ => rw [hcheck] at h; cases h
    | error c =>
      rw [hcheck] at h
      exact .inl ⟨c, rfl, (Except.error.inj h).symm⟩
  rcases Except.bind_eq_error_iff.mp h with h | ⟨⟨units, ctx⟩, hwalk, h⟩
  · exact .inr (walkEntries_error target h)
  obtain ⟨-, -, rfl⟩ := (walkEntries_ok_iff target _).mp hwalk
  rcases Except.bind_eq_error_iff.mp h with h | ⟨_, -, h⟩
  · cases h
  · cases h

end

/-! ## Schemas that were read -/

/-- A schema that was read has the entries that were read, and none of them is a reference. -/
theorem readMembers_of_ofJson {v : Json.Value} {s : Schema} (h : Schema.ofJson v = .ok s) :
    ∃ fields, v = .object fields ∧ readMembers [] [] fields = .ok s.entries ∧
      ∀ e ∈ s.entries, e.2.isReference = false := by
  cases v with
  | object fields =>
    rw [Schema.ofJson] at h
    obtain ⟨entries, hentries, h⟩ := Except.bind_eq_ok_iff.mp h
    cases href : Schema.firstReference? entries with
    | some name => rw [href] at h; cases h
    | none =>
      rw [href] at h
      obtain rfl := Except.ok.inj h
      exact ⟨fields, rfl, hentries, firstReference?_eq_none_iff.mp href⟩
  | _ => cases h

/-- Described members go by the names of the fields. -/
theorem DescribesEach.exists_field {fields : List (String × Json.Value)}
    {members : List (String × Node)} (h : DescribesEach fields members) {m : String × Node}
    (hm : m ∈ members) : ∃ v, (m.1, v) ∈ fields ∧ Describes v m.2 := by
  induction fields generalizing members with
  | nil =>
    cases h
    cases hm
  | cons field rest ih =>
    obtain ⟨name, v⟩ := field
    obtain ⟨node, others, hnode, hothers, rfl⟩ := describesEach_cons_iff.mp h
    rcases List.mem_cons.mp hm with rfl | hm
    · exact ⟨v, List.mem_cons_self, hnode⟩
    · obtain ⟨w, hw, hdescribes⟩ := ih hothers hm
      exact ⟨w, List.mem_cons_of_mem _ hw, hdescribes⟩

/-- What is below a described node is described. -/
theorem Describes.child {v : Json.Value} {p c : Place} (h : Describes v p.node)
    (hc : c ∈ p.children) : ∃ w, Describes w c.node := by
  cases hnode : p.node with
  | scalar s => rw [Place.children, hnode] at hc; cases hc
  | reference r => rw [Place.children, hnode] at hc; cases hc
  | array item bounds =>
    rw [Place.children_array hnode, List.mem_singleton] at hc
    rw [hnode] at h
    cases h with
    | array _ _ _ hitem _ _ =>
      rw [hc]
      exact ⟨_, hitem⟩
  | object members =>
    rw [Place.children_object hnode] at hc
    obtain ⟨m, hm, rfl⟩ := mem_placesIn.mp hc
    rw [hnode] at h
    cases h with
    | object _ _ _ heach =>
      obtain ⟨w, -, hw⟩ := heach.exists_field hm
      exact ⟨w, hw⟩

/-- **Names at every depth.** The members of the objects in a described node have identifiers for
names. -/
theorem Describes.isIdentifier_member {v : Json.Value} {p q : Place} {members : List (String × Node)}
    (h : Describes v p.node) (hq : p.Has q) (hnode : q.node = .object members) :
    ∀ m ∈ members, isIdentifier m.1 = true := by
  induction p using Place.induction generalizing v with
  | step p ih =>
    rcases Place.has_iff.mp hq with rfl | ⟨c, hc, hcq⟩
    · intro m hm
      rw [hnode] at h
      cases h with
      | object _ _ hnames heach =>
        obtain ⟨w, hw, -⟩ := heach.exists_field hm
        exact hnames.identifiers _ hw
    · obtain ⟨w, hw⟩ := h.child hc
      exact ih c hc hw hcq

/-- **Errors on schemas that were read.** If a JSON value was accepted and a run on its schema fails,
the error is a contradiction in the limits, a reference of the schema that means nothing where it
stands, a name that is declared twice in a scope, or the name of a member of an object of the schema,
and this name is reserved. -/
theorem errors_of_parsed_schema {v : Json.Value} {s : Schema} {o : Options} {e : GenerationError}
    (hs : Schema.ofJson v = .ok s) (h : generate o s = .error e) :
    (∃ c, s.check = .error c ∧ e = .constraint c) ∨
    (∃ p r, s.Has p ∧ p.node = .reference r ∧
      e = .unresolved ((⟨p.around⟩ : NamePath).memberPath p.name) r.target) ∨
    (∃ scope name, e = .collision scope name) ∨
    ∃ p members m, s.Has p ∧ p.node = .object members ∧ m ∈ members ∧ isReserved m.1 = true ∧
      e = .schema (.at (p.path ++ [m.1]) (.invalidName m.1)) := by
  obtain ⟨fields, -, hread, hentries⟩ := readMembers_of_ofJson hs
  obtain ⟨hnames, heach⟩ := ((readNode_ok_iff (.object fields)).2 fields rfl _ _).mp hread
  have hunits : generateUnits o.target s = .error e := by
    cases hunits : generateUnits o.target s with
    | ok units => rw [generate, hunits] at h; cases h
    | error e' =>
      rw [generate, hunits] at h
      rw [Except.error.inj h]
  rcases generateUnits_error o.target hunits with hcheck | ⟨entry, hentry, hcases⟩
  · exact .inl hcheck
  obtain ⟨w, hw, hdescribes⟩ := heach.exists_field hentry
  have hroot : s.Has ⟨[], entry.1, entry.2⟩ :=
    Schema.has_iff.mpr ⟨_, mem_placesIn.mpr ⟨entry, hentry, rfl⟩, Place.has_self _⟩
  rcases hcases with ⟨hname, -⟩ | ⟨href, -⟩ | hfaulty
  · rw [hnames.identifiers _ hw] at hname
    cases hname
  · rw [hentries entry hentry] at href
    cases href
  · cases hfaulty with
    | reference p r hp hr => exact .inr (.inl ⟨p, r, hroot.trans hp, hr, rfl⟩)
    | collision scope name => exact .inr (.inr (.inl ⟨scope, name, rfl⟩))
    | member p members m hp hnode hm hname =>
      have hidentifier := hdescribes.isIdentifier_member (p := ⟨[], entry.1, entry.2⟩) hp hnode m hm
      refine .inr (.inr (.inr ⟨p, members, m, hroot.trans hp, hnode, hm, ?_, rfl⟩))
      rw [isMemberName, hidentifier] at hname
      simpa using hname

/-- An object with a keyword for the name of a member. -/
theorem keyword_member_refused :
    ∃ s, Schema.ofJson (.object [("box", .object [("type", .string "object"),
        ("properties", .object [("class", .object [("type", .string "bool")])])])]) = .ok s ∧
      generate .default s = .error (.schema (.at ["box", "class"] (.invalidName "class"))) ∧
      ∃ p members m, s.Has p ∧ p.node = .object members ∧ m ∈ members ∧ isReserved m.1 = true ∧
        p.path ++ [m.1] = ["box", "class"] := by
  have hread : Schema.ofJson (.object [("box", .object [("type", .string "object"),
      ("properties", .object [("class", .object [("type", .string "bool")])])])]) =
        .ok ⟨[("box", .object [("class", .scalar (.bool none))])]⟩ := rfl
  have hrun : generate .default ⟨[("box", .object [("class", .scalar (.bool none))])]⟩ =
      .error (.schema (.at ["box", "class"] (.invalidName "class"))) := by decide
  refine ⟨_, hread, hrun, ?_⟩
  rcases errors_of_parsed_schema hread hrun with
    ⟨c, -, he⟩ | ⟨p, r, -, -, he⟩ | ⟨scope, name, he⟩ | ⟨p, members, m, hp, hnode, hm, hreserved, he⟩
  · cases he
  · cases he
  · cases he
  · simp only [GenerationError.schema.injEq, SchemaError.at.injEq] at he
    exact ⟨p, members, m, hp, hnode, hm, hreserved, he.1.symm⟩

end ConfigForge
