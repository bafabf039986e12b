import ConfigForge.Proofs.Admissible

/-!
# Visits

The walk of a schema comes to every node in a context of its own. The context at a position is made
by what the walk does on the way there: it declares the types around the position, enters their
objects and arrays, and walks the members before.

Results:

* `Place.WalkedIn.child`: the context in which the walk of a node comes to a child.
* `Place.WalkedIn.at?`: the context in which it comes to any node below.
* `Schema.exists_of_settled`: the nodes of a settled schema are the settled nodes of the schema.
* `exists_visit`: where the walk of a schema succeeds, every node is walked, and the objects that are
  complete then are those over before its position.
* `yields?_eq`: a node gives the type that its settled form provides.
-/

namespace ConfigForge

open Emit

variable {target : Target}

/-! ## The context at a position -/

/-- The context in which the walk of a node called `name` comes to its child `i`. -/
def contextBelow? (target : Target) (ctx : Context) (name : String) (i : Nat) :
    Node → Option Context
  | .scalar _ | .reference _ => none
  | .object members => do
    let type := ctx.path.qualify name
    let ctx ← (ctx.declareType type).toOption
    let (_, ctx) ← (walkMembers target (ctx.enterObject name type) (members.take i)).toOption
    return ctx
  | .array _ bounds => do
    let ctx ← (ctx.declareType (ctx.path.qualify name)).toOption
    return ctx.enterArray bounds

/-- The context in which the walk of a node comes to a position below it. -/
def Place.contextAt? (target : Target) (p : Place) (ctx : Context) : List Nat → Option Context
  | [] => some ctx
  | i :: rest => do
    let ctx ← contextBelow? target ctx p.name i p.node
    let child ← p.children[i]?
    child.contextAt? target ctx rest

/-- The context in which the walk of a schema comes to a position. -/
def Schema.contextAt? (target : Target) (s : Schema) : List Nat → Option Context
  | [] => none
  | i :: rest => do
    let (_, ctx) ← (walkEntries target .initial (s.entries.take i)).toOption
    let entry ← (placesIn [] s.entries)[i]?
    entry.contextAt? target ctx rest

/-- The type that the walk of a schema gives for the node at a position. -/
def Schema.yields? (target : Target) (s : Schema) (position : List Nat) : Option QualifiedName := do
  let ctx ← s.contextAt? target position
  let p ← s.at? position
  let (emitted, _) ← (walkNode target ctx p.name p.node).toOption
  return emitted.name

/-! ## Moments -/

/-- What the context of a walk holds besides the objects around the node. -/
structure Moment where
  done : List (List String)
  arrays : List ItemBounds
  scope : Scope
  outer : List Scope

/-- The context at a moment inside the objects `around`. -/
def Moment.context (m : Moment) (around : List String) : Context :=
  .moment m.done around m.arrays (m.scope :: m.outer)

/-- A node in its settled form. -/
def Place.settle (done : List (List String)) (p : Place) : Place :=
  ⟨p.around, p.name, p.node.settle done p.around p.name⟩

/-- Whether a node can be walked at a moment. -/
def Place.WalkedIn (target : Target) (m : Moment) (p : Place) : Prop :=
  ∃ result, walkNode target (m.context p.around) p.name p.node = .ok result

theorem Except.toOption_ok {ε α : Type} (a : α) : (Except.ok a : Except ε α).toOption = some a := rfl

theorem exists_split {α : Type} {l : List α} {i : Nat} {a : α} (h : l[i]? = some a) :
    ∃ front back, l = front ++ a :: back ∧ front.length = i := by
  obtain ⟨hi, rfl⟩ := List.getElem?_eq_some_iff.mp h
  refine ⟨l.take i, l.drop (i + 1), ?_, List.length_take_of_le (Nat.le_of_lt hi)⟩
  rw [← List.drop_eq_getElem_cons hi, List.take_append_drop]

theorem memberIdentifiers_append (front back : List (String × Node)) :
    memberIdentifiers (front ++ back) = memberIdentifiers front ++ memberIdentifiers back :=
  List.flatMap_append

/-! ## One step down -/

section

variable {done : List (List String)} {around : List String} {arrays : List ItemBounds}
  {scope : Scope} {outer : List Scope} {members : List (String × Node)} {m : String × Node} {i : Nat}

/-- A walk of members comes to each of them after walking those before it. -/
theorem walkMembers_front (hm : members[i]? = some m)
    (h : ∃ result, walkMembers target (.moment done around arrays (scope :: outer)) members =
      .ok result) :
    ∃ emitted inner,
      walkMembers target (.moment done around arrays (scope :: outer)) (members.take i) =
        .ok (emitted, .moment (done ++ completedMembers around (members.take i)) around arrays
          (inner :: outer)) ∧
      (⟨around, m.1, m.2⟩ : Place).WalkedIn target
        ⟨done ++ completedMembers around (members.take i), arrays, inner, outer⟩ := by
  obtain ⟨front, back, rfl, rfl⟩ := exists_split hm
  rw [List.take_left]
  obtain ⟨⟨emitted, ctx⟩, h⟩ := h
  obtain ⟨⟨hrefs, hnames, hapart, hfree⟩, -, -⟩ := (walkMembers_ok_iff target _).mp h
  obtain ⟨hfront, hnode, -⟩ := eachReferenceIn_append.mp hrefs
  rw [memberIdentifiers_append, Scope.free_append, memberIdentifiers_cons, Scope.free_append,
    Scope.free_append] at hfree
  obtain ⟨hfreeFront, ⟨hfreeNode, -⟩, -⟩ := hfree
  rw [placesIn, List.map_append, List.forall_mem_append, List.map_cons, List.forall_mem_cons]
    at hapart
  have hnamesFront : ∀ m ∈ front, isMemberName m.1 = true := fun m hm =>
    hnames m (List.mem_append_left _ hm)
  exact ⟨_, _, (walkMembers_ok_iff target _).mpr ⟨⟨hfront, hnamesFront, hapart.1, hfreeFront⟩,
    rfl, rfl⟩, ⟨_, _⟩, (walkNode_ok_iff target _).mpr ⟨⟨hnode, hapart.2.1, hfreeNode⟩, rfl, rfl⟩⟩

/-- A walk of entries comes to each of them after walking those before it. -/
theorem walkEntries_front (hm : members[i]? = some m)
    (h : ∃ result, walkEntries target (.moment done [] arrays (scope :: outer)) members =
      .ok result) :
    ∃ units inner,
      walkEntries target (.moment done [] arrays (scope :: outer)) (members.take i) =
        .ok (units, .moment (done ++ completedMembers [] (members.take i)) [] arrays
          (inner :: outer)) ∧
      (⟨[], m.1, m.2⟩ : Place).WalkedIn target
        ⟨done ++ completedMembers [] (members.take i), arrays, inner, outer⟩ := by
  obtain ⟨front, back, rfl, rfl⟩ := exists_split hm
  rw [List.take_left]
  obtain ⟨⟨units, ctx⟩, h⟩ := h
  obtain ⟨⟨hrefs, hentries, hapart, hfree⟩, -, -⟩ := (walkEntries_ok_iff target _).mp h
  obtain ⟨hfront, hnode, -⟩ := eachReferenceIn_append.mp hrefs
  rw [List.flatMap_append, Scope.free_append, List.flatMap_cons, Scope.free_append] at hfree
  obtain ⟨hfreeFront, hfreeNode, -⟩ := hfree
  rw [placesIn, List.map_append, List.forall_mem_append, List.map_cons, List.forall_mem_cons]
    at hapart
  have hentriesFront : ∀ e ∈ front, isIdentifier e.1 = true ∧ e.2.isReference = false := fun e he =>
    hentries e (List.mem_append_left _ he)
  exact ⟨_, _, (walkEntries_ok_iff target _).mpr ⟨⟨hfront, hentriesFront, hapart.1, hfreeFront⟩,
    rfl, rfl⟩, ⟨_, _⟩, (walkNode_ok_iff target _).mpr ⟨⟨hnode, hapart.2.1, hfreeNode⟩, rfl, rfl⟩⟩

/-- The settled form of a node among others. -/
theorem settleMembers_getElem? (hm : members[i]? = some m) :
    (placesIn around (settleMembers done around members))[i]? =
      some (Place.settle (done ++ completedMembers around (members.take i)) ⟨around, m.1, m.2⟩) := by
  obtain ⟨front, back, rfl, rfl⟩ := exists_split hm
  rw [List.take_left, placesIn, List.getElem?_map, settleMembers_append, List.getElem?_append_right
    (Nat.le_of_eq (length_settleMembers done around front)), length_settleMembers, Nat.sub_self]
  rfl

theorem completeAt_members (hm : members[i]? = some m) (rest : List Nat) :
    CompleteAt done (placesIn around members) (i :: rest) =
      CompleteAt (done ++ completedMembers around (members.take i))
        (⟨around, m.1, m.2⟩ : Place).children rest := by
  obtain ⟨front, back, rfl, rfl⟩ := exists_split hm
  have hlength : front.length = (placesIn around front).length := (List.length_map _).symm
  rw [List.take_left, completedMembers_eq, hlength, placesIn, List.map_append]
  exact completeAt_append done _ _ _ rest

end

namespace Place

variable {m : Moment} {p c q : Place} {i : Nat}

/-- **One step down.** The walk of a node walks each child at a moment where the objects that were
complete before and those of the earlier children are complete. -/
theorem WalkedIn.child (h : p.WalkedIn target m) (hc : p.children[i]? = some c) :
    ∃ m' : Moment, contextBelow? target (m.context p.around) p.name i p.node =
        some (m'.context c.around) ∧
      c.WalkedIn target m' ∧ (p.settle m.done).children[i]? = some (c.settle m'.done) ∧
      ∀ rest, CompleteAt m.done p.children (i :: rest) = CompleteAt m'.done c.children rest := by
  obtain ⟨around, name, node⟩ := p
  obtain ⟨done, arrays, scope, outer⟩ := m
  obtain ⟨⟨emitted, ctx⟩, h⟩ := h
  cases node with
  | scalar s => simp [children] at hc
  | reference r => simp [children] at hc
  | array item bounds =>
    rw [children_array rfl, List.getElem?_singleton] at hc
    obtain rfl : i = 0 := by
      by_contra hi
      rw [if_neg hi] at hc
      cases hc
    obtain rfl := Option.some.inj hc
    rw [walkNode, Except.bind_eq_ok_iff] at h
    obtain ⟨after, hdeclare, h⟩ := h
    obtain ⟨result, hitem, -⟩ := Except.bind_eq_ok_iff.mp h
    obtain ⟨-, rfl⟩ := declareType_ok_iff.mp hdeclare
    refine ⟨⟨done, bounds :: arrays, _, outer⟩, ?_, ⟨result, hitem⟩, rfl, fun rest => ?_⟩
    · simp only [contextBelow?, hdeclare, Except.toOption_ok]
      rfl
    · rw [children_array rfl]
      exact completeAt_cons_zero done _ [] rest
  | object members =>
    rw [children_object rfl, placesIn, List.getElem?_map] at hc
    obtain ⟨member, hmember, rfl⟩ := Option.map_eq_some_iff.mp hc
    rw [walkNode, Except.bind_eq_ok_iff] at h
    obtain ⟨after, hdeclare, h⟩ := h
    obtain ⟨result, hmembers, -⟩ := Except.bind_eq_ok_iff.mp h
    obtain ⟨-, rfl⟩ := declareType_ok_iff.mp hdeclare
    rw [enterObject_moment] at hmembers
    obtain ⟨emitted, inner, hfront, hwalked⟩ := walkMembers_front hmember ⟨result, hmembers⟩
    refine ⟨⟨_, arrays, inner, _⟩, ?_, hwalked, ?_, fun rest => ?_⟩
    · simp only [contextBelow?, hdeclare, Except.toOption_ok]
      exact congrArg (fun walked => walked.toOption.bind fun result => some result.2) hfront
    · exact settleMembers_getElem? hmember
    · exact completeAt_members hmember rest

/-- The walk of a node walks every node below, at a moment where exactly the objects over before its
position are complete. -/
theorem WalkedIn.at? {position : List Nat} (h : p.WalkedIn target m)
    (hq : p.at? position = some q) :
    ∃ m' : Moment, p.contextAt? target (m.context p.around) position = some (m'.context q.around) ∧
      q.WalkedIn target m' ∧ (p.settle m.done).at? position = some (q.settle m'.done) ∧
      CompleteAt m.done p.children position = (· ∈ m'.done) := by
  induction position generalizing p m with
  | nil =>
    obtain rfl := Option.some.inj hq
    exact ⟨m, rfl, h, rfl, completeAt_nil _ _⟩
  | cons i rest ih =>
    obtain ⟨c, hc, hcq⟩ := Option.bind_eq_some_iff.mp hq
    obtain ⟨inside, hbelow, hwalked, hsettled, hcomplete⟩ := h.child hc
    obtain ⟨m', hcontext, hwalked', hsettled', hcomplete'⟩ := ih hwalked hcq
    refine ⟨m', ?_, hwalked', ?_, ?_⟩
    · rw [contextAt?, hbelow, hc]
      exact hcontext
    · rw [Place.at?, hsettled]
      exact hsettled'
    · rw [hcomplete, hcomplete']

end Place

/-! ## Back from the settled form -/

theorem settleMembers_getElem?_eq_none {done : List (List String)} {around : List String}
    {members : List (String × Node)} {i : Nat} (h : members[i]? = none) :
    (placesIn around (settleMembers done around members))[i]? = none := by
  rw [List.getElem?_eq_none_iff] at h ⊢
  rw [placesIn, List.length_map, length_settleMembers]
  exact h

namespace Place

/-- The children of a settled node are settled. -/
theorem exists_of_settle_children {p c : Place} {done : List (List String)} {i : Nat}
    (h : (p.settle done).children[i]? = some c) :
    ∃ c₀ done', p.children[i]? = some c₀ ∧ c = c₀.settle done' := by
  obtain ⟨around, name, node⟩ := p
  cases node with
  | scalar s => simp [settle, Node.settle, children] at h
  | reference r => simp [settle, Node.settle, children] at h
  | array item bounds =>
    rw [children_array rfl, List.getElem?_singleton] at h ⊢
    by_cases hi : i = 0
    · rw [if_pos hi] at h
      exact ⟨_, done, if_pos hi, (Option.some.inj h).symm⟩
    · rw [if_neg hi] at h
      cases h
  | object members =>
    rw [children_object rfl, placesIn, List.getElem?_map]
    cases hm : members[i]? with
    | none =>
      have hnone := (settleMembers_getElem?_eq_none hm).symm.trans h
      cases hnone
    | some m => exact ⟨_, _, rfl, (Option.some.inj ((settleMembers_getElem? hm).symm.trans h)).symm⟩

/-- The nodes of a settled tree are the settled nodes of the tree. -/
theorem exists_of_settle_at? {p q : Place} {done : List (List String)} {position : List Nat}
    (h : (p.settle done).at? position = some q) :
    ∃ q₀ done', p.at? position = some q₀ ∧ q = q₀.settle done' := by
  induction position generalizing p done with
  | nil => exact ⟨p, done, rfl, (Option.some.inj h).symm⟩
  | cons i rest ih =>
    obtain ⟨c, hc, hq⟩ := Option.bind_eq_some_iff.mp h
    obtain ⟨c₀, done', hc₀, rfl⟩ := exists_of_settle_children hc
    obtain ⟨q₀, done'', hq₀, hsettle⟩ := ih hq
    exact ⟨q₀, done'', by rw [Place.at?, hc₀]; exact hq₀, hsettle⟩

end Place

/-- The node at a position of a settled schema is the settled node at this position. -/
theorem Schema.exists_of_settled_at? {s : Schema} {position : List Nat} {q : Place}
    (h : s.settled.at? position = some q) :
    ∃ q₀ done, s.at? position = some q₀ ∧ q = q₀.settle done := by
  cases position with
  | nil => cases h
  | cons i rest =>
    obtain ⟨root, hroot, hq⟩ := Option.bind_eq_some_iff.mp h
    cases he : s.entries[i]? with
    | none =>
      have hnone := (settleMembers_getElem?_eq_none he).symm.trans hroot
      cases hnone
    | some e =>
      obtain rfl := Option.some.inj ((settleMembers_getElem? he).symm.trans hroot)
      obtain ⟨q₀, done, hq₀, hsettle⟩ := Place.exists_of_settle_at? hq
      have hentry : (placesIn [] s.entries)[i]? = some ⟨[], e.1, e.2⟩ := by
        rw [placesIn, List.getElem?_map, he]
        rfl
      refine ⟨q₀, done, ?_, hsettle⟩
      rw [Schema.at?, placeAt?, hentry]
      exact hq₀

/-- The nodes of a settled schema are the settled nodes of the schema. -/
theorem Schema.exists_of_settled {s : Schema} {q : Place} (h : s.settled.Has q) :
    ∃ q₀ done, s.Has q₀ ∧ q = q₀.settle done := by
  obtain ⟨position, h⟩ := h
  obtain ⟨q₀, done, hq₀, hsettle⟩ := Schema.exists_of_settled_at? h
  exact ⟨q₀, done, ⟨position, hq₀⟩, hsettle⟩

/-! ## The walk of a schema -/

variable {s : Schema} {units : Entries CodeUnit} {position : List Nat} {q : Place}

/-- **Visits.** Where the walk of a schema succeeds, it walks the node at every position, at a moment
where exactly the objects over before this position are complete. -/
theorem exists_visit (h : generateUnits target s = .ok units) (hq : s.at? position = some q) :
    ∃ m : Moment, s.contextAt? target position = some (m.context q.around) ∧
      q.WalkedIn target m ∧ s.settled.at? position = some (q.settle m.done) ∧
      CompleteAt [] (placesIn [] s.entries) position = (· ∈ m.done) := by
  cases position with
  | nil => cases hq
  | cons i rest =>
    obtain ⟨root, hroot, hrest⟩ := Option.bind_eq_some_iff.mp hq
    have hentry := hroot
    rw [placesIn, List.getElem?_map] at hentry
    obtain ⟨e, he, rfl⟩ := Option.map_eq_some_iff.mp hentry
    rw [generateUnits, Except.bind_eq_ok_iff] at h
    obtain ⟨-, -, h⟩ := h
    obtain ⟨result, hwalk, -⟩ := Except.bind_eq_ok_iff.mp h
    have hinitial : Context.initial = .moment [] [] [] [.outermost] := rfl
    rw [hinitial] at hwalk
    obtain ⟨before, inner, hfront, hwalked⟩ := walkEntries_front he ⟨result, hwalk⟩
    obtain ⟨m, hcontext, hwalked', hsettled, hcomplete⟩ := hwalked.at? hrest
    refine ⟨m, ?_, hwalked', ?_, ?_⟩
    · rw [Schema.contextAt?, hinitial, hfront, hroot]
      exact hcontext
    · rw [Schema.at?, Schema.settled, placeAt?, settleMembers_getElem? he]
      exact hsettled
    · rw [completeAt_members he rest, hcomplete]

/-- A node gives the type that its settled form provides. -/
theorem yields?_eq (h : generateUnits target s = .ok units) (hq : s.at? position = some q) :
    s.yields? target position = (s.settled.at? position).map Place.provided := by
  obtain ⟨m, hcontext, ⟨⟨emitted, ctx⟩, hwalked⟩, hsettled, -⟩ := exists_visit h hq
  obtain ⟨-, rfl, -⟩ := (walkNode_ok_iff target q.node).mp hwalked
  rw [Schema.yields?, hcontext, hsettled, hq]
  simp only [Option.bind_eq_bind, Option.bind_some, hwalked, Except.toOption_ok, Node.emit_name]
  rfl

end ConfigForge
