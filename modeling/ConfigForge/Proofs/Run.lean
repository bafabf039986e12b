import ConfigForge.Proofs.Settled

/-!
# What a walk does

At every moment the context of a walk is known from a few lists: the objects around the node, the
objects that are complete, and the names taken in the open scopes. Walking a node succeeds under
conditions on the node and on these lists. It then adds the identifiers of the node to the innermost
scope and the objects of the node to the complete ones, and nothing else changes.

Results:

* `Context.declareAll_ok_iff`: names can be declared together if they are new and differ.
* `Context.declareAll_error`: otherwise the first of them that is taken stops the declarations.
* `walkNode_ok_iff`, `walkMembers_ok_iff`: when a walk succeeds, its result and the context after it.
* `walkEntries_ok_iff`: the same for the entries of a schema.
-/

namespace ConfigForge

open Emit

theorem Except.bind_eq_ok_iff {ε α β : Type} {x : Except ε α} {f : α → Except ε β} {b : β} :
    (x >>= f) = .ok b ↔ ∃ a, x = .ok a ∧ f a = .ok b := by
  cases x with
  | error e => simp [bind, Except.bind]
  | ok a => simp [bind, Except.bind]

theorem Except.bind_eq_error_iff {ε α β : Type} {x : Except ε α} {f : α → Except ε β} {e : ε} :
    (x >>= f) = .error e ↔ x = .error e ∨ ∃ a, x = .ok a ∧ f a = .error e := by
  cases x with
  | error e' => simp [bind, Except.bind]
  | ok a => simp [bind, Except.bind]

/-! ## Declarations -/

/-- The scope with further names taken. -/
def Scope.withNames (scope : Scope) (names : List String) : Scope :=
  { scope with taken := names.reverse ++ scope.taken }

/-- Whether names can be declared in a scope one after the other. -/
def Scope.Free (scope : Scope) (names : List String) : Prop :=
  names.Nodup ∧ ∀ x ∈ names, x ∉ scope.taken

theorem Scope.withNames_nil (scope : Scope) : scope.withNames [] = scope := rfl

theorem Scope.withNames_append (scope : Scope) (names more : List String) :
    scope.withNames (names ++ more) = (scope.withNames names).withNames more := by
  simp [Scope.withNames]

theorem Scope.mem_taken_withNames {scope : Scope} {names : List String} {x : String} :
    x ∈ (scope.withNames names).taken ↔ x ∈ names ∨ x ∈ scope.taken := by
  simp [Scope.withNames]

theorem Scope.free_append {scope : Scope} {names more : List String} :
    scope.Free (names ++ more) ↔ scope.Free names ∧ (scope.withNames names).Free more := by
  simp only [Scope.Free, List.nodup_append, Scope.mem_taken_withNames, List.mem_append]
  constructor
  · rintro ⟨⟨hnames, hmore, hdiff⟩, hfree⟩
    refine ⟨⟨hnames, fun x hx => hfree x (.inl hx)⟩, hmore, fun x hx => ?_⟩
    rintro (hx' | hx')
    · exact hdiff x hx' x hx rfl
    · exact hfree x (.inr hx) hx'
  · rintro ⟨⟨hnames, hfree⟩, hmore, hnew⟩
    refine ⟨⟨hnames, hmore, fun x hx y hy hxy => ?_⟩, fun x hx => ?_⟩
    · exact hnew y hy (.inl (hxy ▸ hx))
    · rcases hx with hx | hx
      · exact hfree x hx
      · exact fun hx' => hnew x hx (.inr hx')

theorem Scope.free_singleton {scope : Scope} {name : String} :
    scope.Free [name] ↔ name ∉ scope.taken := by
  simp [Scope.Free]

namespace Context

variable {ctx ctx' : Context} {scope : Scope} {outer : List Scope} {names : List String}

/-- What comes of declaring a name where a scope is open. -/
theorem declare_eq (hscopes : ctx.scopes = scope :: outer) (name : String) :
    ctx.declare name = if name ∈ scope.taken then .error (.collision scope.label name)
      else .ok { ctx with scopes := scope.withNames [name] :: outer } := by
  simp [declare, hscopes, Scope.withNames]

theorem declare_ok_iff (hscopes : ctx.scopes = scope :: outer) {name : String} :
    ctx.declare name = .ok ctx' ↔
      scope.Free [name] ∧ ctx' = { ctx with scopes := scope.withNames [name] :: outer } := by
  rw [declare_eq hscopes, Scope.free_singleton]
  by_cases h : name ∈ scope.taken
  · simp [h]
  · simp [h, eq_comm]

/-- Names can be declared one after the other exactly if they differ from each other and from those
taken before. -/
theorem declareAll_ok_iff (hscopes : ctx.scopes = scope :: outer) :
    ctx.declareAll names = .ok ctx' ↔
      scope.Free names ∧ ctx' = { ctx with scopes := scope.withNames names :: outer } := by
  induction names generalizing ctx scope with
  | nil => simp [declareAll, Scope.Free, Scope.withNames_nil, ← hscopes, eq_comm]
  | cons name rest ih =>
    rw [declareAll, Except.bind_eq_ok_iff, show name :: rest = [name] ++ rest from rfl,
      Scope.free_append, Scope.withNames_append]
    constructor
    · rintro ⟨after, hname, hrest⟩
      obtain ⟨hfree, rfl⟩ := (declare_ok_iff hscopes).mp hname
      obtain ⟨hfree', rfl⟩ := (ih rfl).mp hrest
      exact ⟨⟨hfree, hfree'⟩, rfl⟩
    · rintro ⟨⟨hfree, hfree'⟩, rfl⟩
      exact ⟨_, (declare_ok_iff hscopes).mpr ⟨hfree, rfl⟩, (ih rfl).mpr ⟨hfree', rfl⟩⟩

/-- Where names cannot be declared one after the other, one of them is taken by then. -/
theorem declareAll_error {e : GenerationError} (hscopes : ctx.scopes = scope :: outer)
    (h : ctx.declareAll names = .error e) :
    ∃ front name back, names = front ++ name :: back ∧ name ∈ (scope.withNames front).taken ∧
      e = .collision scope.label name := by
  induction names generalizing ctx scope with
  | nil => cases h
  | cons name rest ih =>
    rw [declareAll] at h
    rcases Except.bind_eq_error_iff.mp h with h | ⟨after, hname, h⟩
    · rw [declare_eq hscopes] at h
      split at h
      · next htaken => exact ⟨[], name, rest, rfl, htaken, (Except.error.inj h).symm⟩
      · cases h
    · obtain ⟨-, rfl⟩ := (declare_ok_iff hscopes).mp hname
      obtain ⟨front, other, back, rfl, htaken, he⟩ := ih rfl h
      refine ⟨name :: front, other, back, rfl, ?_, he⟩
      rwa [← Scope.withNames_append] at htaken

end Context

/-- The context at a moment of a walk: inside the objects `around`, with the objects `done`
complete. -/
def Context.moment (done : List (List String)) (around : List String) (arrays : List ItemBounds)
    (scopes : List Scope) : Context :=
  ⟨⟨around⟩, arrays, tableOf done, scopes⟩

section

variable {done : List (List String)} {around : List String} {arrays : List ItemBounds}
  {scope : Scope} {outer : List Scope} {ctx' : Context}

theorem qualify_moment {name : String} :
    (Context.moment done around arrays outer).path.qualify name =
      ⟨around.map typeName, typeName name⟩ := rfl

theorem enterObject_moment {name : String} {type : QualifiedName} :
    (Context.moment done around arrays outer).enterObject name type =
      .moment done (around ++ [name]) arrays (Scope.ofClass type :: outer) := rfl

theorem enterArray_moment {bounds : ItemBounds} :
    (Context.moment done around arrays outer).enterArray bounds =
      .moment done around (bounds :: arrays) outer := rfl

theorem leaveArray_moment {bounds : ItemBounds} :
    (Context.moment done around (bounds :: arrays) outer).leaveArray =
      .ok (bounds, .moment done around arrays outer) := rfl

theorem leaveObject_moment {name : String} {inner : Scope} :
    (Context.moment done (around ++ [name]) arrays (inner :: scope :: outer)).leaveObject
        ⟨around.map typeName, typeName name⟩ =
      .ok (.moment (done ++ [around ++ [name]]) around arrays (scope :: outer)) := by
  have hleave : (⟨around ++ [name]⟩ : NamePath).leave = .ok (name, ⟨around⟩) :=
    NamePath.leave_push ⟨around⟩ name
  simp only [Context.leaveObject, Context.moment, hleave, bind, Except.bind, pure, Except.pure]
  rw [tableOf_append, QualifiedName.ofPath_append]
  rfl

theorem declare_ok_iff {name : String} :
    (Context.moment done around arrays (scope :: outer)).declare name = .ok ctx' ↔
      scope.Free [name] ∧
        ctx' = Context.moment done around arrays (scope.withNames [name] :: outer) :=
  Context.declare_ok_iff rfl

theorem declareAll_ok_iff {names : List String} :
    (Context.moment done around arrays (scope :: outer)).declareAll names = .ok ctx' ↔
      scope.Free names ∧
        ctx' = Context.moment done around arrays (scope.withNames names :: outer) :=
  Context.declareAll_ok_iff rfl

theorem declareType_ok_iff {type : QualifiedName} :
    (Context.moment done around arrays (scope :: outer)).declareType type = .ok ctx' ↔
      scope.Free (typeNames type.name) ∧
        ctx' = Context.moment done around arrays (scope.withNames (typeNames type.name) :: outer) :=
  declareAll_ok_iff

end

/-! ## Conditions on names -/

/-- Whether the members of an object have allowed names and declare, in its class, identifiers that
differ from each other and from those taken when the scope is opened. -/
def Place.NamesApart (p : Place) : Prop :=
  ∀ members, p.node = .object members →
    (∀ m ∈ members, isMemberName m.1 = true) ∧
      (Scope.ofClass p.type).Free (memberIdentifiers members)

/-- Whether the names are apart in all objects of a tree. -/
def Place.AllNamesApart (p : Place) : Prop :=
  ∀ q, p.Has q → q.NamesApart

theorem Place.allNamesApart_iff {p : Place} :
    p.AllNamesApart ↔ p.NamesApart ∧ ∀ c ∈ p.children, c.AllNamesApart := by
  constructor
  · intro h
    exact ⟨h p p.has_self, fun c hc q hq => h q (Place.has_of_child hc hq)⟩
  · rintro ⟨hp, hbelow⟩ q hq
    rcases Place.has_iff.mp hq with rfl | ⟨c, hc, hcq⟩
    · exact hp
    · exact hbelow c hc q hcq

theorem allNamesApart_object {around : List String} {name : String}
    {members : List (String × Node)} :
    (⟨around, name, .object members⟩ : Place).AllNamesApart ↔
      ((∀ m ∈ members, isMemberName m.1 = true) ∧
        (Scope.ofClass ⟨around.map typeName, typeName name⟩).Free (memberIdentifiers members)) ∧
      ∀ p ∈ placesIn (around ++ [name]) members, p.AllNamesApart := by
  rw [Place.allNamesApart_iff, Place.children_object rfl]
  refine and_congr ⟨fun h => h members rfl, fun h members' hm => ?_⟩ Iff.rfl
  obtain rfl := Node.object.inj hm
  exact h

theorem allNamesApart_array {around : List String} {name : String} {item : Node}
    {bounds : ItemBounds} :
    (⟨around, name, .array item bounds⟩ : Place).AllNamesApart ↔
      (⟨around, itemName name, item⟩ : Place).AllNamesApart := by
  rw [Place.allNamesApart_iff, Place.children_array rfl]
  simp [Place.NamesApart]

theorem allNamesApart_of_leaf {p : Place} (hobject : p.node.isObject = false)
    (harray : p.node.isArray = false) : p.AllNamesApart := by
  obtain ⟨around, name, node⟩ := p
  rw [Place.allNamesApart_iff]
  cases node with
  | object members => simp [Node.isObject] at hobject
  | array item bounds => simp [Node.isArray] at harray
  | scalar s => simp [Place.NamesApart, Place.children]
  | reference r => simp [Place.NamesApart, Place.children]

mutual

/-- Settling keeps names apart. -/
theorem Place.AllNamesApart.settle (done : List (List String)) (around : List String)
    (name : String) : ∀ node : Node, (⟨around, name, node⟩ : Place).AllNamesApart →
    (⟨around, name, node.settle done around name⟩ : Place).AllNamesApart
  | .scalar _, h => h
  | .object members, h => by
    obtain ⟨⟨hnames, hfree⟩, hbelow⟩ := allNamesApart_object.mp h
    refine allNamesApart_object.mpr ⟨⟨fun m hm => ?_, ?_⟩, ?_⟩
    · obtain ⟨before, node, hmem, -⟩ := mem_settleMembers hm
      exact hnames (m.1, node) hmem
    · rw [memberIdentifiers_settleMembers]
      exact hfree
    · exact allNamesApart_settleMembers done (around ++ [name]) members hbelow
  | .array item _, h =>
    allNamesApart_array.mpr
      (Place.AllNamesApart.settle done around (itemName name) item (allNamesApart_array.mp h))
  | .reference _, _ => allNamesApart_of_leaf rfl rfl

theorem allNamesApart_settleMembers (done : List (List String)) (around : List String) :
    ∀ members : List (String × Node), (∀ p ∈ placesIn around members, p.AllNamesApart) →
      ∀ p ∈ placesIn around (settleMembers done around members), p.AllNamesApart
  | [], h => h
  | (name, node) :: rest, h => by
    rw [placesIn_cons, List.forall_mem_cons] at h
    rw [settleMembers, placesIn_cons, List.forall_mem_cons]
    exact ⟨Place.AllNamesApart.settle done around name node h.1,
      allNamesApart_settleMembers _ around rest h.2⟩

end

/-! ## The walk -/

/-- A reference is walked by settling it. -/
theorem walkNode_reference {target : Target} {done : List (List String)} {around : List String}
    {arrays : List ItemBounds} {scopes : List Scope} {name : String} {r : Reference} :
    walkNode target (.moment done around arrays scopes) name (.reference r) =
      match r.meant? done around with
      | some path => .ok (⟨Code.Fragment.empty, .ofPath path⟩, .moment done around arrays scopes)
      | none => .error (.unresolved ((⟨around⟩ : NamePath).memberPath name) r.target) := by
  have hresolve : (Context.moment done around arrays scopes).references.resolve?
      (Context.moment done around arrays scopes).path.names r =
        (r.meant? done around).map .ofPath := resolve?_tableOf done around r
  rw [walkNode, hresolve]
  cases r.meant? done around <;> rfl

section

variable (target : Target)

mutual

/-- When a node can be walked, the code that comes out, and the context afterwards. -/
theorem walkNode_ok_iff : ∀ (node : Node) {done : List (List String)} {around : List String}
    {name : String} {arrays : List ItemBounds} {scope : Scope} {outer : List Scope}
    {emitted : EmittedType} {ctx' : Context},
    walkNode target (.moment done around arrays (scope :: outer)) name node = .ok (emitted, ctx') ↔
      (node.EachReference Reference.Resolves done around name ∧
        (⟨around, name, node⟩ : Place).AllNamesApart ∧ scope.Free (node.identifiers name)) ∧
      emitted = (node.settle done around name).emit target around name ∧
      ctx' = .moment (done ++ node.completed around name) around arrays
        (scope.withNames (node.identifiers name) :: outer)
  | .scalar s, done, around, name, arrays, scope, outer, emitted, ctx' => by
    have hapart : (⟨around, name, .scalar s⟩ : Place).AllNamesApart :=
      allNamesApart_of_leaf rfl rfl
    rw [walkNode, Except.bind_eq_ok_iff, Node.identifiers_scalar]
    simp only [declareType_ok_iff, qualify_moment, pure, Except.pure, Except.ok.injEq,
      Prod.mk.injEq, Node.EachReference, hapart, Node.settle, Node.emit, Node.completed,
      List.append_nil, true_and]
    constructor
    · rintro ⟨ctx, ⟨hfree, rfl⟩, rfl, rfl⟩
      exact ⟨hfree, rfl, rfl⟩
    · rintro ⟨hfree, rfl, rfl⟩
      exact ⟨_, ⟨hfree, rfl⟩, rfl, rfl⟩
  | .object members, done, around, name, arrays, scope, outer, emitted, ctx' => by
    rw [walkNode, Except.bind_eq_ok_iff, allNamesApart_object, Node.identifiers_object]
    simp only [declareType_ok_iff, Except.bind_eq_ok_iff, qualify_moment, Node.EachReference,
      Node.settle, Node.emit, Node.completed]
    constructor
    · rintro ⟨ctx, ⟨hfree, rfl⟩, ⟨out, inside⟩, hmembers, after, hleave, hresult⟩
      rw [enterObject_moment] at hmembers
      obtain ⟨⟨hrefs, hnames, hapart, hclass⟩, rfl, rfl⟩ := (walkMembers_ok_iff members).mp hmembers
      rw [leaveObject_moment] at hleave
      obtain rfl := Except.ok.inj hleave
      obtain ⟨rfl, rfl⟩ := Prod.mk.inj (Except.ok.inj hresult)
      refine ⟨⟨hrefs, ⟨⟨hnames, hclass⟩, hapart⟩, hfree⟩, rfl, ?_⟩
      rw [List.append_assoc]
    · rintro ⟨⟨hrefs, ⟨⟨hnames, hclass⟩, hapart⟩, hfree⟩, rfl, rfl⟩
      refine ⟨_, ⟨hfree, rfl⟩, ⟨_, _⟩,
        (walkMembers_ok_iff members).mpr ⟨⟨hrefs, hnames, hapart, hclass⟩, rfl, rfl⟩, _,
        leaveObject_moment, ?_⟩
      rw [List.append_assoc]
      rfl
  | .array item bounds, done, around, name, arrays, scope, outer, emitted, ctx' => by
    rw [walkNode, Except.bind_eq_ok_iff, allNamesApart_array, Node.identifiers_array,
      Scope.free_append, Scope.withNames_append]
    simp only [declareType_ok_iff, Except.bind_eq_ok_iff, qualify_moment, Node.EachReference,
      Node.settle, Node.emit, Node.completed]
    constructor
    · rintro ⟨ctx, ⟨hfree, rfl⟩, ⟨out, inside⟩, hitem, ⟨left, after⟩, hleave, hresult⟩
      rw [enterArray_moment] at hitem
      obtain ⟨⟨hrefs, hapart, hfree'⟩, rfl, rfl⟩ := (walkNode_ok_iff item).mp hitem
      rw [leaveArray_moment] at hleave
      obtain ⟨rfl, rfl⟩ := Prod.mk.inj (Except.ok.inj hleave)
      obtain ⟨rfl, rfl⟩ := Prod.mk.inj (Except.ok.inj hresult)
      exact ⟨⟨hrefs, hapart, hfree, hfree'⟩, rfl, rfl⟩
    · rintro ⟨⟨hrefs, hapart, hfree, hfree'⟩, rfl, rfl⟩
      exact ⟨_, ⟨hfree, rfl⟩, ⟨_, _⟩,
        (walkNode_ok_iff item).mpr ⟨⟨hrefs, hapart, hfree'⟩, rfl, rfl⟩, ⟨_, _⟩,
        leaveArray_moment, rfl⟩
  | .reference r, done, around, name, arrays, scope, outer, emitted, ctx' => by
    have hapart : (⟨around, name, .reference r⟩ : Place).AllNamesApart :=
      allNamesApart_of_leaf rfl rfl
    have hfree : scope.Free [] := ⟨List.nodup_nil, fun x hx => nomatch hx⟩
    simp only [walkNode_reference, Node.identifiers_reference, Node.EachReference, hapart, hfree,
      Node.settle, Node.emit, Node.completed, List.append_nil, Scope.withNames_nil, and_true,
      ← meant?_isSome_iff]
    cases hmeant : r.meant? done around with
    | none => simp
    | some path =>
      simp only [settle_of_meant? hmeant, Except.ok.injEq, Prod.mk.injEq, Option.isSome_some,
        true_and]
      exact and_congr eq_comm eq_comm

/-- When the members of an object can be walked, what comes out, and the context afterwards. -/
theorem walkMembers_ok_iff : ∀ (members : List (String × Node)) {done : List (List String)}
    {around : List String} {arrays : List ItemBounds} {scope : Scope} {outer : List Scope}
    {emitted : List Member} {ctx' : Context},
    walkMembers target (.moment done around arrays (scope :: outer)) members =
        .ok (emitted, ctx') ↔
      (EachReferenceIn Reference.Resolves done around members ∧
        (∀ m ∈ members, isMemberName m.1 = true) ∧
        (∀ p ∈ placesIn around members, p.AllNamesApart) ∧
        scope.Free (memberIdentifiers members)) ∧
      emitted = emitMembers target around (settleMembers done around members) ∧
      ctx' = .moment (done ++ completedMembers around members) around arrays
        (scope.withNames (memberIdentifiers members) :: outer)
  | [], done, around, arrays, scope, outer, emitted, ctx' => by
    simp only [walkMembers, EachReferenceIn, memberIdentifiers, List.flatMap_nil, Scope.Free,
      settleMembers, emitMembers, completedMembers, Scope.withNames_nil, placesIn, List.map_nil,
      List.append_nil, List.nodup_nil, List.not_mem_nil, Except.ok.injEq, Prod.mk.injEq,
      false_implies, implies_true, true_and]
    exact and_congr eq_comm eq_comm
  | (name, node) :: rest, done, around, arrays, scope, outer, emitted, ctx' => by
    rw [walkMembers, memberIdentifiers_cons, placesIn_cons]
    simp only [List.forall_mem_cons, Scope.free_append, Scope.withNames_append, EachReferenceIn,
      settleMembers, emitMembers, completedMembers]
    by_cases hname : isMemberName name = true
    · rw [if_pos hname, Except.bind_eq_ok_iff]
      simp only [Except.bind_eq_ok_iff]
      constructor
      · rintro ⟨⟨out, inside⟩, hnode, ctx, hdeclare, ⟨outs, after⟩, hrest, hresult⟩
        obtain ⟨⟨hrefs, hapart, hfree⟩, rfl, rfl⟩ := (walkNode_ok_iff node).mp hnode
        obtain ⟨hfree', rfl⟩ := declare_ok_iff.mp hdeclare
        obtain ⟨⟨hrefs', hnames, hapart', hfree''⟩, rfl, rfl⟩ := (walkMembers_ok_iff rest).mp hrest
        obtain ⟨rfl, rfl⟩ := Prod.mk.inj (Except.ok.inj hresult)
        refine ⟨⟨⟨hrefs, hrefs'⟩, ⟨hname, hnames⟩, ⟨hapart, hapart'⟩, ⟨hfree, hfree'⟩, hfree''⟩,
          rfl, ?_⟩
        rw [List.append_assoc]
      · rintro ⟨⟨⟨hrefs, hrefs'⟩, ⟨-, hnames⟩, ⟨hapart, hapart'⟩, ⟨hfree, hfree'⟩, hfree''⟩, rfl, rfl⟩
        refine ⟨⟨_, _⟩, (walkNode_ok_iff node).mpr ⟨⟨hrefs, hapart, hfree⟩, rfl, rfl⟩, _,
          declare_ok_iff.mpr ⟨hfree', rfl⟩, ⟨_, _⟩,
          (walkMembers_ok_iff rest).mpr ⟨⟨hrefs', hnames, hapart', hfree''⟩, rfl, rfl⟩, ?_⟩
        rw [List.append_assoc]
        rfl
    · rw [if_neg hname]
      simp [hname]

end

/-- When entries can be walked, their units, and the context afterwards. -/
theorem walkEntries_ok_iff (entries : List (String × Node)) {done : List (List String)}
    {arrays : List ItemBounds} {scope : Scope} {outer : List Scope}
    {units : List (String × CodeUnit)} {ctx' : Context} :
    walkEntries target (.moment done [] arrays (scope :: outer)) entries = .ok (units, ctx') ↔
      (EachReferenceIn Reference.Resolves done [] entries ∧
        (∀ e ∈ entries, isIdentifier e.1 = true ∧ e.2.isReference = false) ∧
        (∀ p ∈ placesIn [] entries, p.AllNamesApart) ∧
        scope.Free (entries.flatMap fun e => e.2.identifiers e.1)) ∧
      units = (settleMembers done [] entries).map (unitOf target) ∧
      ctx' = .moment (done ++ completedMembers [] entries) [] arrays
        (scope.withNames (entries.flatMap fun e => e.2.identifiers e.1) :: outer) := by
  induction entries generalizing done scope units ctx' with
  | nil =>
    simp only [walkEntries, EachReferenceIn, List.flatMap_nil, Scope.Free, settleMembers,
      completedMembers, Scope.withNames_nil, placesIn, List.map_nil, List.append_nil,
      List.nodup_nil, List.not_mem_nil, Except.ok.injEq, Prod.mk.injEq, false_implies,
      implies_true, true_and]
    exact and_congr eq_comm eq_comm
  | cons entry rest ih =>
    obtain ⟨name, node⟩ := entry
    rw [walkEntries, List.flatMap_cons, placesIn_cons]
    simp only [List.forall_mem_cons, Scope.free_append, Scope.withNames_append, EachReferenceIn,
      settleMembers, completedMembers, List.map_cons]
    by_cases hname : isIdentifier name = true
    · by_cases href : node.isReference = true
      · simp [hname, href]
      · rw [if_neg (by simp [hname]), if_neg href, Except.bind_eq_ok_iff]
        simp only [Except.bind_eq_ok_iff]
        constructor
        · rintro ⟨⟨out, inside⟩, hnode, ⟨outs, after⟩, hrest, hresult⟩
          obtain ⟨⟨hrefs, hapart, hfree⟩, rfl, rfl⟩ := (walkNode_ok_iff target node).mp hnode
          obtain ⟨⟨hrefs', hnames, hapart', hfree'⟩, rfl, rfl⟩ := ih.mp hrest
          obtain ⟨rfl, rfl⟩ := Prod.mk.inj (Except.ok.inj hresult)
          refine ⟨⟨⟨hrefs, hrefs'⟩, ⟨⟨hname, by simpa using href⟩, hnames⟩, ⟨hapart, hapart'⟩,
            hfree, hfree'⟩, rfl, ?_⟩
          rw [List.append_assoc]
        · rintro ⟨⟨⟨hrefs, hrefs'⟩, ⟨-, hnames⟩, ⟨hapart, hapart'⟩, hfree, hfree'⟩, rfl, rfl⟩
          refine ⟨⟨_, _⟩, (walkNode_ok_iff target node).mpr ⟨⟨hrefs, hapart, hfree⟩, rfl, rfl⟩,
            ⟨_, _⟩, ih.mpr ⟨⟨hrefs', hnames, hapart', hfree'⟩, rfl, rfl⟩, ?_⟩
          rw [List.append_assoc]
          rfl
    · simp [hname]

end

end ConfigForge
