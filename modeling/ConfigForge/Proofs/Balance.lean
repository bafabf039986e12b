import ConfigForge.Proofs.Faults
import ConfigForge.Proofs.Locality

/-!
# The balance of a walk

A walk enters objects and arrays and leaves them again. Whatever context the walk of a node starts
in, it ends in a context with the same objects and arrays around, the same scopes open, and the same
names in all scopes but the innermost. In the innermost scope names are added, and so are complete
objects to the table. So the bounds that an array is left with are those it was entered with.

The table is keyed by dotted texts. In a run all names are identifiers, a dotted text is spelled by
one path only, and what a key leads to stays as it is.

Results:

* `walkNode_grows`, `walkMembers_grows`: what a walk does to any context.
* `walkNode_array`: the code of an array is made with the bounds of the array.
* `Schema.Visits.wellNamed`: a run comes to nodes among objects with identifiers for names.
* `walk_keeps_balance`: a walk keeps its balance, and no run stops because it lost it.
-/

namespace ConfigForge

open Emit

/-! ## Growing contexts -/

namespace Context

/-- Whether a context comes from another by adding names to the innermost scope and complete objects
to the table. -/
structure Grows (ctx ctx' : Context) : Prop where
  path : ctx'.path = ctx.path
  arrays : ctx'.arrays = ctx.arrays
  labels : ctx'.scopes.map Scope.label = ctx.scopes.map Scope.label
  outer : ctx'.scopes.tail = ctx.scopes.tail
  taken : ∀ scope, ctx.scopes.head? = some scope → ∀ scope', ctx'.scopes.head? = some scope' →
    scope.taken <:+ scope'.taken
  references : ctx.references.objects.names <+: ctx'.references.objects.names

theorem Grows.refl (ctx : Context) : ctx.Grows ctx := by
  refine ⟨rfl, rfl, rfl, rfl, fun scope hscope scope' hscope' => ?_, List.prefix_refl _⟩
  obtain rfl := Option.some.inj (hscope.symm.trans hscope')
  exact List.suffix_refl _

theorem Grows.trans {a b c : Context} (h : a.Grows b) (h' : b.Grows c) : a.Grows c := by
  refine ⟨h'.path.trans h.path, h'.arrays.trans h.arrays, h'.labels.trans h.labels,
    h'.outer.trans h.outer, fun scope hscope scope' hscope' => ?_, h.references.trans h'.references⟩
  -- the scopes between are as many as those before, so there is an innermost one
  cases hbetween : b.scopes with
  | nil =>
    have hlabels := h.labels
    rw [hbetween, List.map_nil, eq_comm, List.map_eq_nil_iff] at hlabels
    rw [hlabels] at hscope
    cases hscope
  | cons inner outer =>
    have hinner : b.scopes.head? = some inner := by rw [hbetween]; rfl
    exact (h.taken scope hscope inner hinner).trans (h'.taken inner hinner scope' hscope')

theorem declare_grows {ctx ctx' : Context} {name : String} (h : ctx.declare name = .ok ctx') :
    ctx.Grows ctx' := by
  rw [declare] at h
  cases hscopes : ctx.scopes with
  | nil => rw [hscopes] at h; cases h
  | cons inner outer =>
    simp only [hscopes] at h
    split at h
    · cases h
    · obtain rfl := Except.ok.inj h
      refine ⟨rfl, rfl, by rw [hscopes]; rfl, by rw [hscopes]; rfl,
        fun scope hscope scope' hscope' => ?_, List.prefix_refl _⟩
      rw [hscopes] at hscope
      obtain rfl := Option.some.inj hscope
      obtain rfl := Option.some.inj hscope'
      exact List.suffix_cons name inner.taken

theorem declareAll_grows {ctx ctx' : Context} {names : List String}
    (h : ctx.declareAll names = .ok ctx') : ctx.Grows ctx' := by
  induction names generalizing ctx with
  | nil =>
    obtain rfl := Except.ok.inj h
    exact .refl ctx
  | cons name rest ih =>
    obtain ⟨between, hname, hrest⟩ := Except.bind_eq_ok_iff.mp h
    exact (declare_grows hname).trans (ih hrest)

/-- An object that was entered is left into the scopes around it. -/
theorem leaveObject_grows {ctx inside ctx' : Context} {name : String} {type : QualifiedName}
    (hinside : (ctx.enterObject name type).Grows inside) (h : inside.leaveObject type = .ok ctx') :
    ctx.Grows ctx' := by
  have hscopes : inside.scopes.tail = ctx.scopes := hinside.outer
  have hpath : inside.path = ctx.path.push name := hinside.path
  rw [leaveObject] at h
  cases hopen : inside.scopes with
  | nil => rw [hopen] at h; cases h
  | cons inner around =>
    rw [hopen] at hscopes h
    cases around with
    | nil => cases h
    | cons scope outer =>
      rw [hpath, NamePath.leave_push] at h
      obtain rfl := Except.ok.inj h
      refine ⟨rfl, hinside.arrays, by rw [← hscopes]; rfl, by rw [← hscopes]; rfl,
        fun scope' hscope' last hlast => ?_, ?_⟩
      · rw [← hscopes] at hscope'
        obtain rfl := Option.some.inj (hscope'.symm.trans hlast)
        exact List.suffix_refl _
      · refine hinside.references.trans ?_
        change _ <+: (inside.references.objects.put _ type).names
        rw [Entries.names_put]
        split
        · exact List.prefix_refl _
        · exact List.prefix_append _ _

/-- An array that was entered is left with the bounds it was entered with. -/
theorem leaveArray_grows {ctx inside : Context} {bounds : ItemBounds}
    (hinside : (ctx.enterArray bounds).Grows inside) :
    ∃ ctx', inside.leaveArray = .ok (bounds, ctx') ∧ ctx.Grows ctx' := by
  have harrays : inside.arrays = bounds :: ctx.arrays := hinside.arrays
  refine ⟨{ inside with arrays := ctx.arrays }, by rw [leaveArray, harrays], ?_⟩
  exact ⟨hinside.path, rfl, hinside.labels, hinside.outer, hinside.taken, hinside.references⟩

end Context

/-! ## Walks in any context -/

section

variable (target : Target)

mutual

/-- Walking a node makes the context grow. -/
theorem walkNode_grows : ∀ (node : Node) {ctx ctx' : Context} {name : String}
    {emitted : EmittedType}, walkNode target ctx name node = .ok (emitted, ctx') → ctx.Grows ctx'
  | .scalar s, ctx, ctx', name, emitted => by
    intro h
    obtain ⟨declared, hdeclare, h⟩ := Except.bind_eq_ok_iff.mp h
    obtain ⟨-, rfl⟩ := Prod.mk.inj (Except.ok.inj h)
    exact Context.declareAll_grows hdeclare
  | .object members, ctx, ctx', name, emitted => by
    intro h
    obtain ⟨declared, hdeclare, h⟩ := Except.bind_eq_ok_iff.mp h
    obtain ⟨⟨out, inside⟩, hmembers, h⟩ := Except.bind_eq_ok_iff.mp h
    obtain ⟨left, hleave, h⟩ := Except.bind_eq_ok_iff.mp h
    obtain ⟨-, rfl⟩ := Prod.mk.inj (Except.ok.inj h)
    exact (Context.declareAll_grows hdeclare).trans
      (Context.leaveObject_grows (walkMembers_grows members hmembers) hleave)
  | .array item bounds, ctx, ctx', name, emitted => by
    intro h
    obtain ⟨declared, hdeclare, h⟩ := Except.bind_eq_ok_iff.mp h
    obtain ⟨⟨out, inside⟩, hitem, h⟩ := Except.bind_eq_ok_iff.mp h
    obtain ⟨⟨found, left⟩, hleave, h⟩ := Except.bind_eq_ok_iff.mp h
    obtain ⟨-, rfl⟩ := Prod.mk.inj (Except.ok.inj h)
    obtain ⟨after, hleft, hgrows⟩ := Context.leaveArray_grows (walkNode_grows item hitem)
    obtain ⟨-, rfl⟩ := Prod.mk.inj (Except.ok.inj (hleave.symm.trans hleft))
    exact (Context.declareAll_grows hdeclare).trans hgrows
  | .reference r, ctx, ctx', name, emitted => by
    intro h
    rw [walkNode] at h
    split at h
    · obtain ⟨-, rfl⟩ := Prod.mk.inj (Except.ok.inj h)
      exact .refl ctx
    · cases h

/-- Walking members makes the context grow. -/
theorem walkMembers_grows : ∀ (members : List (String × Node)) {ctx ctx' : Context}
    {emitted : List Member}, walkMembers target ctx members = .ok (emitted, ctx') → ctx.Grows ctx'
  | [], ctx, ctx', emitted => by
    intro h
    obtain ⟨-, rfl⟩ := Prod.mk.inj (Except.ok.inj h)
    exact .refl ctx
  | (name, node) :: rest, ctx, ctx', emitted => by
    intro h
    rw [walkMembers] at h
    split at h
    · obtain ⟨⟨out, inside⟩, hnode, h⟩ := Except.bind_eq_ok_iff.mp h
      obtain ⟨declared, hdeclare, h⟩ := Except.bind_eq_ok_iff.mp h
      obtain ⟨⟨outs, after⟩, hrest, h⟩ := Except.bind_eq_ok_iff.mp h
      obtain ⟨-, rfl⟩ := Prod.mk.inj (Except.ok.inj h)
      exact ((walkNode_grows node hnode).trans (Context.declare_grows hdeclare)).trans
        (walkMembers_grows rest hrest)
    · cases h

end

/-- The code of an array is made of the code of its item, which is walked inside the array, and of
the bounds that the array is left with, which are its own. -/
theorem walkNode_array {item : Node} {bounds : ItemBounds} {ctx ctx' : Context} {name : String}
    {emitted : EmittedType}
    (h : walkNode target ctx name (.array item bounds) = .ok (emitted, ctx')) :
    ∃ declared out inside, ctx.declareType (ctx.path.qualify name) = .ok declared ∧
      walkNode target (declared.enterArray bounds) (itemName name) item = .ok (out, inside) ∧
      inside.leaveArray = .ok (bounds, ctx') ∧
      emitted.fragment = vectorFragment target (typeName name) out bounds := by
  obtain ⟨declared, hdeclare, h⟩ := Except.bind_eq_ok_iff.mp h
  obtain ⟨⟨out, inside⟩, hitem, h⟩ := Except.bind_eq_ok_iff.mp h
  obtain ⟨⟨found, left⟩, hleave, h⟩ := Except.bind_eq_ok_iff.mp h
  obtain ⟨rfl, rfl⟩ := Prod.mk.inj (Except.ok.inj h)
  obtain ⟨after, hleft, -⟩ := Context.leaveArray_grows (walkNode_grows target item hitem)
  obtain ⟨rfl, rfl⟩ := Prod.mk.inj (Except.ok.inj (hleave.symm.trans hleft))
  exact ⟨declared, out, inside, hdeclare, hitem, hleave, rfl⟩

end

/-! ## Visits -/

/-- The visits of a run: the contexts in which it comes to nodes, with the name and the node. Bounds
and defaults have been checked, and so has the name. -/
inductive Schema.Visits (target : Target) (s : Schema) : Context → String → Node → Prop where
  | entry {front back : List (String × Node)} {name : String} {node : Node} {ctx : Context}
      {units : List (String × CodeUnit)} : s.check = .ok () →
      s.entries = front ++ (name, node) :: back →
      walkEntries target .initial front = .ok (units, ctx) →
      isIdentifier name = true → node.isReference = false → Visits target s ctx name node
  | member {front back : List (String × Node)} {name outer : String} {node : Node}
      {ctx declared inside : Context} {emitted : List Member} :
      Visits target s ctx outer (.object (front ++ (name, node) :: back)) →
      ctx.declareType (ctx.path.qualify outer) = .ok declared →
      walkMembers target (declared.enterObject outer (ctx.path.qualify outer)) front =
        .ok (emitted, inside) →
      isMemberName name = true → Visits target s inside name node
  | item {name : String} {item : Node} {bounds : ItemBounds} {ctx declared : Context} :
      Visits target s ctx name (.array item bounds) →
      ctx.declareType (ctx.path.qualify name) = .ok declared →
      Visits target s (declared.enterArray bounds) (itemName name) item

/-- Whether a context is one of a walk with identifiers for names. -/
def Context.WellNamed (ctx : Context) : Prop :=
  ∃ done around arrays scope outer, ctx = .moment done around arrays (scope :: outer) ∧
    Spelled done ∧ DotFree around

theorem dotFree_append_singleton {around : List String} {name : String} (haround : DotFree around)
    (hname : isIdentifier name = true) : DotFree (around ++ [name]) := by
  intro x hx
  rcases List.mem_append.mp hx with hx | hx
  · exact haround x hx
  · rw [List.mem_singleton.mp hx]
    exact dot_not_mem_of_isIdentifier hname

/-- Where names are apart they are identifiers, and the paths of a tree have no dots in their
names. -/
theorem Place.AllNamesApart.dotFree {p q : Place} (h : p.AllNamesApart)
    (hname : isIdentifier p.name = true) (haround : DotFree p.around) (hq : p.Has q) :
    DotFree q.path := by
  induction p using Place.induction with
  | step p ih =>
    rcases Place.has_iff.mp hq with rfl | ⟨c, hc, hcq⟩
    · exact dotFree_append_singleton haround hname
    · have hapart := (Place.allNamesApart_iff.mp h).2 c hc
      cases hnode : p.node with
      | scalar s => rw [Place.children, hnode] at hc; cases hc
      | reference r => rw [Place.children, hnode] at hc; cases hc
      | array item bounds =>
        have hitem := hc
        rw [Place.children_array hnode, List.mem_singleton] at hitem
        subst hitem
        exact ih _ hc hapart (isIdentifier_itemName hname) haround hcq
      | object members =>
        have hmember := hc
        rw [Place.children_object hnode] at hmember
        obtain ⟨m, hm, rfl⟩ := mem_placesIn.mp hmember
        have hm' := ((Place.allNamesApart_iff.mp h).1 members hnode).1 m hm
        exact ih _ hc hapart (isMemberName_iff.mp hm').1 (dotFree_append_singleton haround hname)
          hcq

theorem spelled_append {done more : List (List String)} (h : Spelled done) (h' : Spelled more) :
    Spelled (done ++ more) := by
  intro path hpath
  rcases List.mem_append.mp hpath with hpath | hpath
  · exact h path hpath
  · exact h' path hpath

/-- The objects of members with identifiers for names are spelled without dots. -/
theorem spelled_completedMembers {around : List String} {members : List (String × Node)}
    (haround : DotFree around) (hnames : ∀ m ∈ members, isIdentifier m.1 = true)
    (hapart : ∀ p ∈ placesIn around members, p.AllNamesApart) :
    Spelled (completedMembers around members) := by
  intro path hpath
  rw [completedMembers_eq, List.mem_flatMap] at hpath
  obtain ⟨root, hroot, hpath⟩ := hpath
  refine Place.spelled_completed (fun q hq => ?_) path hpath
  have hapart' := hapart root hroot
  obtain ⟨m, hm, rfl⟩ := mem_placesIn.mp hroot
  exact hapart'.dotFree (hnames m hm) haround hq

/-- A run comes to nodes with identifiers for names, among objects with identifiers for names. -/
theorem Schema.Visits.wellNamed {target : Target} {s : Schema} {ctx : Context} {name : String}
    {node : Node} (h : s.Visits target ctx name node) :
    ctx.WellNamed ∧ isIdentifier name = true := by
  induction h with
  | entry _ _ hfront hname _ =>
    have hstart : Context.initial = .moment [] [] [] [.outermost] := rfl
    rw [hstart] at hfront
    obtain ⟨⟨-, hentries, hapart, -⟩, -, rfl⟩ := (walkEntries_ok_iff target _).mp hfront
    have hroot : DotFree [] := List.forall_mem_nil _
    refine ⟨⟨_, _, _, _, _, rfl, ?_, hroot⟩, hname⟩
    exact spelled_append (List.forall_mem_nil _)
      (spelled_completedMembers hroot (fun e he => (hentries e he).1) hapart)
  | member _ hdeclare hfront hname ih =>
    obtain ⟨⟨done, around, arrays, scope, outer, rfl, hdone, haround⟩, houter⟩ := ih
    obtain ⟨-, rfl⟩ := declareType_ok_iff.mp hdeclare
    rw [enterObject_moment] at hfront
    obtain ⟨⟨-, hnames, hapart, -⟩, -, rfl⟩ := (walkMembers_ok_iff target _).mp hfront
    have hinside := dotFree_append_singleton haround houter
    refine ⟨⟨_, _, _, _, _, rfl, ?_, hinside⟩, (isMemberName_iff.mp hname).1⟩
    exact spelled_append hdone
      (spelled_completedMembers hinside (fun m hm => (isMemberName_iff.mp (hnames m hm)).1) hapart)
  | item _ hdeclare ih =>
    obtain ⟨⟨done, around, arrays, scope, outer, rfl, hdone, haround⟩, hname⟩ := ih
    obtain ⟨-, rfl⟩ := declareType_ok_iff.mp hdeclare
    exact ⟨⟨_, _, _, _, _, rfl, hdone, haround⟩, isIdentifier_itemName hname⟩

/-! ## The table of complete objects -/

theorem dotted_inj {path path' : List String} (hpath : path ≠ [] ∧ DotFree path)
    (hpath' : path' ≠ [] ∧ DotFree path') (h : dotted path = dotted path') : path = path' := by
  rw [← segments_dotted hpath.1 hpath.2, h, segments_dotted hpath'.1 hpath'.2]

/-- Further objects do not change what a key leads to. -/
theorem latest?_append_of_spelled {done more : List (List String)} {key : String}
    {path : List String} (hspelled : Spelled (done ++ more)) (h : latest? done key = some path) :
    latest? (done ++ more) key = some path := by
  have hmem : path ∈ done ++ more := List.mem_append_left _ (latest?_mem h)
  have hkey : dotted path = key := by simpa using List.find?_some h
  have hfound : (latest? (done ++ more) key).isSome := latest?_isSome_iff.mpr ⟨path, hmem, hkey⟩
  obtain ⟨path', hpath'⟩ := Option.isSome_iff_exists.mp hfound
  have hkey' : dotted path' = key := by simpa using List.find?_some hpath'
  rw [hpath', dotted_inj (hspelled path' (latest?_mem hpath')) (hspelled path hmem)
    (hkey'.trans hkey.symm)]

/-- In a run the walk of a node keeps what the keys of the table lead to. -/
theorem walkNode_get? {target : Target} {ctx ctx' : Context} {name : String} {node : Node}
    {emitted : EmittedType} (hctx : ctx.WellNamed) (hname : isIdentifier name = true)
    (h : walkNode target ctx name node = .ok (emitted, ctx')) {key : String} {type : QualifiedName}
    (hkey : ctx.references.objects.get? key = some type) :
    ctx'.references.objects.get? key = some type := by
  obtain ⟨done, around, arrays, scope, outer, rfl, hdone, haround⟩ := hctx
  obtain ⟨⟨-, hapart, -⟩, -, rfl⟩ := (walkNode_ok_iff target node).mp h
  have hcompleted : Spelled (node.completed around name) :=
    Place.spelled_completed (p := ⟨around, name, node⟩) fun q hq => hapart.dotFree hname haround hq
  change (tableOf done).objects.get? key = some type at hkey
  change (tableOf (done ++ node.completed around name)).objects.get? key = some type
  rw [tableOf_get?, Option.map_eq_some_iff] at hkey ⊢
  obtain ⟨path, hpath, rfl⟩ := hkey
  exact ⟨path, latest?_append_of_spelled (spelled_append hdone hcompleted) hpath, rfl⟩

/-- **Balance.** Wherever the walk of a node succeeds, the objects and arrays around and the open
scopes are the same before and after, and nothing but the names of the innermost scope and the table
of complete objects has grown. The code of an array is made with the bounds of this array. On the
visits of a run, what the keys of the table lead to stays as it is. No run stops because the walk
lost its balance. -/
theorem walk_keeps_balance (target : Target) :
    (∀ ctx name node emitted ctx', walkNode target ctx name node = .ok (emitted, ctx') →
      ctx.Grows ctx' ∧ ∀ item bounds, node = .array item bounds →
        ∃ declared out inside, ctx.declareType (ctx.path.qualify name) = .ok declared ∧
          walkNode target (declared.enterArray bounds) (itemName name) item = .ok (out, inside) ∧
          inside.leaveArray = .ok (bounds, ctx') ∧
          emitted.fragment = vectorFragment target (typeName name) out bounds) ∧
    (∀ (s : Schema) ctx name node emitted ctx', s.Visits target ctx name node →
      walkNode target ctx name node = .ok (emitted, ctx') →
        ∀ key type, ctx.references.objects.get? key = some type →
          ctx'.references.objects.get? key = some type) ∧
    ∀ s fault, generateUnits target s ≠ .error (.unbalanced fault) := by
  refine ⟨fun ctx name node emitted ctx' h => ⟨walkNode_grows target node h, ?_⟩,
    fun s ctx name node emitted ctx' hvisit h key type hkey => ?_, fun s fault h => ?_⟩
  · rintro item bounds rfl
    exact walkNode_array target h
  · obtain ⟨hctx, hname⟩ := hvisit.wellNamed
    exact walkNode_get? hctx hname h hkey
  · rcases generateUnits_error target h with ⟨c, -, he⟩ | ⟨entry, -, ⟨-, he⟩ | ⟨-, he⟩ | hfaulty⟩
    · cases he
    · cases he
    · cases he
    · cases hfaulty

/-- An array of arrays, each with bounds of its own, whose items refer to an object. -/
def gridExample : Node :=
  .array (.array (.reference (.ofText "cell")) ⟨some 1, some 2⟩) ⟨some 3, none⟩

/-- The object and the array after it. -/
def boardExample : Schema :=
  ⟨[("cell", .object [("alive", .scalar (.bool none))]), ("grid", gridExample)]⟩

/-- The inner array is left before the outer one, which keeps its bounds, and the object stays in the
table. -/
theorem boardExample_keeps_balance :
    ∃ ctx emitted ctx', boardExample.Visits Options.default.target ctx "grid" gridExample ∧
      walkNode Options.default.target ctx "grid" gridExample = .ok (emitted, ctx') ∧
      ctx.Grows ctx' ∧
      (∃ out, emitted.fragment =
        vectorFragment Options.default.target (typeName "grid") out ⟨some 3, none⟩) ∧
      ctx.references.objects.get? "cell" = some ⟨[], "Cell"⟩ ∧
      ctx'.references.objects.get? "cell" = some ⟨[], "Cell"⟩ := by
  have hok : (walkEntries Options.default.target .initial (boardExample.entries.take 1) >>=
      fun before => walkNode Options.default.target before.2 "grid" gridExample).toBool = true := by
    decide
  have hcell : (walkEntries Options.default.target .initial
      (boardExample.entries.take 1)).toOption.bind (·.2.references.objects.get? "cell") =
        some ⟨[], "Cell"⟩ := by
    decide
  cases hfront : walkEntries Options.default.target .initial (boardExample.entries.take 1) with
  | error e => rw [hfront] at hcell; cases hcell
  | ok before =>
    rw [hfront] at hok hcell
    obtain ⟨units, ctx⟩ := before
    have hvisit : boardExample.Visits Options.default.target ctx "grid" gridExample :=
      .entry rfl rfl hfront (by decide) rfl
    cases hwalk : walkNode Options.default.target ctx "grid" gridExample with
    | error e =>
      change (walkNode Options.default.target ctx "grid" gridExample).toBool = true at hok
      rw [hwalk] at hok
      cases hok
    | ok result =>
      obtain ⟨emitted, ctx'⟩ := result
      obtain ⟨hany, hrun, -⟩ := walk_keeps_balance Options.default.target
      obtain ⟨hgrows, harray⟩ := hany _ _ _ _ _ hwalk
      obtain ⟨declared, out, inside, -, -, -, hcode⟩ := harray _ _ rfl
      exact ⟨ctx, emitted, ctx', hvisit, hwalk, hgrows, ⟨out, hcode⟩, hcell,
        hrun _ _ _ _ _ _ hvisit hwalk _ _ hcell⟩

end ConfigForge
