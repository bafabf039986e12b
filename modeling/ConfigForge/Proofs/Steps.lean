import ConfigForge.Proofs.Balance

/-!
# A walk step by step

What a walk does to its context is a sequence of steps, and the schema alone determines which steps
come one after the other: names are admitted and declared, types are declared, objects and arrays are
entered and left, and references are looked up. A step can fail, and then the run stops there. So the
moments of a run are the beginnings of the sequence that can be performed.

A node counts as visited from the step that declares its type, and an object as complete from the step
that leaves it.

Results:

* `performAll_append`: steps are performed one after the other.
* `walkNode_eq_performAll`, `walkEntries_eq_performAll`: a walk performs its steps.
* `generateUnits_eq_performAll`: a run checks limits, performs the steps of the schema, and ends.
* `mem_visitedIn_steps_iff`, `mem_completedIn_steps_iff`: the nodes that the steps of a schema visit
  and complete.
-/

namespace ConfigForge

open Emit

/-! ## Steps -/

/-- What a walk does, one thing at a time. -/
inductive Step where
  /-- The name and the kind of an entry are checked. -/
  | admitEntry (p : Place)
  /-- The name of a member is checked. -/
  | admitMember (p : Place)
  /-- The type of a node is declared with its helpers. -/
  | declareType (p : Place)
  /-- The class of an object is opened. -/
  | enterObject (p : Place)
  /-- The class of an object is closed, and the object can be referred to from here on. -/
  | leaveObject (p : Place)
  | enterArray (bounds : ItemBounds)
  | leaveArray
  /-- A reference is looked up. -/
  | resolve (p : Place) (r : Reference)
  /-- The name of a member is declared as that of a data member. -/
  | declareMember (name : String)

namespace Step

/-- The context after a step. -/
def perform (ctx : Context) : Step → Except GenerationError Context
  | .admitEntry p =>
    if !isIdentifier p.name then .error (.schema (.at [p.name] (.invalidName p.name)))
    else if p.node.isReference then .error (.schema (.at [p.name] .topLevelReference))
    else .ok ctx
  | .admitMember p =>
    if isMemberName p.name then .ok ctx
    else .error (.schema (.at (ctx.path.names ++ [p.name]) (.invalidName p.name)))
  | .declareType p => ctx.declareType p.type
  | .enterObject p => .ok (ctx.enterObject p.name p.type)
  | .leaveObject p => ctx.leaveObject p.type
  | .enterArray bounds => .ok (ctx.enterArray bounds)
  | .leaveArray => ctx.leaveArray.map Prod.snd
  | .resolve p r =>
    match ctx.references.resolve? ctx.path.names r with
    | some _ => .ok ctx
    | none => .error (.unresolved (ctx.path.memberPath p.name) r.target)
  | .declareMember name => ctx.declare name

/-- The node that is visited with a step. -/
def visited : Step → List Place
  | .declareType p => [p]
  | _ => []

/-- The object that is complete with a step. -/
def completed : Step → List Place
  | .leaveObject p => [p]
  | _ => []

end Step

/-- The context after steps, one after the other. -/
def performAll (ctx : Context) : List Step → Except GenerationError Context
  | [] => .ok ctx
  | step :: rest => do performAll (← step.perform ctx) rest

/-- The nodes that are visited with steps, in order. -/
def visitedIn (steps : List Step) : List Place :=
  steps.flatMap Step.visited

/-- The objects that are complete with steps, in order. -/
def completedIn (steps : List Step) : List Place :=
  steps.flatMap Step.completed

mutual

/-- The steps of the walk of a node. -/
def Node.steps (around : List String) (name : String) : Node → List Step
  | .scalar s => [.declareType ⟨around, name, .scalar s⟩]
  | .object members =>
    .declareType ⟨around, name, .object members⟩ :: .enterObject ⟨around, name, .object members⟩ ::
      (memberSteps (around ++ [name]) members ++ [.leaveObject ⟨around, name, .object members⟩])
  | .array item bounds =>
    .declareType ⟨around, name, .array item bounds⟩ :: .enterArray bounds ::
      (item.steps around (itemName name) ++ [.leaveArray])
  | .reference r => [.resolve ⟨around, name, .reference r⟩ r]

/-- The steps of the walk of members. -/
def memberSteps (around : List String) : List (String × Node) → List Step
  | [] => []
  | (name, node) :: rest =>
    .admitMember ⟨around, name, node⟩ ::
      (node.steps around name ++ .declareMember name :: memberSteps around rest)

end

/-- The steps of the walk of entries. -/
def entrySteps : List (String × Node) → List Step
  | [] => []
  | (name, node) :: rest =>
    .admitEntry ⟨[], name, node⟩ :: (node.steps [] name ++ entrySteps rest)

/-- The steps of the walk of a schema. -/
def Schema.steps (s : Schema) : List Step :=
  entrySteps s.entries

/-! ## Performing steps -/

theorem performAll_append (ctx : Context) (steps more : List Step) :
    performAll ctx (steps ++ more) = performAll ctx steps >>= fun ctx => performAll ctx more := by
  induction steps generalizing ctx with
  | nil => rfl
  | cons step rest ih =>
    rw [List.cons_append, performAll, performAll]
    cases step.perform ctx with
    | error e => rfl
    | ok after => exact ih after

theorem performAll_singleton (ctx : Context) (step : Step) :
    performAll ctx [step] = step.perform ctx := by
  rw [performAll]
  cases step.perform ctx <;> rfl

@[simp] theorem visitedIn_append (steps more : List Step) :
    visitedIn (steps ++ more) = visitedIn steps ++ visitedIn more :=
  List.flatMap_append

@[simp] theorem completedIn_append (steps more : List Step) :
    completedIn (steps ++ more) = completedIn steps ++ completedIn more :=
  List.flatMap_append

@[simp] theorem visitedIn_cons (step : Step) (rest : List Step) :
    visitedIn (step :: rest) = step.visited ++ visitedIn rest :=
  List.flatMap_cons

@[simp] theorem completedIn_cons (step : Step) (rest : List Step) :
    completedIn (step :: rest) = step.completed ++ completedIn rest :=
  List.flatMap_cons

/-! ## The walk performs its steps -/

theorem NamePath.qualify_eq_type {path : NamePath} {around : List String} (h : path.names = around)
    (name : String) (node : Node) : path.qualify name = (⟨around, name, node⟩ : Place).type := by
  rw [← h]
  rfl

section

variable (target : Target)

mutual

/-- **A walk performs its steps.** Among the objects `around`, the walk of a node ends in the context
that its steps lead to, or with the error of the step that fails. -/
theorem walkNode_eq_performAll : ∀ (node : Node) {ctx : Context} {around : List String}
    {name : String}, ctx.path.names = around →
      (walkNode target ctx name node).map Prod.snd = performAll ctx (node.steps around name)
  | .scalar s, ctx, around, name => by
    intro hpath
    rw [walkNode, Node.steps, performAll_singleton, Step.perform,
      NamePath.qualify_eq_type hpath name (.scalar s)]
    cases ctx.declareType _ <;> rfl
  | .object members, ctx, around, name => by
    intro hpath
    rw [walkNode, Node.steps, performAll, Step.perform,
      NamePath.qualify_eq_type hpath name (.object members)]
    generalize hp : (⟨around, name, .object members⟩ : Place) = p
    cases hdeclare : ctx.declareType p.type with
    | error e => rfl
    | ok declared =>
      have hinside : (declared.enterObject name p.type).path.names = around ++ [name] := by
        rw [← hpath, ← (Context.declareAll_grows hdeclare).path]
        rfl
      have hmembers := walkMembers_eq_performAll members hinside
      have hname : p.name = name := by rw [← hp]
      change _ = performAll (declared.enterObject p.name p.type) _
      rw [hname, performAll_append, ← hmembers]
      change (walkMembers target (declared.enterObject name p.type) members >>= _).map Prod.snd = _
      cases walkMembers target (declared.enterObject name p.type) members with
      | error e => rfl
      | ok result =>
        change (result.2.leaveObject p.type >>= _).map Prod.snd = performAll result.2 [.leaveObject p]
        rw [performAll_singleton, Step.perform]
        cases result.2.leaveObject p.type <;> rfl
  | .array item bounds, ctx, around, name => by
    intro hpath
    rw [walkNode, Node.steps, performAll, Step.perform,
      NamePath.qualify_eq_type hpath name (.array item bounds)]
    generalize (⟨around, name, .array item bounds⟩ : Place) = p
    cases hdeclare : ctx.declareType p.type with
    | error e => rfl
    | ok declared =>
      have hinside : (declared.enterArray bounds).path.names = around := by
        rw [← hpath, ← (Context.declareAll_grows hdeclare).path]
        rfl
      have hitem : (walkNode target (declared.enterArray bounds) (itemName name) item).map Prod.snd =
          performAll (declared.enterArray bounds) (item.steps around (itemName name)) :=
        walkNode_eq_performAll item hinside
      change _ = performAll (declared.enterArray bounds) _
      rw [performAll_append, ← hitem]
      change (walkNode target (declared.enterArray bounds) (itemName name) item >>= _).map
        Prod.snd = _
      cases walkNode target (declared.enterArray bounds) (itemName name) item with
      | error e => rfl
      | ok result =>
        change (result.2.leaveArray >>= _).map Prod.snd = performAll result.2 [.leaveArray]
        rw [performAll_singleton, Step.perform]
        cases result.2.leaveArray <;> rfl
  | .reference r, ctx, around, name => by
    intro hpath
    rw [walkNode, Node.steps, performAll_singleton, Step.perform]
    cases ctx.references.resolve? ctx.path.names r <;> rfl

/-- The walk of members performs their steps. -/
theorem walkMembers_eq_performAll : ∀ (members : List (String × Node)) {ctx : Context}
    {around : List String}, ctx.path.names = around →
      (walkMembers target ctx members).map Prod.snd = performAll ctx (memberSteps around members)
  | [], ctx, around => fun _ => rfl
  | (name, node) :: rest, ctx, around => by
    intro hpath
    rw [walkMembers, memberSteps, performAll, Step.perform]
    by_cases hname : isMemberName name = true
    · rw [if_pos hname, if_pos hname]
      change _ = performAll ctx _
      rw [performAll_append, ← walkNode_eq_performAll node hpath]
      cases hwalk : walkNode target ctx name node with
      | error e => rfl
      | ok result =>
        change (result.2.declare name >>= _).map Prod.snd =
          performAll result.2 (.declareMember name :: memberSteps around rest)
        rw [performAll, Step.perform]
        cases hdeclare : result.2.declare name with
        | error e => rfl
        | ok declared =>
          have hafter : declared.path.names = around := by
            rw [(Context.declare_grows hdeclare).path, (walkNode_grows target node hwalk).path, hpath]
          change (walkMembers target declared rest >>= _).map Prod.snd = performAll declared _
          rw [← walkMembers_eq_performAll rest hafter]
          cases walkMembers target declared rest <;> rfl
    · rw [if_neg hname, if_neg hname]
      rfl

end

/-- The walk of entries performs their steps. -/
theorem walkEntries_eq_performAll (entries : List (String × Node)) {ctx : Context}
    (hpath : ctx.path.names = []) :
    (walkEntries target ctx entries).map Prod.snd = performAll ctx (entrySteps entries) := by
  induction entries generalizing ctx with
  | nil => rfl
  | cons entry rest ih =>
    obtain ⟨name, node⟩ := entry
    rw [walkEntries, entrySteps, performAll, Step.perform]
    by_cases hname : (!isIdentifier name) = true
    · rw [if_pos hname, if_pos hname]
      rfl
    rw [if_neg hname, if_neg hname]
    by_cases href : node.isReference = true
    · rw [if_pos href, if_pos href]
      rfl
    rw [if_neg href, if_neg href]
    change _ = performAll ctx _
    rw [performAll_append, ← walkNode_eq_performAll target node hpath]
    cases hwalk : walkNode target ctx name node with
    | error e => rfl
    | ok result =>
      have hafter : result.2.path.names = [] := by
        rw [(walkNode_grows target node hwalk).path, hpath]
      change (walkEntries target result.2 rest >>= _).map Prod.snd = performAll result.2 _
      rw [← ih hafter]
      cases walkEntries target result.2 rest <;> rfl

/-- **A run performs the steps of its schema.** Limits are checked before the first step, and the end
of the walk is checked after the last. -/
theorem generateUnits_eq_performAll (s : Schema) :
    (generateUnits target s).map (fun _ => ()) = (do
      s.check.mapError .constraint
      (← performAll .initial s.steps).finish) := by
  rw [generateUnits]
  cases s.check with
  | error e => rfl
  | ok _ =>
    change (walkEntries target .initial s.entries >>= _).map (fun _ => ()) =
      performAll .initial s.steps >>= _
    rw [Schema.steps, ← walkEntries_eq_performAll target s.entries rfl]
    cases walkEntries target .initial s.entries with
    | error e => rfl
    | ok result =>
      change (result.2.finish >>= _).map (fun _ => ()) = result.2.finish
      cases result.2.finish <;> rfl

end

/-! ## Visits as moments -/

theorem memberSteps_append (around : List String) (members more : List (String × Node)) :
    memberSteps around (members ++ more) = memberSteps around members ++ memberSteps around more := by
  induction members with
  | nil => rfl
  | cons m rest ih =>
    rw [List.cons_append, memberSteps, memberSteps, ih, List.cons_append, List.append_assoc]
    rfl

theorem entrySteps_append (entries more : List (String × Node)) :
    entrySteps (entries ++ more) = entrySteps entries ++ entrySteps more := by
  induction entries with
  | nil => rfl
  | cons e rest ih =>
    rw [List.cons_append, entrySteps, entrySteps, ih, List.cons_append, List.append_assoc]

/-- Steps that are performed after others. -/
theorem performAll_trans {ctx between ctx' : Context} {steps more : List Step}
    (h : performAll ctx steps = .ok between) (h' : performAll between more = .ok ctx') :
    performAll ctx (steps ++ more) = .ok ctx' := by
  rw [performAll_append, h]
  exact h'

/-- Where a run comes to a node it has performed the steps before those of the node. -/
theorem Schema.Visits.performed {target : Target} {s : Schema} {ctx : Context} {name : String}
    {node : Node} (h : s.Visits target ctx name node) :
    ∃ done rest, s.steps = done ++ (node.steps ctx.path.names name ++ rest) ∧
      performAll .initial done = .ok ctx := by
  induction h with
  | @entry front back name node ctx units _ hentries hfront hname href =>
    have hpath : ctx.path.names = [] := by
      have hstart : Context.initial = .moment [] [] [] [.outermost] := rfl
      rw [hstart] at hfront
      obtain ⟨-, -, rfl⟩ := (walkEntries_ok_iff target _).mp hfront
      rfl
    have hbefore : performAll .initial (entrySteps front) = .ok ctx := by
      rw [← walkEntries_eq_performAll target front rfl, hfront]
      rfl
    refine ⟨entrySteps front ++ [.admitEntry ⟨[], name, node⟩], entrySteps back, ?_,
      performAll_trans hbefore ?_⟩
    · rw [Schema.steps, hentries, entrySteps_append, entrySteps, hpath, List.append_assoc]
      rfl
    · simp [performAll_singleton, Step.perform, hname, href]
  | @member front back name outer node ctx declared inside emitted _ hdeclare hfront hname ih =>
    obtain ⟨done, rest, hsteps, hdone⟩ := ih
    have hentered : (declared.enterObject outer (ctx.path.qualify outer)).path.names =
        ctx.path.names ++ [outer] :=
      congrArg (fun path : NamePath => path.names ++ [outer])
        (Context.declareAll_grows hdeclare).path
    have hpath : inside.path.names = ctx.path.names ++ [outer] := by
      rw [(walkMembers_grows target front hfront).path, hentered]
    have hbefore : performAll (declared.enterObject outer (ctx.path.qualify outer))
        (memberSteps (ctx.path.names ++ [outer]) front) = .ok inside := by
      rw [← walkMembers_eq_performAll target front hentered, hfront]
      rfl
    refine ⟨done ++ (.declareType ⟨ctx.path.names, outer, .object (front ++ (name, node) :: back)⟩ ::
        .enterObject ⟨ctx.path.names, outer, .object (front ++ (name, node) :: back)⟩ ::
        (memberSteps (ctx.path.names ++ [outer]) front ++
          [.admitMember ⟨ctx.path.names ++ [outer], name, node⟩])),
      .declareMember name :: (memberSteps (ctx.path.names ++ [outer]) back ++
        (.leaveObject ⟨ctx.path.names, outer, .object (front ++ (name, node) :: back)⟩ :: rest)), ?_,
      performAll_trans hdone ?_⟩
    · rw [hsteps, Node.steps, hpath, memberSteps_append, memberSteps]
      simp
    · have hdeclare' : ctx.declareType
          (⟨ctx.path.names, outer, .object (front ++ (name, node) :: back)⟩ : Place).type =
            .ok declared := hdeclare
      rw [performAll, Step.perform, hdeclare']
      refine performAll_trans hbefore ?_
      simp [performAll_singleton, Step.perform, hname]
  | @item name item bounds ctx declared _ hdeclare ih =>
    obtain ⟨done, rest, hsteps, hdone⟩ := ih
    have hpath : (declared.enterArray bounds).path.names = ctx.path.names :=
      congrArg NamePath.names (Context.declareAll_grows hdeclare).path
    refine ⟨done ++ [.declareType ⟨ctx.path.names, name, .array item bounds⟩, .enterArray bounds],
      .leaveArray :: rest, ?_, performAll_trans hdone ?_⟩
    · rw [hsteps, Node.steps, hpath]
      simp
    · have hdeclare' : ctx.declareType (⟨ctx.path.names, name, .array item bounds⟩ : Place).type =
          .ok declared := hdeclare
      rw [performAll, Step.perform, hdeclare']
      rfl

/-! ## The nodes of the steps -/

section

variable {f : Step → List Place}

/-- What the steps of members contribute comes from the steps of their nodes. -/
theorem flatMap_memberSteps (hchecked : ∀ p, f (.admitMember p) = [])
    (hdeclare : ∀ name, f (.declareMember name) = []) (around : List String)
    (members : List (String × Node)) :
    (memberSteps around members).flatMap f =
      (placesIn around members).flatMap fun c => (c.node.steps c.around c.name).flatMap f := by
  induction members with
  | nil => rfl
  | cons m rest ih =>
    obtain ⟨name, node⟩ := m
    rw [memberSteps, placesIn_cons, List.flatMap_cons, List.flatMap_append, List.flatMap_cons, ih,
      hchecked, hdeclare, List.flatMap_cons]
    rfl

/-- What the steps of entries contribute comes from the steps of their nodes. -/
theorem flatMap_entrySteps (hchecked : ∀ p, f (.admitEntry p) = [])
    (entries : List (String × Node)) :
    (entrySteps entries).flatMap f =
      (placesIn [] entries).flatMap fun c => (c.node.steps c.around c.name).flatMap f := by
  induction entries with
  | nil => rfl
  | cons e rest ih =>
    obtain ⟨name, node⟩ := e
    rw [entrySteps, placesIn_cons, List.flatMap_cons, List.flatMap_append, ih, hchecked,
      List.flatMap_cons]
    rfl

end

namespace Place

/-- The steps of the walk of a node. -/
def steps (p : Place) : List Step :=
  p.node.steps p.around p.name

/-- A node is visited before the nodes below it. -/
theorem visitedIn_steps (p : Place) :
    visitedIn p.steps =
      (if p.node.isReference then [] else [p]) ++ p.children.flatMap fun c => visitedIn c.steps := by
  obtain ⟨around, name, node⟩ := p
  cases node with
  | scalar s => rfl
  | reference r => rfl
  | array item bounds =>
    rw [steps, Node.steps, visitedIn_cons, visitedIn_cons, visitedIn_append, children_array rfl,
      List.flatMap_singleton]
    exact congrArg _ (List.append_nil _)
  | object members =>
    have hmembers : visitedIn (memberSteps (around ++ [name]) members) =
        (placesIn (around ++ [name]) members).flatMap fun c => visitedIn c.steps :=
      flatMap_memberSteps (fun _ => rfl) (fun _ => rfl) _ members
    rw [steps, Node.steps, visitedIn_cons, visitedIn_cons, visitedIn_append, hmembers,
      children_object rfl]
    exact congrArg _ (List.append_nil _)

/-- An object is complete after the objects below it. -/
theorem completedIn_steps (p : Place) :
    completedIn p.steps =
      (p.children.flatMap fun c => completedIn c.steps) ++ if p.node.isObject then [p] else [] := by
  obtain ⟨around, name, node⟩ := p
  cases node with
  | scalar s => rfl
  | reference r => rfl
  | array item bounds =>
    rw [steps, Node.steps, completedIn_cons, completedIn_cons, completedIn_append, children_array rfl,
      List.flatMap_singleton]
    rfl
  | object members =>
    have hmembers : completedIn (memberSteps (around ++ [name]) members) =
        (placesIn (around ++ [name]) members).flatMap fun c => completedIn c.steps :=
      flatMap_memberSteps (fun _ => rfl) (fun _ => rfl) _ members
    rw [steps, Node.steps, completedIn_cons, completedIn_cons, completedIn_append, hmembers,
      children_object rfl]
    rfl

/-- The walk of a node visits the nodes of its tree that are no references. -/
theorem mem_visitedIn_steps_iff {p q : Place} :
    q ∈ visitedIn p.steps ↔ p.Has q ∧ q.node.isReference = false := by
  induction p using Place.induction with
  | step p ih =>
    rw [visitedIn_steps, List.mem_append, List.mem_flatMap, has_iff]
    constructor
    · rintro (hself | ⟨c, hc, hq⟩)
      · cases href : p.node.isReference with
        | true => simp [href] at hself
        | false =>
          obtain rfl : q = p := by simpa [href] using hself
          exact ⟨.inl rfl, href⟩
      · obtain ⟨hhas, href⟩ := (ih c hc).mp hq
        exact ⟨.inr ⟨c, hc, hhas⟩, href⟩
    · rintro ⟨rfl | ⟨c, hc, hhas⟩, href⟩
      · exact .inl (by simp [href])
      · exact .inr ⟨c, hc, (ih c hc).mpr ⟨hhas, href⟩⟩

/-- The walk of a node completes the objects of its tree. -/
theorem mem_completedIn_steps_iff {p q : Place} :
    q ∈ completedIn p.steps ↔ p.Has q ∧ q.node.isObject = true := by
  induction p using Place.induction with
  | step p ih =>
    rw [completedIn_steps, List.mem_append, List.mem_flatMap, has_iff]
    constructor
    · rintro (⟨c, hc, hq⟩ | hself)
      · obtain ⟨hhas, hobject⟩ := (ih c hc).mp hq
        exact ⟨.inr ⟨c, hc, hhas⟩, hobject⟩
      · cases hobject : p.node.isObject with
        | false => simp [hobject] at hself
        | true =>
          obtain rfl : q = p := by simpa [hobject] using hself
          exact ⟨.inl rfl, hobject⟩
    · rintro ⟨rfl | ⟨c, hc, hhas⟩, hobject⟩
      · exact .inr (by simp [hobject])
      · exact .inl ⟨c, hc, (ih c hc).mpr ⟨hhas, hobject⟩⟩

end Place

namespace Schema

variable {s : Schema} {q : Place}

/-- The walk of a schema visits its nodes that are no references. -/
theorem mem_visitedIn_steps_iff :
    q ∈ visitedIn s.steps ↔ s.Has q ∧ q.node.isReference = false := by
  have hentries : visitedIn s.steps = (placesIn [] s.entries).flatMap fun c => visitedIn c.steps :=
    flatMap_entrySteps (fun _ => rfl) s.entries
  rw [hentries, List.mem_flatMap, has_iff]
  constructor
  · rintro ⟨c, hc, hq⟩
    obtain ⟨hhas, href⟩ := Place.mem_visitedIn_steps_iff.mp hq
    exact ⟨⟨c, hc, hhas⟩, href⟩
  · rintro ⟨⟨c, hc, hhas⟩, href⟩
    exact ⟨c, hc, Place.mem_visitedIn_steps_iff.mpr ⟨hhas, href⟩⟩

/-- The walk of a schema completes its objects. -/
theorem mem_completedIn_steps_iff :
    q ∈ completedIn s.steps ↔ s.Has q ∧ q.node.isObject = true := by
  have hentries :
      completedIn s.steps = (placesIn [] s.entries).flatMap fun c => completedIn c.steps :=
    flatMap_entrySteps (fun _ => rfl) s.entries
  rw [hentries, List.mem_flatMap, has_iff]
  constructor
  · rintro ⟨c, hc, hq⟩
    obtain ⟨hhas, hobject⟩ := Place.mem_completedIn_steps_iff.mp hq
    exact ⟨⟨c, hc, hhas⟩, hobject⟩
  · rintro ⟨⟨c, hc, hhas⟩, hobject⟩
    exact ⟨c, hc, Place.mem_completedIn_steps_iff.mpr ⟨hhas, hobject⟩⟩

end Schema

end ConfigForge
