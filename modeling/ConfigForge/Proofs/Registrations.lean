import ConfigForge.Proofs.Steps
import Mathlib.Data.List.Forall2

/-!
# Registrations at every moment

An object is registered under its dotted path when it is complete. Only the types of nodes are checked
against each other, and only inside one scope. That no two objects of a run share a key follows along
the whole walk: a scope keeps the types of all nodes visited among its objects, so a node whose type
was given before is refused, and objects with different types have different paths.

Results:

* `follows_entrySteps`: the steps of a walk fit together, an object being left when it is the
  innermost.
* `kept_perform`, `kept_performAll`: what one step keeps, and so any number of steps.
* `registrations_at_every_moment`: the table and the types at every moment of a run.
-/

namespace ConfigForge

open Emit

/-! ## Stages -/

/-- Where a walk stands: the objects it is inside, innermost first, the node whose type was declared
last, and the names that are known to be identifiers. -/
structure Stage where
  entered : List Place
  declared : Option Place
  admitted : List String

/-- The path of the innermost object. -/
def innermost : List Place → List String
  | [] => []
  | o :: _ => o.path

/-- The paths of the open scopes, innermost first. -/
def openPaths (entered : List Place) : List (List String) :=
  entered.map Place.path ++ [[]]

theorem openPaths_eq (entered : List Place) :
    ∃ outer, openPaths entered = innermost entered :: outer := by
  cases entered with
  | nil => exact ⟨[], rfl⟩
  | cons o rest => exact ⟨openPaths rest, rfl⟩

namespace Step

/-- Whether a step can come at a stage. -/
def Fits (stage : Stage) : Step → Prop
  | .declareType p => p.around = innermost stage.entered ∧ p.name ∈ stage.admitted
  | .enterObject p => stage.declared = some p ∧ p.around = innermost stage.entered
  | .leaveObject p => ∃ outer, stage.entered = p :: outer ∧ p.around = innermost outer
  | _ => True

/-- The stage after a step. -/
def next (stage : Stage) : Step → Stage
  | .admitEntry p | .admitMember p => { stage with admitted := p.name :: stage.admitted }
  | .declareType p =>
    { stage with declared := some p, admitted := itemName p.name :: stage.admitted }
  | .enterObject p => { stage with entered := p :: stage.entered, declared := none }
  | .leaveObject _ => { stage with entered := stage.entered.tail, declared := none }
  | _ => stage

end Step

/-- Whether steps can come one after the other from a stage on. -/
def Follows (stage : Stage) : List Step → Prop
  | [] => True
  | step :: rest => step.Fits stage ∧ Follows (step.next stage) rest

/-- Whether steps can come at every stage inside the same objects, with no fewer names admitted. -/
def FollowsOn (stage : Stage) (steps : List Step) : Prop :=
  ∀ stage' : Stage, stage'.entered = stage.entered → stage.admitted ⊆ stage'.admitted →
    Follows stage' steps

mutual

/-- The steps of a node fit in where its name is admitted. -/
theorem follows_nodeSteps : ∀ (node : Node) (stage : Stage) {name : String} {rest : List Step},
    name ∈ stage.admitted → FollowsOn stage rest →
      Follows stage (node.steps (innermost stage.entered) name ++ rest)
  | .scalar s, stage, name, rest => by
    intro hname hrest
    refine ⟨⟨rfl, hname⟩, ?_⟩
    exact hrest _ rfl (List.subset_cons_self _ _)
  | .object members, stage, name, rest => by
    intro hname hrest
    rw [Node.steps, List.cons_append, List.cons_append, List.append_assoc]
    refine ⟨⟨rfl, hname⟩, ⟨rfl, rfl⟩, ?_⟩
    refine follows_memberSteps members
      ⟨⟨innermost stage.entered, name, .object members⟩ :: stage.entered, none,
        itemName name :: stage.admitted⟩ fun later hlater hmore => ?_
    refine ⟨⟨stage.entered, hlater, rfl⟩, hrest _ ?_ ?_⟩
    · exact congrArg List.tail hlater
    · exact fun x hx => hmore (List.mem_cons_of_mem _ hx)
  | .array item bounds, stage, name, rest => by
    intro hname hrest
    rw [Node.steps, List.cons_append, List.cons_append, List.append_assoc]
    refine ⟨⟨rfl, hname⟩, trivial, ?_⟩
    refine follows_nodeSteps item
      ⟨stage.entered, some ⟨innermost stage.entered, name, .array item bounds⟩,
        itemName name :: stage.admitted⟩ List.mem_cons_self fun later hlater hmore => ?_
    exact ⟨trivial, hrest later hlater fun x hx => hmore (List.mem_cons_of_mem _ hx)⟩
  | .reference r, stage, name, rest => by
    intro _ hrest
    exact ⟨trivial, hrest stage rfl (List.Subset.refl _)⟩

/-- The steps of members fit in inside their object. -/
theorem follows_memberSteps : ∀ (members : List (String × Node)) (stage : Stage)
    {rest : List Step}, FollowsOn stage rest →
      Follows stage (memberSteps (innermost stage.entered) members ++ rest)
  | [], stage, rest => by
    intro hrest
    exact hrest stage rfl (List.Subset.refl _)
  | (name, node) :: more, stage, rest => by
    intro hrest
    rw [memberSteps, List.cons_append, List.append_assoc, List.cons_append]
    refine ⟨trivial, ?_⟩
    refine follows_nodeSteps node ⟨stage.entered, stage.declared, name :: stage.admitted⟩
      List.mem_cons_self fun later hlater hmore => ⟨trivial, ?_⟩
    have hsame : innermost stage.entered = innermost later.entered := congrArg _ hlater.symm
    rw [hsame]
    refine follows_memberSteps more later fun last hlast hmost => ?_
    exact hrest last (hlast.trans hlater) fun x hx => hmost (hmore (List.mem_cons_of_mem _ hx))

end

/-- The steps of entries fit in outside all objects. -/
theorem follows_entrySteps (entries : List (String × Node)) (declared : Option Place)
    (admitted : List String) : Follows ⟨[], declared, admitted⟩ (entrySteps entries) := by
  induction entries generalizing declared admitted with
  | nil => exact trivial
  | cons entry rest ih =>
    refine ⟨trivial, ?_⟩
    refine follows_nodeSteps entry.2 ⟨[], declared, entry.1 :: admitted⟩ List.mem_cons_self
      fun later hlater _ => ?_
    obtain ⟨entered, declared', admitted'⟩ := later
    obtain rfl : entered = [] := hlater
    exact ih declared' admitted'

/-! ## What a run keeps -/

/-- What holds of the nodes visited and the objects completed at a stage. -/
structure Kept (stage : Stage) (visited completed : List Place) : Prop where
  admitted : ∀ name ∈ stage.admitted, isIdentifier name = true
  dotFree : ∀ q ∈ visited, DotFree q.path
  types : (visited.map Place.type).Nodup
  /-- A node stands outside all objects, or directly in one that is entered or complete. -/
  enclosed : ∀ q ∈ visited, q.around = [] ∨ ∃ o ∈ completed ++ stage.entered, o.path = q.around
  known : ∀ o ∈ completed ++ (stage.declared.toList ++ stage.entered), o ∈ visited
  /-- No object is complete, just declared or entered twice. -/
  apart : ((completed ++ (stage.declared.toList ++ stage.entered)).map Place.type).Nodup

/-- Whether the types of the nodes visited inside the object at a path are taken in a scope. -/
def Holds (visited : List Place) (path : List String) (scope : Scope) : Prop :=
  ∀ q ∈ visited, q.around = path → q.type.name ∈ scope.taken

/-- Whether a context is the one at a stage, with all types of visited nodes in the open scopes. -/
def Pictures (stage : Stage) (visited completed : List Place) (ctx : Context) : Prop :=
  ∃ arrays scopes,
    ctx = .moment (completed.map Place.path) (innermost stage.entered) arrays scopes ∧
    List.Forall₂ (Holds visited) (openPaths stage.entered) scopes

theorem Holds.append {visited : List Place} {path : List String} {scope : Scope} {p : Place}
    {names : List String} (h : Holds visited path scope) (hp : p.type.name ∈ names) :
    Holds (visited ++ [p]) path (scope.withNames names) := by
  intro q hq haround
  rw [Scope.mem_taken_withNames]
  rcases List.mem_append.mp hq with hq | hq
  · exact .inr (h q hq haround)
  · rw [List.mem_singleton.mp hq]
    exact .inl hp

theorem holds_append_of_not_mem {visited : List Place} {paths : List (List String)}
    {scopes : List Scope} {p : Place} (h : List.Forall₂ (Holds visited) paths scopes)
    (hp : p.around ∉ paths) : List.Forall₂ (Holds (visited ++ [p])) paths scopes := by
  induction h with
  | nil => exact .nil
  | @cons path scope paths scopes hfirst _ ih =>
    rw [List.mem_cons, not_or] at hp
    refine .cons (fun q hq haround => ?_) (ih hp.2)
    rcases List.mem_append.mp hq with hq | hq
    · exact hfirst q hq haround
    · rw [List.mem_singleton.mp hq] at haround
      exact absurd haround hp.1

namespace Kept

variable {stage : Stage} {visited completed : List Place}

/-- The objects that are complete or entered are among those that are also just declared. -/
theorem sublist_declared (stage : Stage) (completed : List Place) :
    (completed ++ stage.entered).Sublist
      (completed ++ (stage.declared.toList ++ stage.entered)) :=
  (List.sublist_append_right _ _).append_left completed

theorem mem_visited (h : Kept stage visited completed) {o : Place}
    (ho : o ∈ completed ++ stage.entered) : o ∈ visited :=
  h.known o ((sublist_declared stage completed).subset ho)

theorem types_nodup (h : Kept stage visited completed) :
    ((completed ++ stage.entered).map Place.type).Nodup :=
  ((sublist_declared stage completed).map _).nodup h.apart

/-- Different types are those of objects with different paths. -/
theorem paths_nodup (h : Kept stage visited completed) :
    ((completed ++ stage.entered).map Place.path).Nodup := by
  refine List.Nodup.of_map QualifiedName.ofPath ?_
  rw [List.map_map, show QualifiedName.ofPath ∘ Place.path = Place.type from
    funext Place.ofPath_path]
  exact h.types_nodup

/-- Objects that are entered or complete are told apart by their classes. -/
theorem path_eq (h : Kept stage visited completed) {o o' : Place}
    (ho : o ∈ completed ++ stage.entered) (ho' : o' ∈ completed ++ stage.entered)
    (hsame : o.path.map typeName = o'.path.map typeName) : o.path = o'.path := by
  rw [Place.map_typeName_path, Place.map_typeName_path] at hsame
  have htype := Place.type_eq_of_classPath_eq hsame
  rw [List.inj_on_of_nodup_map h.types (h.mem_visited ho) (h.mem_visited ho') htype]

/-- So are the places of nodes. -/
theorem around_eq (h : Kept stage visited completed) {around around' : List String}
    (haround : around = [] ∨ ∃ o ∈ completed ++ stage.entered, o.path = around)
    (haround' : around' = [] ∨ ∃ o ∈ completed ++ stage.entered, o.path = around')
    (hsame : around.map typeName = around'.map typeName) : around = around' := by
  rcases haround with rfl | ⟨o, ho, rfl⟩
  · rw [List.map_nil, eq_comm, List.map_eq_nil_iff] at hsame
    exact hsame.symm
  · rcases haround' with rfl | ⟨o', ho', rfl⟩
    · rwa [List.map_nil, List.map_eq_nil_iff] at hsame
    · exact h.path_eq ho ho' hsame

/-- The innermost object is entered. -/
theorem innermost_enclosed (completed entered : List Place) :
    innermost entered = [] ∨ ∃ o ∈ completed ++ entered, o.path = innermost entered := by
  cases entered with
  | nil => exact .inl rfl
  | cons o outer => exact .inr ⟨o, List.mem_append_right _ List.mem_cons_self, rfl⟩

/-- The open scopes have different paths. -/
theorem openPaths_nodup (h : Kept stage visited completed) : (openPaths stage.entered).Nodup := by
  have hpaths : (stage.entered.map Place.path).Nodup :=
    ((List.sublist_append_right completed _).map _).nodup h.paths_nodup
  refine List.nodup_append.mpr ⟨hpaths, List.nodup_singleton _, ?_⟩
  intro path hpath root hroot heq
  obtain ⟨o, -, rfl⟩ := List.mem_map.mp hpath
  rw [List.mem_singleton.mp hroot] at heq
  exact o.path_ne_nil heq

/-- Where the names of a type are free no node visited before has this type. -/
theorem type_new (h : Kept stage visited completed) {p : Place} {scope : Scope}
    (haround : p.around = innermost stage.entered)
    (hholds : Holds visited (innermost stage.entered) scope)
    (hfree : scope.Free (typeNames p.type.name)) : p.type ∉ visited.map Place.type := by
  intro hmem
  obtain ⟨q, hq, hsame⟩ := List.mem_map.mp hmem
  have hscope : q.around.map typeName = p.around.map typeName :=
    congrArg QualifiedName.scope hsame
  have hp := innermost_enclosed completed stage.entered
  rw [← haround] at hp
  -- classes of the same names around both nodes are those of the same objects
  have heq := h.around_eq (h.enclosed q hq) hp hscope
  have htaken := hholds q hq (heq.trans haround)
  rw [hsame] at htaken
  exact hfree.2 _ (typeName_mem_typeNames _) htaken

/-- No node inside an object is visited before the object is entered. -/
theorem nothing_inside (h : Kept stage visited completed) {p : Place}
    (hp : stage.declared = some p) {q : Place} (hq : q ∈ visited) : q.around ≠ p.path := by
  intro haround
  rcases h.enclosed q hq with hroot | ⟨o, ho, hpath⟩
  · rw [hroot] at haround
    exact p.path_ne_nil haround.symm
  · -- an object at this path would have the type that was declared last
    have htype : o.type = p.type := by
      rw [← Place.ofPath_path, hpath, haround, Place.ofPath_path]
    have hapart := h.apart
    rw [hp] at hapart
    have hmiddle : ((p :: (completed ++ stage.entered)).map Place.type).Nodup :=
      (List.perm_middle.map _).nodup_iff.mp hapart
    exact (List.nodup_cons.mp hmiddle).1 (List.mem_map.mpr ⟨o, ho, htype⟩)

/-! ## What one step keeps -/

theorem allow (h : Kept stage visited completed) {name : String} (hname : isIdentifier name = true) :
    Kept { stage with admitted := name :: stage.admitted } visited completed :=
  { h with admitted := List.forall_mem_cons.mpr ⟨hname, h.admitted⟩ }

theorem dotFree_innermost (h : Kept stage visited completed) : DotFree (innermost stage.entered) := by
  cases hentered : stage.entered with
  | nil => exact List.forall_mem_nil _
  | cons o outer =>
    refine h.dotFree o (h.mem_visited ?_)
    rw [hentered]
    exact List.mem_append_right _ List.mem_cons_self

theorem declareType (h : Kept stage visited completed) {p : Place}
    (hfits : (Step.declareType p).Fits stage) (hnew : p.type ∉ visited.map Place.type) :
    Kept ((Step.declareType p).next stage) (visited ++ [p]) completed := by
  obtain ⟨haround, hname⟩ := hfits
  have hident := h.admitted _ hname
  have hmiddle : (completed ++ ([p] ++ stage.entered)).Perm (p :: (completed ++ stage.entered)) :=
    List.perm_middle
  constructor
  case admitted => exact List.forall_mem_cons.mpr ⟨isIdentifier_itemName hident, h.admitted⟩
  case dotFree =>
    intro q hq
    rcases List.mem_append.mp hq with hq | hq
    · exact h.dotFree q hq
    · rw [List.mem_singleton.mp hq, Place.path, haround]
      exact dotFree_append_singleton h.dotFree_innermost hident
  case types =>
    rw [List.map_append, List.nodup_append]
    refine ⟨h.types, List.nodup_singleton _, ?_⟩
    rintro type htype type' htype' rfl
    rw [List.map_singleton, List.mem_singleton] at htype'
    exact hnew (htype' ▸ htype)
  case enclosed =>
    intro q hq
    rcases List.mem_append.mp hq with hq | hq
    · exact h.enclosed q hq
    · rw [List.mem_singleton.mp hq, haround]
      exact innermost_enclosed completed stage.entered
  case known =>
    intro o ho
    rcases List.mem_cons.mp (hmiddle.mem_iff.mp ho) with rfl | ho
    · exact List.mem_append_right _ (List.mem_singleton.mpr rfl)
    · exact List.mem_append_left _ (h.mem_visited ho)
  case apart =>
    refine (hmiddle.map _).nodup_iff.mpr (List.nodup_cons.mpr ⟨fun hmem => ?_, ?_⟩)
    · obtain ⟨o, ho, hsame⟩ := List.mem_map.mp hmem
      exact hnew (List.mem_map.mpr ⟨o, h.mem_visited ho, hsame⟩)
    · exact h.types_nodup

theorem enterObject (h : Kept stage visited completed) {p : Place} (hp : stage.declared = some p) :
    Kept ((Step.enterObject p).next stage) visited completed := by
  have hknown := h.known
  have hapart := h.apart
  rw [hp] at hknown hapart
  refine ⟨h.admitted, h.dotFree, h.types, fun q hq => ?_, hknown, hapart⟩
  refine (h.enclosed q hq).imp_right fun ⟨o, ho, hpath⟩ => ⟨o, ?_, hpath⟩
  exact ((List.sublist_cons_self _ _).append_left completed).subset ho

theorem leaveObject (h : Kept stage visited completed) {p : Place} {outer : List Place}
    (hentered : stage.entered = p :: outer) :
    Kept ((Step.leaveObject p).next stage) visited (completed ++ [p]) := by
  have hsublist : ((completed ++ [p]) ++ outer).Sublist
      (completed ++ (stage.declared.toList ++ (p :: outer))) := by
    rw [List.append_assoc]
    exact (List.sublist_append_right _ _).append_left completed
  have hknown := h.known
  have hapart := h.apart
  have henclosed := h.enclosed
  rw [hentered] at hknown hapart henclosed
  have hnext : (Step.leaveObject p).next stage = ⟨outer, none, stage.admitted⟩ := by
    rw [Step.next, hentered]
    rfl
  rw [hnext]
  refine ⟨h.admitted, h.dotFree, h.types, fun q hq => ?_,
    fun o ho => hknown o (hsublist.subset ho), (hsublist.map _).nodup hapart⟩
  refine (henclosed q hq).imp_right fun ⟨o, ho, hpath⟩ => ⟨o, ?_, hpath⟩
  rwa [List.append_assoc]

end Kept

namespace Pictures

variable {stage : Stage} {visited completed : List Place} {ctx ctx' : Context}

theorem declareType (h : Pictures stage visited completed ctx) (hkept : Kept stage visited completed)
    {p : Place} (haround : p.around = innermost stage.entered)
    (hstep : ctx.declareType p.type = .ok ctx') :
    p.type ∉ visited.map Place.type ∧
      Pictures ((Step.declareType p).next stage) (visited ++ [p]) completed ctx' := by
  obtain ⟨arrays, scopes, rfl, hscopes⟩ := h
  obtain ⟨outer, houter⟩ := openPaths_eq stage.entered
  have hnodup := hkept.openPaths_nodup
  rw [houter] at hscopes hnodup
  cases hscopes with
  | @cons _ scope _ scopes hscope hrest =>
    obtain ⟨hfree, rfl⟩ := declareType_ok_iff.mp hstep
    refine ⟨hkept.type_new haround hscope hfree, arrays, _, rfl, ?_⟩
    change List.Forall₂ _ (openPaths stage.entered) _
    rw [houter]
    -- the scopes further out belong to other objects, so they need not hold the new type
    refine .cons (hscope.append (typeName_mem_typeNames _)) (holds_append_of_not_mem hrest ?_)
    rw [haround]
    exact (List.nodup_cons.mp hnodup).1

theorem enterObject (h : Pictures stage visited completed ctx) (hkept : Kept stage visited completed)
    {p : Place} (hfits : (Step.enterObject p).Fits stage) :
    Pictures ((Step.enterObject p).next stage) visited completed
      (ctx.enterObject p.name p.type) := by
  obtain ⟨arrays, scopes, rfl, hscopes⟩ := h
  obtain ⟨hdeclared, haround⟩ := hfits
  refine ⟨arrays, Scope.ofClass p.type :: scopes, ?_, .cons (fun q hq hinside => ?_) hscopes⟩
  · rw [enterObject_moment, ← haround]
    rfl
  · exact absurd hinside (hkept.nothing_inside hdeclared hq)

theorem leaveObject (h : Pictures stage visited completed ctx) {p : Place} {outer : List Place}
    (hentered : stage.entered = p :: outer) (haround : p.around = innermost outer)
    (hstep : ctx.leaveObject p.type = .ok ctx') :
    Pictures ((Step.leaveObject p).next stage) visited (completed ++ [p]) ctx' := by
  obtain ⟨arrays, scopes, rfl, hscopes⟩ := h
  have hnext : ((Step.leaveObject p).next stage).entered = outer := congrArg List.tail hentered
  obtain ⟨paths, hpaths⟩ := openPaths_eq outer
  have hopen : openPaths stage.entered = p.path :: innermost outer :: paths := by
    rw [hentered, ← hpaths]
    rfl
  rw [hopen] at hscopes
  cases hscopes with
  | cons _ hscopes =>
    cases hscopes with
    | @cons _ scope _ scopes hscope hrest =>
      rw [hentered] at hstep
      obtain rfl := Except.ok.inj (leaveObject_moment.symm.trans hstep)
      refine ⟨arrays, scope :: scopes, ?_, ?_⟩
      · rw [hnext, ← haround, List.map_append]
        rfl
      · rw [hnext, hpaths]
        exact .cons hscope hrest

/-- Declaring a further name keeps the types that are taken. -/
theorem declare (h : Pictures stage visited completed ctx) {name : String}
    (hstep : ctx.declare name = .ok ctx') : Pictures stage visited completed ctx' := by
  obtain ⟨arrays, scopes, rfl, hscopes⟩ := h
  obtain ⟨outer, houter⟩ := openPaths_eq stage.entered
  rw [houter] at hscopes
  cases hscopes with
  | @cons _ scope _ scopes hscope hrest =>
    obtain ⟨-, rfl⟩ := declare_ok_iff.mp hstep
    refine ⟨arrays, _, rfl, ?_⟩
    rw [houter]
    refine .cons (fun q hq haround => ?_) hrest
    exact Scope.mem_taken_withNames.mpr (.inr (hscope q hq haround))

theorem leaveArray (h : Pictures stage visited completed ctx)
    (hstep : ctx.leaveArray.map Prod.snd = .ok ctx') : Pictures stage visited completed ctx' := by
  obtain ⟨arrays, scopes, rfl, hscopes⟩ := h
  cases arrays with
  | nil => cases hstep
  | cons bounds arrays =>
    rw [leaveArray_moment] at hstep
    obtain rfl := Except.ok.inj hstep
    exact ⟨arrays, scopes, rfl, hscopes⟩

end Pictures

/-- **One step** keeps what is known of the nodes and of the context. -/
theorem kept_perform {stage : Stage} {visited completed : List Place} {ctx ctx' : Context}
    {step : Step} (hkept : Kept stage visited completed)
    (hctx : Pictures stage visited completed ctx) (hfits : step.Fits stage)
    (hstep : step.perform ctx = .ok ctx') :
    Kept (step.next stage) (visited ++ step.visited) (completed ++ step.completed) ∧
      Pictures (step.next stage) (visited ++ step.visited) (completed ++ step.completed) ctx' := by
  cases step <;> simp only [Step.visited, Step.completed, List.append_nil]
  case admitEntry p =>
    rw [Step.perform] at hstep
    split at hstep
    · cases hstep
    · next hname =>
      split at hstep
      · cases hstep
      · obtain rfl := Except.ok.inj hstep
        exact ⟨hkept.allow (by simpa using hname), hctx⟩
  case admitMember p =>
    rw [Step.perform] at hstep
    split at hstep
    · next hname =>
      obtain rfl := Except.ok.inj hstep
      exact ⟨hkept.allow (isMemberName_iff.mp hname).1, hctx⟩
    · cases hstep
  case declareType p =>
    obtain ⟨hnew, hctx'⟩ := hctx.declareType hkept hfits.1 hstep
    exact ⟨hkept.declareType hfits hnew, hctx'⟩
  case enterObject p =>
    obtain rfl := Except.ok.inj hstep
    exact ⟨hkept.enterObject hfits.1, hctx.enterObject hkept hfits⟩
  case leaveObject p =>
    obtain ⟨outer, hentered, haround⟩ := hfits
    exact ⟨hkept.leaveObject hentered, hctx.leaveObject hentered haround hstep⟩
  case enterArray bounds =>
    obtain rfl := Except.ok.inj hstep
    obtain ⟨arrays, scopes, rfl, hscopes⟩ := hctx
    exact ⟨hkept, bounds :: arrays, scopes, rfl, hscopes⟩
  case leaveArray => exact ⟨hkept, hctx.leaveArray hstep⟩
  case resolve p r =>
    rw [Step.perform] at hstep
    split at hstep
    · obtain rfl := Except.ok.inj hstep
      exact ⟨hkept, hctx⟩
    · cases hstep
  case declareMember name => exact ⟨hkept, hctx.declare hstep⟩

/-- **Any number of steps** keeps it, and the steps that are left fit in. -/
theorem kept_performAll {done rest : List Step} {stage : Stage} {visited completed : List Place}
    {ctx ctx' : Context} (hfollows : Follows stage (done ++ rest))
    (hkept : Kept stage visited completed) (hctx : Pictures stage visited completed ctx)
    (hdone : performAll ctx done = .ok ctx') :
    ∃ later, Kept later (visited ++ visitedIn done) (completed ++ completedIn done) ∧
      Pictures later (visited ++ visitedIn done) (completed ++ completedIn done) ctx' ∧
      Follows later rest := by
  induction done generalizing stage visited completed ctx with
  | nil =>
    obtain rfl := Except.ok.inj hdone
    refine ⟨stage, ?_, ?_, hfollows⟩
    · simpa [visitedIn, completedIn] using hkept
    · simpa [visitedIn, completedIn] using hctx
  | cons step more ih =>
    obtain ⟨between, hstep, hmore⟩ := Except.bind_eq_ok_iff.mp hdone
    obtain ⟨hkept', hctx'⟩ := kept_perform hkept hctx hfollows.1 hstep
    obtain ⟨later, h⟩ := ih hfollows.2 hkept' hctx' hmore
    refine ⟨later, ?_⟩
    rwa [visitedIn_cons, completedIn_cons, ← List.append_assoc, ← List.append_assoc]

/-- What is known at a moment of the run of a schema. -/
theorem moment_kept {s : Schema} {done rest : List Step} {ctx : Context}
    (hsteps : s.steps = done ++ rest) (hdone : performAll .initial done = .ok ctx) :
    ∃ stage, Kept stage (visitedIn done) (completedIn done) ∧
      Pictures stage (visitedIn done) (completedIn done) ctx ∧ Follows stage rest := by
  have hfollows : Follows ⟨[], none, []⟩ (done ++ rest) := by
    rw [← hsteps]
    exact follows_entrySteps s.entries none []
  have hkept : Kept ⟨[], none, []⟩ [] [] :=
    ⟨List.forall_mem_nil _, List.forall_mem_nil _, List.nodup_nil, List.forall_mem_nil _,
      List.forall_mem_nil _, List.nodup_nil⟩
  have hctx : Pictures ⟨[], none, []⟩ [] [] .initial :=
    ⟨[], [.outermost], rfl, .cons (List.forall_mem_nil _) .nil⟩
  exact kept_performAll hfollows hkept hctx hdone

/-! ## The table -/

/-- Where no key comes twice, the keys of the table are those of the objects, in their order. -/
theorem names_tableOf {done : List (List String)} (h : (done.map dotted).Nodup) :
    (tableOf done).objects.names = done.map dotted := by
  induction done using List.reverseRecOn with
  | nil => rfl
  | append_singleton done path ih =>
    rw [List.map_append, List.nodup_append] at h
    have hnew : dotted path ∉ (tableOf done).objects.names := by
      rw [ih h.1]
      intro hmem
      exact h.2.2 _ hmem _ List.mem_cons_self rfl
    rw [tableOf_append]
    change ((tableOf done).objects.put (dotted path) _).names = _
    rw [Entries.names_put, if_neg hnew, ih h.1, List.map_append]
    rfl

namespace Kept

variable {stage : Stage} {visited completed : List Place}

/-- Objects that are entered or complete have names without dots. -/
theorem spelled (h : Kept stage visited completed) :
    Spelled ((completed ++ stage.entered).map Place.path) := by
  intro path hpath
  obtain ⟨o, ho, rfl⟩ := List.mem_map.mp hpath
  exact ⟨o.path_ne_nil, h.dotFree o (h.mem_visited ho)⟩

/-- Objects that are entered or complete have keys of their own. -/
theorem keys_nodup (h : Kept stage visited completed) :
    (((completed ++ stage.entered).map Place.path).map dotted).Nodup := by
  refine List.Nodup.map_on (fun path hpath path' hpath' hsame => ?_) h.paths_nodup
  exact dotted_inj (h.spelled path hpath) (h.spelled path' hpath') hsame

theorem completed_keys_nodup (h : Kept stage visited completed) :
    ((completed.map Place.path).map dotted).Nodup :=
  (((List.sublist_append_left completed _).map _).map _).nodup h.keys_nodup

end Kept

namespace Pictures

variable {stage : Stage} {visited completed : List Place} {ctx : Context}

/-- The keys of the table are those of the complete objects. -/
theorem names_eq (h : Pictures stage visited completed ctx) (hkept : Kept stage visited completed) :
    ctx.references.objects.names = (completed.map Place.path).map dotted := by
  obtain ⟨arrays, scopes, rfl, -⟩ := h
  exact names_tableOf hkept.completed_keys_nodup

/-- A key of the table leads to the type that its parts lead to. -/
theorem exists_get? (h : Pictures stage visited completed ctx) (hkept : Kept stage visited completed)
    {key : String} (hkey : key ∈ ctx.references.objects.names) :
    ∃ type, ctx.references.objects.get? key = some type ∧
      type.scope ++ [type.name] = (Reference.ofText key).segments.map typeName := by
  rw [h.names_eq hkept] at hkey
  obtain ⟨path, hpath, rfl⟩ := List.mem_map.mp hkey
  obtain ⟨p, hp, rfl⟩ := List.mem_map.mp hpath
  obtain ⟨arrays, scopes, rfl, -⟩ := h
  have hspelled : Spelled (completed.map Place.path) := fun path hpath =>
    hkept.spelled path (List.map_append ▸ List.mem_append_left _ hpath)
  obtain ⟨found, hfound⟩ := Option.isSome_iff_exists.mp (latest?_isSome_iff.mpr ⟨_, hpath, rfl⟩)
  have hsame : found = p.path :=
    dotted_inj (hspelled found (latest?_mem hfound)) (hspelled _ hpath)
      (by simpa using List.find?_some hfound)
  refine ⟨p.type, ?_, ?_⟩
  · change (tableOf _).objects.get? _ = _
    rw [tableOf_get?, hfound, hsame, Option.map_some, Place.ofPath_path]
  · rw [segments_dotted (hspelled _ hpath).1 (hspelled _ hpath).2, Place.map_typeName_path]
    rfl

/-- The key under which an object is registered is no key of the table before. -/
theorem key_new (h : Pictures stage visited completed ctx) (hkept : Kept stage visited completed)
    {p : Place} (hfits : (Step.leaveObject p).Fits stage) :
    ctx.path.dotted = dotted p.path ∧ dotted p.path ∉ ctx.references.objects.names := by
  obtain ⟨outer, hentered, -⟩ := hfits
  have hkeys := hkept.keys_nodup
  rw [hentered, List.map_append, List.map_append] at hkeys
  have hnames := h.names_eq hkept
  obtain ⟨arrays, scopes, rfl, -⟩ := h
  refine ⟨?_, ?_⟩
  · rw [hentered]
    rfl
  · rw [hnames]
    intro hmem
    exact (List.nodup_append.mp hkeys).2.2 _ hmem _ List.mem_cons_self rfl

end Pictures

/-- **Registrations at every moment.** A run performs the steps of its schema, comes to its nodes
between them, and visits and completes the nodes that are there to be visited and completed. After any
number of steps, the keys of the table are the dotted paths of the objects completed so far, and none
comes twice. An object that is left next is registered under a key that is not there yet. Each key
leads to the type whose classes have the names made of the parts of the key. No two of the nodes
visited so far have the same type. -/
theorem registrations_at_every_moment (target : Target) (s : Schema) :
    ((generateUnits target s).map (fun _ => ()) = (do
      s.check.mapError .constraint
      (← performAll .initial s.steps).finish)) ∧
    (∀ ctx name node, s.Visits target ctx name node →
      ∃ done rest, s.steps = done ++ (node.steps ctx.path.names name ++ rest) ∧
        performAll .initial done = .ok ctx) ∧
    (∀ p, (p ∈ visitedIn s.steps ↔ s.Has p ∧ p.node.isReference = false) ∧
      (p ∈ completedIn s.steps ↔ s.Has p ∧ p.node.isObject = true)) ∧
    ∀ done rest ctx, s.steps = done ++ rest → performAll .initial done = .ok ctx →
      ctx.references.objects.names = (completedIn done).map (fun p => dotted p.path) ∧
      ctx.references.objects.names.Nodup ∧
      (∀ p later, rest = .leaveObject p :: later →
        ctx.path.dotted = dotted p.path ∧ dotted p.path ∉ ctx.references.objects.names) ∧
      (∀ key ∈ ctx.references.objects.names, ∃ type,
        ctx.references.objects.get? key = some type ∧
          type.scope ++ [type.name] = (Reference.ofText key).segments.map typeName) ∧
      ((visitedIn done).map Place.type).Nodup := by
  refine ⟨generateUnits_eq_performAll target s, fun ctx name node h => h.performed,
    fun p => ⟨Schema.mem_visitedIn_steps_iff, Schema.mem_completedIn_steps_iff⟩, ?_⟩
  intro done rest ctx hsteps hdone
  obtain ⟨stage, hkept, hctx, hfollows⟩ := moment_kept hsteps hdone
  have hnames := hctx.names_eq hkept
  refine ⟨?_, ?_, ?_, fun key hkey => hctx.exists_get? hkept hkey, hkept.types⟩
  · rw [hnames, List.map_map]
    rfl
  · rw [hnames]
    exact hkept.completed_keys_nodup
  · rintro p later rfl
    exact hctx.key_new hkept hfollows.1

/-- A shop with an owner and with shelves, one of which is referred to. -/
def shopExample : Schema :=
  ⟨[("shop", .object [("owner", .object [("adult", .scalar (.bool none))]),
    ("shelves", .array (.object [("full", .scalar (.bool none))]) ⟨some 1, none⟩),
    ("main", .reference (.ofText "shelves_element"))])]⟩

/-- When all members of the shop are walked the owner and the items of the shelves are registered,
under keys of their own. The shop itself is registered next. -/
theorem shopExample_registrations :
    ∃ ctx shop, performAll .initial shopExample.steps.dropLast = .ok ctx ∧
      shopExample.steps.getLast? = some (.leaveObject shop) ∧
      ctx.references.objects.names = ["shop.owner", "shop.shelves_element"] ∧
      (∃ type, ctx.references.objects.get? "shop.shelves_element" = some type ∧
        type.scope ++ [type.name] = ["Shop", "ShelvesElement"]) ∧
      dotted shop.path = "shop" ∧ "shop" ∉ ctx.references.objects.names ∧
      ((visitedIn shopExample.steps.dropLast).map Place.type).Nodup ∧
      (visitedIn shopExample.steps.dropLast).map (fun p => p.type.name) =
        ["Shop", "Owner", "Adult", "Shelves", "ShelvesElement", "Full"] := by
  have hok : (performAll .initial shopExample.steps.dropLast).toBool = true := by decide
  cases hdone : performAll .initial shopExample.steps.dropLast with
  | error e => rw [hdone] at hok; cases hok
  | ok ctx =>
    obtain ⟨-, -, -, hmoment⟩ := registrations_at_every_moment Options.default.target shopExample
    obtain ⟨hnames, -, hnew, hentries, htypes⟩ := hmoment _ _ ctx
      (List.dropLast_append_getLast? _ rfl).symm hdone
    have hkeys : ctx.references.objects.names = ["shop.owner", "shop.shelves_element"] := by
      rw [hnames]
      decide
    obtain ⟨type, htype, hparts⟩ := hentries "shop.shelves_element" (by rw [hkeys]; decide)
    exact ⟨ctx, _, rfl, rfl, hkeys, ⟨type, htype, hparts⟩, by decide, (hnew _ [] rfl).2, htypes,
      by decide⟩

end ConfigForge
