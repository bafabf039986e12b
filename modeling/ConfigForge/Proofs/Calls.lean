import ConfigForge.Proofs.CalledNames
import ConfigForge.Proofs.Program
import ConfigForge.Proofs.Rendering

/-!
# Calls of defined helpers

The bodies of the generated functions call helpers: those of an object call the helpers of its
members, those of an array the helpers of its item, and the methods of a class the helpers of the
class. The calls are spelled with qualified names, and so are the heads of the definitions. The name of
every call is the name in a head, and what a helper calls is defined before it.

Results:

* `headName_fill_head`: the name in the head of a function.
* `Place.hasHead`: a node that is no reference has a head for each helper of its type.
* `Schema.Admissible.hasHead_before`: what the helpers of a node call is defined before them.
* `Place.calls_own`, `Place.calls_child`: what is called at all.
* `calls_have_heads`: the calls in the source and the heads in the source.
-/

namespace ConfigForge

open Code (Line Placement PlacedFragment)
open Emit Cpp

/-! ## Calls and heads -/

/-- The helpers that the body of a function calls. -/
def GeneratedFunction.calls (f : GeneratedFunction) : List (QualifiedName × Helper) :=
  f.mentions.filterMap fun m => m.helper.map (m.type, ·)

theorem GeneratedFunction.mem_calls_iff {f : GeneratedFunction} {q : QualifiedName} {h : Helper} :
    (q, h) ∈ f.calls ↔ ⟨q, some h⟩ ∈ f.mentions := by
  rw [calls, List.mem_filterMap]
  constructor
  · rintro ⟨⟨type, helper⟩, hm, heq⟩
    obtain ⟨helper, rfl, heq⟩ := Option.map_eq_some_iff.mp heq
    cases heq
    exact hm
  · exact fun hm => ⟨_, hm, rfl⟩

/-- The name in the head of a function: the last word before the parameters. -/
def headName (line : String) : String :=
  (words (String.ofList (line.toList.takeWhile (· ≠ '(')))).getLast?.getD ""

/-- Whether one of the lines is the head of a function with the given name. -/
def HasHead (lines : List String) (name : String) : Prop :=
  ∃ line ∈ lines, isHead line = true ∧ headName line = name

theorem HasHead.mono {lines more : List String} {name : String} (h : HasHead lines name)
    (hsub : lines ⊆ more) : HasHead more name := by
  obtain ⟨line, hline, hhead⟩ := h
  exact ⟨line, hsub hline, hhead⟩

/-- Whether the nodes directly below are initialized with a node. Those of an array are only if it
starts with items. -/
def Node.initializesBelow : Node → Bool
  | .array _ bounds => 0 < bounds.initialLength
  | _ => true

/-! ## Names in heads -/

/-- The name of a function that has a result is the last word before its parameters. -/
theorem headName_fill_head {s : Signature} {p : Placement}
    (hresult : s.result = "void" ∨ s.result = "bool")
    (hblank : ' ' ∉ (p.scope ++ s.name).toList) (hparen : '(' ∉ (p.scope ++ s.name).toList) :
    headName (s.head.fill p) = p.scope ++ s.name := by
  have hword : s.result ≠ "" ∧ ' ' ∉ s.result.toList ∧ '(' ∉ s.result.toList := by
    rcases hresult with hresult | hresult <;> rw [hresult] <;> decide
  have hchars : (s.head.fill p).toList = (s.result ++ " " ++ (p.scope ++ s.name)).toList ++
      '(' :: ((Signature.paramsLine s.params).fill p ++ ")" ++ s.constText ++ " \x7b").toList := by
    rw [fill_head, Signature.resultText, if_neg hword.1]
    simp [String.toList_append]
  have hfront : ∀ c ∈ (s.result ++ " " ++ (p.scope ++ s.name)).toList,
      decide (c ≠ '(') = true := by
    intro c hc
    rw [decide_eq_true_eq]
    rintro rfl
    rw [String.toList_append, String.toList_append, List.mem_append, List.mem_append] at hc
    rcases hc with (hc | hc) | hc
    · exact hword.2.2 hc
    · exact absurd hc (by decide)
    · exact hparen hc
  rw [headName, hchars, List.takeWhile_append_of_pos hfront, List.takeWhile_cons_of_neg (by decide),
    List.append_nil, String.ofList_toList, words_append hword.1 hword.2.1,
    Text.split_of_not_mem hblank]
  simp

section

variable {p : Place} (hp : p.type.IsTyped)

include hp

/-- The head of a helper has the qualified name of the helper. -/
theorem Place.hasHead_of_name {f : Function} {h : Helper}
    (hname : f.signature.name = h.name p.type.name)
    (hresult : f.signature.result = "void" ∨ f.signature.result = "bool") :
    HasHead (⟨p, false, f⟩ : GeneratedFunction).lines (p.type.helper h) := by
  have htext : (scopePlacement p.scope).scope ++ f.signature.name = p.type.helper h := by
    rw [scopePlacement_scope, hname]
    rfl
  have hblank : ' ' ∉ (p.type.helper h).toList := hp.not_mem_helper h (by decide) (by decide)
  have hparen : '(' ∉ (p.type.helper h).toList := hp.not_mem_helper h (by decide) (by decide)
  rw [← htext] at hblank hparen
  refine ⟨f.signature.head.fill (scopePlacement p.scope), List.mem_cons_self, ?_, ?_⟩
  · rw [String.toList_append, List.mem_append, not_or] at hblank
    refine isHead_fill_head ?_ hblank.1 hblank.2
    rcases hresult with hresult | hresult <;> rw [hresult] <;> decide
  · rw [headName_fill_head hresult hblank hparen, htext]

/-- **Heads of a node.** A node that is no reference has a head for each helper of its type. -/
theorem Place.hasHead (target : Target) (href : p.node.isReference = false) (h : Helper) :
    HasHead ((p.functions target).flatMap GeneratedFunction.lines) (p.type.helper h) := by
  obtain ⟨bodies, hbodies⟩ : ∃ bodies, p.bodies? target = some bodies := by
    cases hnode : p.node with
    | reference r => rw [hnode] at href; cases href
    | _ => rw [Place.bodies?, hnode]; exact ⟨_, rfl⟩
  obtain ⟨f, hf, hname, hresult⟩ : ∃ f ∈ helperFunctions target p.type.name bodies,
      f.signature.name = h.name p.type.name ∧
        (f.signature.result = "void" ∨ f.signature.result = "bool") := by
    cases h <;> simp [helperFunctions, initSignature, validateSignature, validateJsonSignature,
      toJsonSignature, jsonToSignature]
  refine (Place.hasHead_of_name hp hname hresult).mono fun line hline => ?_
  exact List.mem_flatMap.mpr ⟨_, (Place.mem_functions_iff hbodies).mpr hf, hline⟩

end

/-- The same among the functions of several nodes. -/
theorem Schema.Admissible.hasHead_of_mem {t : Schema} (ht : t.Admissible) (target : Target)
    {places : List Place} {p : Place} (hp : p ∈ places) (hhas : t.Has p)
    (href : p.node.isReference = false) (h : Helper) :
    HasHead ((places.flatMap (Place.functions target)).flatMap GeneratedFunction.lines)
      (p.type.helper h) := by
  refine (Place.hasHead (ht.isTyped_type hhas) target href h).mono fun line hline => ?_
  rw [List.flatMap_assoc]
  exact List.mem_flatMap.mpr ⟨p, hp, hline⟩

/-! ## Definitions before the calls -/

/-- An element of one of several lists, with what stands before it. -/
theorem exists_split_flatMap {α β : Type} {g : α → List β} {l : List α} {front back : List β} {b : β}
    (h : l.flatMap g = front ++ b :: back) :
    ∃ l₁ a l₂ before after, l = l₁ ++ a :: l₂ ∧ g a = before ++ b :: after ∧
      front = l₁.flatMap g ++ before := by
  induction l generalizing front with
  | nil => simp at h
  | cons a l ih =>
    rw [List.flatMap_cons] at h
    rcases List.append_eq_append_iff.mp h with ⟨rest, rfl, hrest⟩ | ⟨rest, hfirst, hrest⟩
    · obtain ⟨l₁, a', l₂, before, after, rfl, hsplit, rfl⟩ := ih hrest
      exact ⟨a :: l₁, a', l₂, before, after, rfl, hsplit, by
        rw [List.flatMap_cons, List.append_assoc]⟩
    · cases rest with
      | nil =>
        have hback : l.flatMap g = [] ++ b :: back := hrest.symm
        obtain ⟨l₁, a', l₂, before, after, rfl, hsplit, hbefore⟩ := ih hback
        refine ⟨a :: l₁, a', l₂, before, after, rfl, hsplit, ?_⟩
        rw [List.flatMap_cons, List.append_assoc, ← hbefore, hfirst, List.append_nil,
          List.append_nil]
      | cons b' rest =>
        obtain ⟨rfl, -⟩ := List.cons.inj hrest
        exact ⟨[], a, l, front, rest, rfl, hfirst, rfl⟩

/-- What a node directly below provides is the type of a node before. -/
theorem Schema.Admissible.exists_before {t : Schema} (ht : t.Admissible)
    (hrefs : EachReferenceIn Reference.IsSettled [] [] t.entries) {p c : Place}
    (href : p.node.isReference = false) (hc : c ∈ p.children) {front back : List Place}
    (hsplit : t.postorder = front ++ p :: back) :
    ∃ o ∈ front, t.Has o ∧ o.node.isReference = false ∧ o.type = c.provided := by
  obtain ⟨position, hp⟩ : t.Has p := by
    rw [← mem_postorder_iff, hsplit]
    exact List.mem_append_right _ List.mem_cons_self
  obtain ⟨i, hi⟩ := List.mem_iff_getElem?.mp hc
  have hposition : t.at? (position ++ [i]) = some c := by
    rw [Schema.at?_append hp, Place.at?, hi]
    rfl
  obtain ⟨o, ho, horef, htype, hprecedes⟩ :=
    Schema.exists_precedes hrefs hp hposition (List.cons_ne_nil _ _)
  -- A node may be repeated in the postorder only if it is a reference.
  have hnodup : (declaring t.postorder).Nodup := List.Nodup.of_map _ ht.nodup_declaredTypes
  have hdeclaring : declaring t.postorder = declaring front ++ p :: declaring back := by
    rw [hsplit, declaring, List.filter_append, List.filter_cons_of_pos (by rw [href]; rfl)]
    rfl
  have hmem := (hprecedes.filter (by rw [horef]; rfl) (by rw [href]; rfl)).mem_front hnodup
    hdeclaring
  exact ⟨o, (List.mem_filter.mp hmem).1, ho, horef, htype⟩

/-- The one call in the functions of a scalar is that of the check of a value. -/
theorem Place.hasHead_before_scalar {target : Target} {p : Place} {s : Scalar}
    (hnode : p.node = .scalar s) (hp : p.type.IsTyped)
    {before after : List GeneratedFunction} {f : GeneratedFunction}
    (hsplit : p.functions target = before ++ f :: after) {q : QualifiedName} {h : Helper}
    (hcall : (q, h) ∈ f.calls) : HasHead (before.flatMap GeneratedFunction.lines) (q.helper h) := by
  have hbodies : p.bodies? target = some (aliasBodies p.type.name s s.primitive) := by
    rw [Place.bodies?, hnode]
  have hfunctions : p.functions target =
      (helperFunctions target p.type.name (aliasBodies p.type.name s s.primitive)).map
        (⟨p, false, ·⟩) := by
    rw [Place.functions, hbodies, Place.methods, hnode]
    simp
  have hf : f ∈ p.functions target := by
    rw [hsplit]
    exact List.mem_append_right _ List.mem_cons_self
  rw [hfunctions] at hf hsplit
  obtain ⟨function, hfunction, rfl⟩ := List.mem_map.mp hf
  obtain ⟨hq, hhelper⟩ := mem_aliasBodies hfunction (GeneratedFunction.mem_calls_iff.mp hcall)
  obtain ⟨rfl, hsignature⟩ := hhelper h rfl
  obtain rfl : q = p.type := hq
  -- The caller is the third helper, and what it calls is the second one.
  rcases before with _ | ⟨first, _ | ⟨second, before⟩⟩
  · obtain ⟨hfirst, -⟩ := List.cons.inj hsplit
    cases hfirst
    simp [initSignature, validateJsonSignature] at hsignature
  · obtain ⟨hsecond, -⟩ := List.cons.inj (List.cons.inj hsplit).2
    cases hsecond
    simp [validateSignature, validateJsonSignature, valueReference, jsonReference] at hsignature
  · obtain ⟨hsecond, -⟩ := List.cons.inj (List.cons.inj hsplit).2
    have hhead : HasHead second.lines (p.type.helper .validate) := by
      rw [← hsecond]
      exact Place.hasHead_of_name hp rfl (.inr rfl)
    refine hhead.mono fun line hline => ?_
    exact List.mem_flatMap.mpr ⟨_, List.mem_cons_of_mem _ List.mem_cons_self, hline⟩

/-- **Definitions first.** What a helper calls is defined before it. -/
theorem Schema.Admissible.hasHead_before {t : Schema} (ht : t.Admissible)
    (hrefs : EachReferenceIn Reference.IsSettled [] [] t.entries) {target : Target}
    {before after : List GeneratedFunction} {f : GeneratedFunction}
    (hsplit : t.functions target = before ++ f :: after) (hmethod : f.isMethod = false)
    {q : QualifiedName} {h : Helper} (hcall : (q, h) ∈ f.calls) :
    HasHead (before.flatMap GeneratedFunction.lines) (q.helper h) := by
  obtain ⟨front, p, back, own, rest, hpost, hown, rfl⟩ := exists_split_flatMap hsplit
  have hf : f ∈ p.functions target := by
    rw [hown]
    exact List.mem_append_right _ List.mem_cons_self
  have hp : t.Has p := by
    rw [← mem_postorder_iff, hpost]
    exact List.mem_append_right _ List.mem_cons_self
  rw [List.flatMap_append]
  obtain ⟨-, ⟨⟨s, hnode⟩, -⟩ | ⟨c, hc, hq⟩⟩ :=
    Place.mention_of_helper hf hmethod (GeneratedFunction.mem_calls_iff.mp hcall)
  · exact (Place.hasHead_before_scalar hnode (ht.isTyped_type hp) hown hcall).mono
      (List.subset_append_right _ _)
  · have href : p.node.isReference = false := by
      cases hnode : p.node with
      | reference r => rw [Place.children, hnode] at hc; cases hc
      | _ => rfl
    obtain ⟨o, ho, hhas, horef, htype⟩ := ht.exists_before hrefs href hc hpost
    obtain rfl : q = o.type := hq.trans htype.symm
    exact (ht.hasHead_of_mem target ho hhas horef h).mono (List.subset_append_left _ _)

/-! ## What is called -/

/-- The methods of a class call all helpers of the class. -/
theorem Place.calls_own (target : Target) {p : Place} (hobject : p.node.isObject = true)
    (h : Helper) : ∃ f ∈ p.functions target, f.isMethod = true ∧ (p.type, h) ∈ f.calls := by
  suffices hmethod : ∃ f ∈ p.methods target,
      ⟨p.type, some h⟩ ∈ f.body.flatMap (Block.mentions p.scope) by
    obtain ⟨f, hf, hm⟩ := hmethod
    exact ⟨⟨p, true, f⟩, List.mem_append_left _ (List.mem_map_of_mem hf), rfl,
      GeneratedFunction.mem_calls_iff.mpr hm⟩
  cases hnode : p.node with
  | object members =>
    rw [Place.methods, hnode]
    cases h with
    | init =>
      refine ⟨_, List.mem_of_getElem? (i := 0) rfl, ?_⟩
      rw [mentions_statements]
      simp [Stmt.mentions, Owner.typeIn, Place.type]
    | toJson =>
      refine ⟨_, List.mem_of_getElem? (i := 3) rfl, ?_⟩
      rw [mentions_statements]
      simp [toStringBody, Stmt.mentions, Owner.typeIn, Place.type]
    | validate | jsonTo =>
      refine ⟨_, List.mem_of_getElem? (i := 4) rfl, ?_⟩
      rw [mentions_statements]
      simp [fromStringBody, Stmt.rejectIf, Stmt.mentions, Owner.typeIn, Place.type]
  | _ => rw [hnode] at hobject; cases hobject

/-- The helpers of an object call all helpers of its members. -/
theorem mem_mentions_classBodies (target : Target) (type : String) (scope : List String)
    {members : List Member} {member : Member} (hmember : member ∈ members) (h : Helper) :
    ∃ f ∈ helperFunctions target type (classBodies target members),
      ⟨member.emitted.name, some h⟩ ∈ f.body.flatMap (Block.mentions scope) := by
  cases h with
  | init =>
    refine ⟨_, List.mem_of_getElem? (i := 0) rfl, ?_⟩
    rw [classBodies, mentions_statements, List.flatMap_append, List.flatMap_map]
    refine List.mem_append_right _ (List.mem_flatMap.mpr ⟨member, hmember, ?_⟩)
    exact List.mem_cons_self
  | validate =>
    refine ⟨_, List.mem_of_getElem? (i := 2) rfl, ?_⟩
    exact mem_dispatch_iff.mpr ⟨member, hmember, List.mem_cons_self⟩
  | toJson =>
    refine ⟨_, List.mem_of_getElem? (i := 3) rfl, ?_⟩
    rw [classBodies, mentions_statements, List.flatMap_append, List.flatMap_append,
      List.flatMap_cons, List.flatMap_map]
    refine List.mem_append_left _ (List.mem_append_right _ (List.mem_append_right _ ?_))
    exact List.mem_flatMap.mpr ⟨member, hmember, List.mem_cons_self⟩
  | jsonTo =>
    refine ⟨_, List.mem_of_getElem? (i := 4) rfl, ?_⟩
    rw [classBodies, List.flatMap_append]
    exact List.mem_append_right _
      (mem_dispatch_iff.mpr ⟨member, hmember, List.mem_cons_self⟩)

/-- The helpers of an array call the helpers of its item. -/
theorem mem_mentions_vectorBodies {target : Target} {type : String} {scope : List String}
    {item : QualifiedName} {bounds : ItemBounds} {h : Helper}
    (hinit : h = .init → 0 < bounds.initialLength) :
    ∃ f ∈ helperFunctions target type (vectorBodies target item bounds),
      ⟨item, some h⟩ ∈ f.body.flatMap (Block.mentions scope) := by
  cases h with
  | init =>
    refine ⟨_, List.mem_of_getElem? (i := 0) rfl, ?_⟩
    simp [vectorBodies, hinit rfl, Block.mentions, Stmt.mentions, Owner.typeIn]
  | validate =>
    refine ⟨_, List.mem_of_getElem? (i := 1) rfl, ?_⟩
    simp [vectorBodies, Block.mentions, Stmt.mentions, Stmt.rejectIf, Owner.typeIn]
  | toJson =>
    refine ⟨_, List.mem_of_getElem? (i := 3) rfl, ?_⟩
    simp [vectorBodies, Block.mentions, Stmt.mentions, Stmt.rejectIf, Owner.typeIn]
  | jsonTo =>
    refine ⟨_, List.mem_of_getElem? (i := 4) rfl, ?_⟩
    simp [vectorBodies, Block.mentions, Stmt.mentions, Stmt.rejectIf, Owner.typeIn]

/-- The helpers of a node call the helpers of what the nodes directly below provide. -/
theorem Place.calls_child (target : Target) {p c : Place} (hc : c ∈ p.children) {h : Helper}
    (hinit : h = .init → p.node.initializesBelow = true) :
    ∃ f ∈ p.functions target, f.isMethod = false ∧ (c.provided, h) ∈ f.calls := by
  suffices hhelper : ∃ bodies, p.bodies? target = some bodies ∧
      ∃ f ∈ helperFunctions target p.type.name bodies,
        ⟨c.provided, some h⟩ ∈ f.body.flatMap (Block.mentions p.scope) by
    obtain ⟨bodies, hbodies, f, hf, hm⟩ := hhelper
    exact ⟨⟨p, false, f⟩, (Place.mem_functions_iff hbodies).mpr hf, rfl,
      GeneratedFunction.mem_calls_iff.mpr hm⟩
  rw [Place.bodies?]
  cases hnode : p.node with
  | scalar s => rw [Place.children, hnode] at hc; cases hc
  | reference r => rw [Place.children, hnode] at hc; cases hc
  | array item bounds =>
    rw [Place.children_array hnode, List.mem_singleton] at hc
    rw [hnode, Node.initializesBelow, decide_eq_true_eq] at hinit
    rw [hc]
    exact ⟨_, rfl, mem_mentions_vectorBodies hinit⟩
  | object members =>
    rw [Place.children_object hnode] at hc
    obtain ⟨m, hm, rfl⟩ := mem_placesIn.mp hc
    have hmember : (⟨m.1, m.2.emit target p.path m.1⟩ : Member) ∈
        emitMembers target p.path members := by
      rw [emitMembers_eq]
      exact List.mem_map_of_mem hm
    have hcalls := mem_mentions_classBodies target p.type.name p.scope hmember h
    rw [Node.emit_name] at hcalls
    exact ⟨_, rfl, hcalls⟩

/-! ## The source -/

theorem GeneratedFunction.helperNames_mentions (f : GeneratedFunction) :
    helperNames f.mentions = f.calls.map fun call => call.1.helper call.2 := by
  rw [calls, List.map_filterMap, helperNames]
  refine List.filterMap_congr fun m _ => ?_
  rw [Option.map_map]
  rfl

/-- **Calls of defined helpers.** In a run that succeeds, the source is made of the definitions of the
functions of the schema. The name of every helper that a body calls is spelled in the definition of
the caller, and it is the name in the head of a definition. If a helper calls it, this head stands
before the definition of the caller. The methods of a class call all helpers of the class, and the
helpers of a node those of what the nodes directly below provide. If the JSON type is named by a path,
then these are the calls that are read in the lines of the caller: no other names are called there
with arguments, apart from functions of libraries. -/
theorem calls_have_heads {o : Options} {s : Schema} {units : Entries CodeUnit}
    (h : generateUnits o.target s = .ok units) :
    sourceLines o (units.map fun e => e.2.fragment) =
        sourceFront o ++ (s.settled.functions o.target).flatMap GeneratedFunction.lines ++
          closeNamespaces o.namespaces ∧
      (∀ before f after, s.settled.functions o.target = before ++ f :: after →
        ∀ q helper, (q, helper) ∈ f.calls →
          (∃ line ∈ f.lines, Occurs (q.helper helper) line) ∧
          HasHead ((s.settled.functions o.target).flatMap GeneratedFunction.lines)
            (q.helper helper) ∧
          (f.isMethod = false →
            HasHead (before.flatMap GeneratedFunction.lines) (q.helper helper))) ∧
      (∀ p, s.settled.Has p →
        (p.node.isObject = true → ∀ helper, ∃ f ∈ p.functions o.target,
          f.isMethod = true ∧ (p.type, helper) ∈ f.calls) ∧
        ∀ c ∈ p.children, ∀ helper, (helper = .init → p.node.initializesBelow = true) →
          ∃ f ∈ p.functions o.target, f.isMethod = false ∧ (c.provided, helper) ∈ f.calls) ∧
      (IsPath o.target.jsonType → ∀ f ∈ s.settled.functions o.target,
        (∀ q helper, (q, helper) ∈ f.calls → q.helper helper ∈ calledIn (f.lines.drop 1)) ∧
        ∀ name ∈ calledIn (f.lines.drop 1), name ∈ libraryNames o.target ∨
          ∃ q helper, (q, helper) ∈ f.calls ∧ name = q.helper helper) := by
  obtain ⟨hs, rfl⟩ := generateUnits_ok_iff.mp h
  obtain ⟨ht, hrefs⟩ := hs.settled
  refine ⟨Schema.source_eq o s.settled, fun before f after hsplit q helper hcall => ?_,
    fun p _ => ⟨fun hobject helper => Place.calls_own o.target hobject helper,
      fun c hc helper hinit => Place.calls_child o.target hc hinit⟩, fun hjson f hf => ?_⟩
  swap
  · obtain ⟨hplace, hf⟩ := mem_functions_iff.mp hf
    have hcovers := ht.covers_calledIn hrefs hplace hjson hf rfl
    rw [f.helperNames_mentions] at hcovers
    refine ⟨fun q helper hcall => ?_, fun name hname => ?_⟩
    · exact hcovers.called_of_name _ (List.mem_map_of_mem hcall)
    · refine (hcovers.name_of_called name hname).imp_right fun hname => ?_
      obtain ⟨⟨q, helper⟩, hcall, rfl⟩ := List.mem_map.mp hname
      exact ⟨q, helper, hcall, rfl⟩
  have hmention := GeneratedFunction.mem_calls_iff.mp hcall
  have hbefore : f.isMethod = false →
      HasHead (before.flatMap GeneratedFunction.lines) (q.helper helper) := fun hmethod =>
    ht.hasHead_before hrefs hsplit hmethod hcall
  have hspelled := GeneratedFunction.occurs hmention
  refine ⟨hspelled, ?_, hbefore⟩
  cases hmethod : f.isMethod with
  | false =>
    refine (hbefore hmethod).mono ?_
    rw [hsplit, List.flatMap_append]
    exact List.subset_append_left _ _
  | true =>
    have hf : f ∈ s.settled.functions o.target := by
      rw [hsplit]
      exact List.mem_append_right _ List.mem_cons_self
    obtain ⟨p, hp, hf⟩ := List.mem_flatMap.mp hf
    obtain ⟨-, hobject, htype⟩ := Place.mention_of_method hf hmethod hmention
    obtain rfl : q = p.type := htype
    exact ht.hasHead_of_mem o.target hp (mem_postorder_iff.mp hp)
      (Node.isReference_of_isObject hobject) helper

/-- An item with a member that refers to an object of another entry. -/
theorem nestedExample_point_defined :
    ∃ units, generateUnits Options.default.target nestedExample = .ok units ∧
      ∃ before f after,
        nestedExample.settled.functions Options.default.target = before ++ f :: after ∧
        f.place.path = ["path", "steps_element"] ∧ "ValidatePoint" ∈ calledIn (f.lines.drop 1) ∧
        HasHead (before.flatMap GeneratedFunction.lines) "ValidatePoint" := by
  obtain ⟨units, h⟩ := Schema.generates_of_toBool
    (show (generateUnits Options.default.target nestedExample).toBool = true by decide)
  have hplace : nestedExample.settled.Has
      ⟨["path"], "steps_element", .object [("to", .reference ⟨["point"]⟩)]⟩ := ⟨[1, 1, 0], rfl⟩
  have hprovided : (⟨["path", "steps_element"], "to", .reference ⟨["point"]⟩⟩ : Place).provided =
      ⟨[], "Point"⟩ := by decide
  have htext : (⟨[], "Point"⟩ : QualifiedName).helper .validate = "ValidatePoint" := by
    decide
  have hjson : IsPath Options.default.target.jsonType := 
    ⟨["nlohmann"], "ordered_json", by decide, by decide⟩
  obtain ⟨-, hheads, hcalls, hcalled⟩ := calls_have_heads h
  obtain ⟨f, hf, hmethod, hcall⟩ := (hcalls _ hplace).2
    ⟨["path", "steps_element"], "to", .reference ⟨["point"]⟩⟩ List.mem_cons_self .validate nofun
  rw [hprovided] at hcall
  have hown := place_of_mem_functions hf
  obtain ⟨before, after, hsplit⟩ := List.append_of_mem
    (List.mem_flatMap.mpr ⟨_, mem_postorder_iff.mpr hplace, hf⟩)
  have hhead := (hheads before f after hsplit _ _ hcall).2.2 hmethod
  have hread := (hcalled hjson f (List.mem_flatMap.mpr
    ⟨_, mem_postorder_iff.mpr hplace, hf⟩)).1 _ _ hcall
  rw [htext] at hhead hread
  exact ⟨units, h, before, f, after, hsplit, by rw [hown]; rfl, hread, hhead⟩

end ConfigForge
