import ConfigForge.Proofs.CompleteMembers
import ConfigForge.Proofs.Mentions
import ConfigForge.Proofs.Scanning

/-!
# Balanced code

The names in generated code are plain: those of the schema because they are identifiers, and the
fixed ones because they can be looked at. All other text of a schema, such as the default of a string
or the name of a JSON field, is written as a literal. So nothing in a schema can end a literal, a line
or a block before the generator does.

Results:

* `isPlain_aliasBodies`, `isPlain_vectorBodies`, `isPlain_classBodies`, `isPlain_methods`: the names
  in the bodies of all functions are plain.
* `scansLines_definitions`, `scansLines_declarations`: the code of a node is balanced.
* `unit_text_confined`: in all units no line has a control character or leaves a literal open, and
  braces balance.
-/

namespace ConfigForge

open Code (Line Placement Fragment PlacedFragment)
open Emit Cpp

/-! ## Bodies -/

section

variable {target : Target} {type : String}

theorem forall_mem_statements {stmts : List Stmt} :
    (∀ b ∈ statements stmts, b.IsPlain) ↔ ∀ s ∈ stmts, s.IsPlain :=
  List.forall_mem_map

@[simp] theorem isPlain_val : Expr.val.IsPlain :=
  show Plain "val" by decide

@[simp] theorem isPlain_json : Expr.json.IsPlain :=
  show Plain "json" by decide

@[simp] theorem isPlain_this : Expr.this.IsPlain :=
  show Plain "this" by decide

@[simp] theorem isPlain_element : element.IsPlain :=
  show Plain "element" by decide

@[simp] theorem isPlain_position : position.IsPlain :=
  show Plain "i" by decide

@[simp] theorem isPlain_ask {e : Expr} {question : String} :
    (e.ask question).IsPlain ↔ e.IsPlain ∧ Plain question :=
  Iff.rfl

@[simp] theorem isPlain_callHelper {h : Helper} {owner : Owner} {e : Expr} :
    (Expr.callHelper h owner e).IsPlain ↔ owner.IsPlain ∧ e.IsPlain :=
  Iff.rfl

@[simp] theorem isPlain_jsonAs {t : TypeName} : (Expr.jsonAs t).IsPlain ↔ t.IsPlain :=
  and_iff_right ⟨isPlain_json, by decide⟩

@[simp] theorem isPlain_accept : Stmt.accept.IsPlain :=
  trivial

@[simp] theorem isPlain_rejectIf {e : Expr} : (Stmt.rejectIf e).IsPlain ↔ e.IsPlain :=
  and_iff_left trivial

theorem isPlain_conjunction {conditions : List Expr} (h : ∀ e ∈ conditions, e.IsPlain) :
    ∀ s ∈ conjunction conditions, s.IsPlain := by
  have hresult : Plain "result" := by decide
  unfold conjunction
  split
  · exact List.forall_mem_cons.mpr
      ⟨show Plain "val" by decide, List.forall_mem_singleton.mpr isPlain_accept⟩
  · refine List.forall_mem_cons.mpr ⟨⟨show Plain "bool" by decide, hresult, trivial⟩, ?_⟩
    refine List.forall_mem_append.mpr ⟨?_, List.forall_mem_singleton.mpr hresult⟩
    exact List.forall_mem_map.mpr fun e he => ⟨hresult, hresult, h e he⟩

theorem Primitive.plain_cppName (type : Primitive) : Plain type.cppName := by
  cases type with
  | integer signed width => cases signed <;> cases width <;> decide
  | _ => decide

theorem isPlain_jsonAsInteger (type : Primitive) : (jsonAsInteger type).IsPlain :=
  isPlain_jsonAs.mpr type.plain_cppName

theorem isPlain_unsignedCheck (range : IntRange) : ∀ s ∈ unsignedCheck range, s.IsPlain := by
  unfold unsignedCheck
  split
  · exact List.forall_mem_singleton.mpr (isPlain_rejectIf.mpr
      ⟨⟨isPlain_json, by decide⟩, isPlain_jsonAsInteger _, trivial⟩)
  · exact List.forall_mem_nil _

theorem isPlain_signedTests (range : IntRange) : ∀ e ∈ signedTests range, e.IsPlain := by
  unfold signedTests
  refine List.forall_mem_append.mpr ⟨?_, ?_⟩
  all_goals
    split
    · exact List.forall_mem_singleton.mpr ⟨isPlain_jsonAsInteger _, trivial⟩
    · exact List.forall_mem_nil _

theorem isPlain_foldl_or {tests : List Expr} (h : ∀ e ∈ tests, e.IsPlain) {e : Expr}
    (he : e.IsPlain) : (tests.foldl (fun e t => .binary .or e t) e).IsPlain := by
  induction tests generalizing e with
  | nil => exact he
  | cons t rest ih =>
    obtain ⟨ht, hrest⟩ := List.forall_mem_cons.mp h
    exact ih hrest ⟨he, ht⟩

theorem isPlain_signedCheck (range : IntRange) : ∀ s ∈ signedCheck range, s.IsPlain := by
  have htests := isPlain_signedTests range
  unfold signedCheck
  split
  · exact List.forall_mem_nil _
  · next test tests heq =>
    rw [heq] at htests
    obtain ⟨htest, hrest⟩ := List.forall_mem_cons.mp htests
    exact List.forall_mem_singleton.mpr (isPlain_rejectIf.mpr
      ⟨⟨isPlain_json, by decide⟩, isPlain_foldl_or hrest htest⟩)

theorem isPlain_typeCheck (type : Primitive) : ∀ s ∈ typeCheck type, s.IsPlain := by
  have htag : ∀ tag, Plain tag → (Stmt.rejectIf (.not (Expr.json.ask tag))).IsPlain :=
    fun tag h => isPlain_rejectIf.mpr ⟨isPlain_json, h⟩
  cases type with
  | bool => exact List.forall_mem_singleton.mpr (htag _ (by decide))
  | string => exact List.forall_mem_singleton.mpr (htag _ (by decide))
  | double => exact List.forall_mem_singleton.mpr (htag _ (by decide))
  | integer signed width =>
    exact List.forall_mem_cons.mpr ⟨htag _ (by decide),
      List.forall_mem_append.mpr ⟨isPlain_unsignedCheck _, isPlain_signedCheck _⟩⟩

theorem isPlain_initialValue (s : Scalar) (type : Primitive) : (initialValue s type).IsPlain := by
  cases s with
  | string value =>
    rw [initialValue, textValue]
    split
    · exact ⟨show Plain "std::string" by decide, trivial, trivial⟩
    · trivial
  | _ => trivial

theorem isPlain_boundTests (s : Scalar) (type : Primitive) : ∀ e ∈ boundTests s type, e.IsPlain := by
  cases s with
  | integer limits =>
    exact List.forall_mem_append.mpr
      ⟨forall_mem_toList_map (fun _ => ⟨isPlain_val, trivial⟩) _,
        forall_mem_toList_map (fun _ => ⟨isPlain_val, trivial⟩) _⟩
  | number limits =>
    exact List.forall_mem_append.mpr
      ⟨forall_mem_toList_map (fun _ => ⟨isPlain_val, trivial⟩) _,
        forall_mem_toList_map (fun _ => ⟨isPlain_val, trivial⟩) _⟩
  | bool value => exact List.forall_mem_nil _
  | string value => exact List.forall_mem_nil _

/-- Whether the names in the bodies of the helpers of a type are plain. -/
structure HelperBodies.IsPlain (bodies : HelperBodies) : Prop where
  init : ∀ b ∈ bodies.init, b.IsPlain
  validate : ∀ b ∈ bodies.validate, b.IsPlain
  validateJson : ∀ b ∈ bodies.validateJson, b.IsPlain
  toJson : ∀ b ∈ bodies.toJson, b.IsPlain
  jsonTo : ∀ b ∈ bodies.jsonTo, b.IsPlain

theorem isPlain_aliasBodies (htype : Plain type) (s : Scalar) (primitive : Primitive) :
    HelperBodies.IsPlain (aliasBodies type s primitive) := by
  have hjson : (Expr.jsonAs (.owned (.here type))).IsPlain := isPlain_jsonAs.mpr htype
  refine ⟨?_, ?_, ?_, ?_, ?_⟩
  · exact forall_mem_statements.mpr
      (List.forall_mem_singleton.mpr ⟨isPlain_val, isPlain_initialValue s primitive⟩)
  · refine forall_mem_statements.mpr (isPlain_conjunction (List.forall_mem_map.mpr ?_))
    exact isPlain_boundTests s primitive
  · refine forall_mem_statements.mpr (List.forall_mem_append.mpr ⟨isPlain_typeCheck _, ?_⟩)
    exact List.forall_mem_singleton.mpr ⟨htype, hjson⟩
  · exact forall_mem_statements.mpr (List.forall_mem_cons.mpr
      ⟨⟨isPlain_json, isPlain_val⟩, List.forall_mem_singleton.mpr isPlain_accept⟩)
  · refine forall_mem_statements.mpr (List.forall_mem_append.mpr ⟨isPlain_typeCheck _, ?_⟩)
    exact List.forall_mem_cons.mpr ⟨⟨isPlain_val, hjson⟩, List.forall_mem_singleton.mpr trivial⟩

theorem isPlain_sizeChecks (bounds : ItemBounds) {container : Expr} (h : container.IsPlain) :
    ∀ s ∈ sizeChecks bounds container, s.IsPlain := by
  have hcheck : ∀ op n,
      (Stmt.rejectIf (.binary op (container.ask "size") (.size n))).IsPlain :=
    fun op n => isPlain_rejectIf.mpr ⟨⟨h, by decide⟩, trivial⟩
  exact List.forall_mem_append.mpr
    ⟨forall_mem_toList_map (hcheck _) _, forall_mem_toList_map (hcheck _) _⟩

theorem isPlain_vectorBodies (hjson : Plain target.jsonType) {item : QualifiedName}
    (hitem : item.IsPlain) (bounds : ItemBounds) :
    HelperBodies.IsPlain (vectorBodies target item bounds) := by
  refine ⟨?_, ?_, ?_, ?_, ?_⟩
  · refine List.forall_mem_cons.mpr ⟨⟨isPlain_val, by decide⟩, ?_⟩
    split
    · simp +decide [Block.IsPlain, Stmt.IsPlain, TypeName.IsPlain, Owner.IsPlain, hitem]
    · exact List.forall_mem_nil _
  · refine List.forall_mem_append.mpr
      ⟨forall_mem_statements.mpr (isPlain_sizeChecks bounds isPlain_val), ?_⟩
    simp +decide [Block.IsPlain, Owner.IsPlain, hitem]
  · refine List.forall_mem_append.mpr ⟨forall_mem_statements.mpr (List.forall_mem_cons.mpr
      ⟨⟨⟨isPlain_json, by decide⟩, trivial⟩, isPlain_sizeChecks bounds isPlain_json⟩), ?_⟩
    simp +decide [Block.IsPlain, Owner.IsPlain, hitem]
  · simp +decide [vectorBodies, Stmt.rejectIf, Stmt.accept, Block.IsPlain, Stmt.IsPlain,
      TypeName.IsPlain, Owner.IsPlain, hjson, hitem]
  · simp +decide [vectorBodies, requireArray, Stmt.rejectIf, Stmt.accept, Block.IsPlain,
      Stmt.IsPlain, TypeName.IsPlain, Owner.IsPlain, hitem]

/-- Whether the name of a member and that of its type are plain. -/
structure Member.IsPlain (m : Member) : Prop where
  name : Plain m.name
  type : m.emitted.name.IsPlain

variable {members : List Member}

theorem isPlain_unusedValue (members : List Member) : ∀ s ∈ unusedValue members, s.IsPlain := by
  unfold unusedValue
  split
  · exact List.forall_mem_singleton.mpr (show Plain "val" by decide)
  · exact List.forall_mem_nil _

theorem isPlain_dispatch {action : Member → Stmt} (h : ∀ m ∈ members, (action m).IsPlain) :
    ∀ b ∈ dispatch action members, b.IsPlain := by
  cases members with
  | nil => simp +decide [dispatch, Block.IsPlain, Stmt.IsPlain]
  | cons m rest =>
    obtain ⟨hm, hrest⟩ := List.forall_mem_cons.mp h
    refine List.forall_mem_cons.mpr ⟨⟨⟨isPlain_json, by decide⟩, trivial⟩, ?_⟩
    exact List.forall_mem_cons.mpr ⟨⟨hm, List.forall_mem_map.mpr hrest⟩,
      List.forall_mem_singleton.mpr isPlain_accept⟩

theorem isPlain_classBodies (hjson : Plain target.jsonType) (h : ∀ m ∈ members, Member.IsPlain m) :
    HelperBodies.IsPlain (classBodies target members) := by
  have hfield : fieldValue.IsPlain := ⟨show Plain "it" by decide, by decide⟩
  refine ⟨?_, ?_, ?_, ?_, ?_⟩
  · refine forall_mem_statements.mpr (List.forall_mem_append.mpr ⟨isPlain_unusedValue members, ?_⟩)
    exact List.forall_mem_map.mpr fun m hm => ⟨(h m hm).type, isPlain_val, (h m hm).name⟩
  · refine forall_mem_statements.mpr (isPlain_conjunction (List.forall_mem_map.mpr ?_))
    exact fun m hm => ⟨(h m hm).type, isPlain_val, (h m hm).name⟩
  · exact isPlain_dispatch fun m hm => ⟨⟨(h m hm).type, hfield⟩, trivial⟩
  · refine forall_mem_statements.mpr (List.forall_mem_append.mpr ⟨List.forall_mem_append.mpr
      ⟨isPlain_unusedValue members, ?_⟩, List.forall_mem_singleton.mpr isPlain_accept⟩)
    refine List.forall_mem_cons.mpr ⟨⟨isPlain_json, hjson, by decide⟩, ?_⟩
    refine List.forall_mem_map.mpr fun m hm => ?_
    exact ⟨⟨(h m hm).type, ⟨isPlain_val, (h m hm).name⟩, isPlain_json, trivial⟩, trivial⟩
  · refine List.forall_mem_append.mpr
      ⟨forall_mem_statements.mpr (isPlain_unusedValue members), isPlain_dispatch fun m hm => ?_⟩
    exact ⟨⟨(h m hm).type, hfield, isPlain_val, (h m hm).name⟩, trivial⟩

theorem isPlain_equalityBody (h : ∀ m ∈ members, Member.IsPlain m) :
    ∀ s ∈ equalityBody members, s.IsPlain := by
  have hother : Plain "other" := by decide
  refine List.forall_mem_append.mpr ⟨List.forall_mem_append.mpr ⟨?_, ?_⟩,
    List.forall_mem_singleton.mpr isPlain_accept⟩
  · split
    · exact List.forall_mem_singleton.mpr hother
    · exact List.forall_mem_nil _
  · exact List.forall_mem_map.mpr fun m hm =>
      ⟨⟨⟨isPlain_this, (h m hm).name⟩, hother, (h m hm).name⟩, trivial⟩

theorem isPlain_toStringBody (hjson : Plain target.jsonType) (rawName : String)
    (htype : Plain type) : ∀ s ∈ toStringBody target rawName type, s.IsPlain := by
  simp +decide [toStringBody, Stmt.IsPlain, TypeName.IsPlain, Owner.IsPlain, hjson, htype]

theorem isPlain_fromStringBody (hjson : Plain target.jsonType) (rawName : String)
    (htype : Plain type) : ∀ s ∈ fromStringBody target rawName type, s.IsPlain := by
  simp +decide [fromStringBody, Stmt.rejectIf, Stmt.accept, Stmt.IsPlain, TypeName.IsPlain,
    Owner.IsPlain, hjson, htype]

theorem isPlain_methods (hjson : Plain target.jsonType) (rawName : String) (htype : Plain type)
    (h : ∀ m ∈ members, Member.IsPlain m) :
    ∀ f ∈ methods target rawName type members, f.IsPlain := by
  have hbool : Plain "bool" := by decide
  have hstring : Plain "std::string" := by decide
  have hname : ∀ {name : String}, Plain name → Plain (type ++ name) :=
    fun hname => plain_append.mpr ⟨htype, hname⟩
  have hother : ∀ q ∈ [otherParam type], q.IsPlain :=
    List.forall_mem_singleton.mpr ⟨htype, show Plain "&" by decide, show Plain "other" by decide⟩
  refine List.forall_mem_cons.mpr ⟨?_, List.forall_mem_cons.mpr ⟨?_, List.forall_mem_cons.mpr ⟨?_,
    List.forall_mem_cons.mpr ⟨?_, List.forall_mem_singleton.mpr ?_⟩⟩⟩⟩
  · refine ⟨⟨show Plain "" by decide, ?_, List.forall_mem_nil _⟩, forall_mem_statements.mpr ?_⟩
    · exact plain_append.mpr ⟨hname (by decide), htype⟩
    · exact List.forall_mem_singleton.mpr ⟨htype, isPlain_this⟩
  · exact ⟨⟨hbool, hname (by decide), hother⟩,
      forall_mem_statements.mpr (isPlain_equalityBody h)⟩
  · refine ⟨⟨hbool, hname (by decide), hother⟩, forall_mem_statements.mpr ?_⟩
    exact List.forall_mem_singleton.mpr ⟨isPlain_this, show Plain "other" by decide⟩
  · exact ⟨⟨hstring, hname (by decide), List.forall_mem_nil _⟩,
      forall_mem_statements.mpr (isPlain_toStringBody hjson rawName htype)⟩
  · refine ⟨⟨hbool, hname (by decide), List.forall_mem_cons.mpr ⟨?_, ?_⟩⟩,
      forall_mem_statements.mpr (isPlain_fromStringBody hjson rawName htype)⟩
    · exact ⟨hstring, show Plain "&" by decide, show Plain "text" by decide⟩
    · exact List.forall_mem_singleton.mpr
        ⟨hbool, show Plain "" by decide, show Plain "validate" by decide⟩

theorem isPlain_signatures (hjson : Plain target.jsonType) (htype : Plain type) :
    ∀ s ∈ signatures target type, s.IsPlain := by
  have hbool : Plain "bool" := by decide
  have hval : Plain "val" := by decide
  have hnode : Plain "json" := by decide
  have hpointer : Plain "*" := by decide
  have hreference : Plain "&" := by decide
  have hname := fun h : Helper => h.plain_name htype
  have hinit : (initSignature type).IsPlain :=
    ⟨show Plain "void" by decide, hname .init, List.forall_mem_singleton.mpr ⟨htype, hpointer, hval⟩⟩
  have hvalidate : (validateSignature type).IsPlain :=
    ⟨hbool, hname .validate, List.forall_mem_singleton.mpr ⟨htype, hreference, hval⟩⟩
  have hvalidateJson : (validateJsonSignature target type).IsPlain :=
    ⟨hbool, hname .validate, List.forall_mem_singleton.mpr ⟨hjson, hreference, hnode⟩⟩
  have htoJson : (toJsonSignature target type).IsPlain :=
    ⟨hbool, hname .toJson, List.forall_mem_cons.mpr
      ⟨⟨htype, hreference, hval⟩, List.forall_mem_singleton.mpr ⟨hjson, hpointer, hnode⟩⟩⟩
  have hjsonTo : (jsonToSignature target type).IsPlain :=
    ⟨hbool, hname .jsonTo, List.forall_mem_cons.mpr
      ⟨⟨hjson, hreference, hnode⟩, List.forall_mem_singleton.mpr ⟨htype, hpointer, hval⟩⟩⟩
  simp only [signatures, List.forall_mem_cons]
  exact ⟨hinit, hvalidate, hvalidateJson, htoJson, hjsonTo, List.forall_mem_nil _⟩

theorem isPlain_helperFunctions (hjson : Plain target.jsonType) (htype : Plain type)
    {bodies : HelperBodies} (h : HelperBodies.IsPlain bodies) :
    ∀ f ∈ helperFunctions target type bodies, f.IsPlain := by
  have hsignatures := isPlain_signatures hjson htype
  simp only [signatures, List.forall_mem_cons] at hsignatures
  obtain ⟨hinit, hvalidate, hvalidateJson, htoJson, hjsonTo, -⟩ := hsignatures
  simp only [helperFunctions, List.forall_mem_cons]
  exact ⟨⟨hinit, h.init⟩, ⟨hvalidate, h.validate⟩, ⟨hvalidateJson, h.validateJson⟩,
    ⟨htoJson, h.toJson⟩, ⟨hjsonTo, h.jsonTo⟩, List.forall_mem_nil _⟩

end

/-! ## Names in a schema -/

section

variable {t : Schema} (ht : t.Admissible) {p : Place} (hp : t.Has p)

include ht hp

theorem Schema.Admissible.plain_name : Plain p.name :=
  plain_iff.mpr fun _ hc => isPlainChar_of_isWordChar
    (all_isWordChar_of_isIdentifier (ht.isIdentifier_name hp) hc)

theorem Schema.Admissible.plain_of_mem_classPath {type : String} (h : type ∈ p.classPath) :
    Plain type :=
  plain_iff.mpr fun _ hc => isPlainChar_of_isWordChar
    (isWordChar_of_isAlphanum (ht.isAlphanum_of_mem_classPath hp h hc))

theorem Schema.Admissible.isPlain_type : p.type.IsPlain where
  scope _ hc := ht.plain_of_mem_classPath hp (List.mem_append_left _ hc)
  name := ht.plain_of_mem_classPath hp (List.mem_append_right _ (List.mem_singleton.mpr rfl))

/-- The type that a settled node provides has a plain name, also where it is that of the target of a
reference. -/
theorem Schema.Admissible.isPlain_provided
    (hrefs : EachReferenceIn Reference.IsSettled [] [] t.entries) : p.provided.IsPlain := by
  cases hnode : p.node with
  | reference r =>
    obtain ⟨o, ho, -, htype⟩ := t.exists_target hrefs hp hnode
    have hprovided : p.provided = o.type := by rw [Place.provided, hnode, htype]; rfl
    rw [hprovided]
    exact ht.isPlain_type ho
  | _ =>
    rw [Place.provided_of_not_reference (by rw [hnode]; rfl)]
    exact ht.isPlain_type hp

theorem Schema.Admissible.isPlain_members
    (hrefs : EachReferenceIn Reference.IsSettled [] [] t.entries) {members : List (String × Node)}
    (hnode : p.node = .object members) (target : Target) :
    ∀ m ∈ emitMembers target p.path members, Member.IsPlain m := by
  rw [emitMembers_eq]
  refine List.forall_mem_map.mpr fun m hm => ?_
  have hchild : t.Has ⟨p.path, m.1, m.2⟩ := by
    refine hp.child ?_
    rw [Place.children_object hnode]
    exact mem_placesIn.mpr ⟨m, hm, rfl⟩
  refine ⟨ht.plain_name hchild, ?_⟩
  rw [Node.emit_name]
  exact ht.isPlain_provided hchild hrefs

end

/-! ## Definitions -/

section

variable {target : Target} {t : Schema} (ht : t.Admissible)
  (hrefs : EachReferenceIn Reference.IsSettled [] [] t.entries) (hjson : Plain target.jsonType)

include ht hrefs hjson

theorem isPlain_functions {p : Place} (hp : t.Has p) :
    ∀ f ∈ p.methods target ++
      (p.bodies? target).toList.flatMap (helperFunctions target p.type.name), f.IsPlain := by
  have htype := (ht.isPlain_type hp).name
  have hmethods : ∀ f ∈ p.methods target, f.IsPlain := by
    unfold Place.methods
    split
    · next members hnode =>
      exact isPlain_methods hjson p.name htype (ht.isPlain_members hp hrefs hnode target)
    · exact List.forall_mem_nil _
  have hbodies : ∀ bodies ∈ p.bodies? target, HelperBodies.IsPlain bodies := by
    unfold Place.bodies?
    split
    all_goals
      rintro _ ⟨⟩
    · exact isPlain_aliasBodies htype _ _
    · next members hnode =>
      exact isPlain_classBodies hjson (ht.isPlain_members hp hrefs hnode target)
    · next item bounds hnode =>
      have hitem : t.Has ⟨p.around, itemName p.name, item⟩ := by
        refine hp.child ?_
        rw [Place.children_array hnode]
        exact List.mem_singleton.mpr rfl
      exact isPlain_vectorBodies hjson (ht.isPlain_provided hitem hrefs) bounds
  refine List.forall_mem_append.mpr ⟨hmethods, fun f hf => ?_⟩
  obtain ⟨bodies, hmem, hf⟩ := List.mem_flatMap.mp hf
  exact isPlain_helperFunctions hjson htype (hbodies bodies (Option.mem_toList.mp hmem)) f hf

/-- The definitions in the code of a node are balanced. -/
theorem scansLines_definitions {p : Place} (hp : t.Has p) (depth : Nat) :
    ScansLines depth ((p.node.emit target p.around p.name).fragment.place
      (scopePlacement p.scope)).definitions depth := by
  rw [Place.scope, definitions_eq target p.around p.name p.node]
  refine .flatMap fun q hq => ?_
  have hq' : t.Has q := hp.trans (Node.mem_postorder_iff.mp hq)
  have hscope : Plain (scopePlacement q.scope).scope := by
    rw [scopePlacement_scope]
    exact plain_qualification.mpr (ht.isPlain_type hq').scope
  rw [flatMap_functions_lines, List.map_flatMap]
  exact .flatMap fun f hf =>
    (isPlain_functions ht hrefs hjson hq' f hf).scansLines hscope depth

/-! ## Declarations -/

omit ht hrefs in
theorem plain_prototypes {type : String} (htype : Plain type) {placement : Placement}
    (hscope : Plain placement.scope) (hstorage : Plain placement.storage) :
    ∀ line ∈ (prototypes target type).map (Line.fill placement), Plain line := by
  rw [prototypes, List.map_map]
  exact List.forall_mem_map.mpr fun s hs =>
    (isPlain_signatures hjson htype s hs).plain_prototype hscope hstorage

variable (hnamespaces : ∀ n ∈ target.namespaces, Plain n)

omit ht hrefs hjson in
include hnamespaces in
theorem plain_absolute {q : QualifiedName} (hq : q.IsPlain) : Plain (q.absolute target.namespaces) :=
  plain_append.mpr ⟨plain_append.mpr ⟨by decide, plain_qualification.mpr hnamespaces⟩,
    plain_append.mpr ⟨plain_qualification.mpr hq.scope, hq.name⟩⟩

omit hjson in
include hnamespaces in
/-- Forward declarations and typedefs are plain. -/
theorem plain_forward {p : Place} (hp : t.Has p) (placement : Placement) :
    ∀ line ∈ ((p.node.emit target p.around p.name).fragment.place placement).forward,
      Plain line := by
  induction p using Place.induction with
  | step p ih =>
    have htype := (ht.isPlain_type hp).name
    cases hnode : p.node with
    | scalar s =>
      refine List.forall_mem_singleton.mpr ?_
      rw [Line.fill_ofText]
      exact plain_append.mpr ⟨plain_append.mpr ⟨plain_append.mpr ⟨plain_append.mpr
        ⟨by decide, s.primitive.plain_cppName⟩, by decide⟩, htype⟩, by decide⟩
    | reference r => exact List.forall_mem_nil _
    | object members =>
      refine List.forall_mem_singleton.mpr ?_
      rw [Line.fill_ofText]
      exact plain_append.mpr ⟨plain_append.mpr ⟨by decide, htype⟩, by decide⟩
    | array item bounds =>
      have hitem : ⟨p.around, itemName p.name, item⟩ ∈ p.children := by
        rw [Place.children_array hnode]
        exact List.mem_singleton.mpr rfl
      rw [Node.emit, vectorFragment, Fragment.place_append]
      refine List.forall_mem_append.mpr ⟨ih _ hitem (hp.child hitem), ?_⟩
      refine List.forall_mem_singleton.mpr ?_
      rw [Line.fill_ofText, Node.emit_name]
      have hname := plain_absolute hnamespaces (ht.isPlain_provided (hp.child hitem) hrefs)
      exact plain_append.mpr ⟨plain_append.mpr ⟨plain_append.mpr ⟨plain_append.mpr
        ⟨by decide, hname⟩, by decide⟩, htype⟩, by decide⟩

omit ht hrefs hjson in
theorem plain_methodDeclarations {type : String} (htype : Plain type) :
    ∀ line ∈ methodDeclarations type, Plain line := by
  simp +decide [methodDeclarations, htype]

omit ht hrefs hjson in
include hnamespaces in
theorem plain_dataMembers {type : String} (htype : Plain type) {members : List Member}
    (h : ∀ m ∈ members, Member.IsPlain m) :
    ∀ line ∈ dataMembers target type members, Plain line := by
  refine List.forall_mem_append.mpr ⟨List.forall_mem_map.mpr fun m hm => ?_, ?_⟩
  · exact plain_append.mpr ⟨plain_append.mpr ⟨plain_append.mpr
      ⟨plain_absolute hnamespaces (h m hm).type, by decide⟩, (h m hm).name⟩, by decide⟩
  · simp +decide [htype]

omit ht hrefs hjson in
include hnamespaces in
/-- A class is balanced if what stands in it is. -/
theorem scansLines_classLines {type : String} (htype : Plain type) {members : List Member}
    (h : ∀ m ∈ members, Member.IsPlain m) {placed : List PlacedFragment} (depth : Nat)
    (hforward : ScansLines (depth + 1) (placed.flatMap PlacedFragment.forward) (depth + 1))
    (hdeclarations : ScansLines (depth + 1) (placed.flatMap PlacedFragment.declarations)
      (depth + 1)) :
    ScansLines depth (classLines target type members placed) depth := by
  have plain : ∀ {lines : List String}, (∀ line ∈ lines, Plain line) →
      ScansLines (depth + 1) lines (depth + 1) :=
    fun hlines => .of_forall fun line hline => (hlines line hline).scans _
  have hindent : ∀ {depth depth' : Nat} {line : String}, Scans depth line depth' →
      Scans depth (Code.indent 1 line) depth' := by
    intro depth depth' line hline
    unfold Code.indent
    split
    · next hempty => rwa [hempty] at hline
    · exact (Plain.scans (by decide) depth).append hline
  have hopening : Scans depth ("class " ++ type ++ " \x7b") (depth + 1) :=
    (Plain.scans (plain_append.mpr ⟨by decide, htype⟩) depth).append
      (.of_all (by decide) (by decide) rfl)
  have hclosing : Scans (depth + 1) "\x7d;" depth := .of_all (by decide) (by decide) rfl
  refine .cons hopening (.cons (Plain.scans (by decide) _)
    (.append (.map hindent ?_) (.singleton hclosing)))
  have hempty : ScansLines (depth + 1) [""] (depth + 1) := .singleton (Plain.scans (by decide) _)
  have hgap : ∀ b : Bool, ScansLines (depth + 1) (if b then [] else [""]) (depth + 1) := by
    intro b
    cases b with
    | false => exact hempty
    | true => exact .nil
  exact ((((hforward.append hdeclarations).append (hgap _)).append
    (plain (plain_methodDeclarations htype))).append hempty).append
      (plain (plain_dataMembers hnamespaces htype h))

include hnamespaces in
/-- The declarations in the code of a node are balanced. -/
theorem scansLines_declarations {p : Place} (hp : t.Has p) {placement : Placement}
    (hscope : Plain placement.scope) (hstorage : Plain placement.storage) (depth : Nat) :
    ScansLines depth (p.declarations target placement) depth := by
  induction p using Place.induction generalizing placement depth with
  | step p ih =>
    have htype := ht.isPlain_type hp
    have hprototypes : ScansLines depth
        ((prototypes target p.type.name).map (Line.fill placement)) depth :=
      .of_forall fun line hline =>
        (plain_prototypes hjson htype.name hscope hstorage line hline).scans depth
    cases hnode : p.node with
    | scalar s =>
      rw [Place.declarations_scalar target placement hnode]
      exact hprototypes
    | reference r =>
      rw [Place.declarations_reference target placement hnode]
      exact .nil
    | array item bounds =>
      have hitem : ⟨p.around, itemName p.name, item⟩ ∈ p.children := by
        rw [Place.children_array hnode]
        exact List.mem_singleton.mpr rfl
      rw [Place.declarations_array target placement hnode]
      exact (ih _ hitem (hp.child hitem) hscope hstorage depth).append hprototypes
    | object members =>
      have hmember : Plain (memberPlacement p.type).scope :=
        plain_append.mpr ⟨plain_append.mpr ⟨plain_qualification.mpr htype.scope, htype.name⟩,
          by decide⟩
      rw [Place.declarations_object target placement hnode]
      refine .append (scansLines_classLines hnamespaces htype.name
        (ht.isPlain_members hp hrefs hnode target) depth ?_ ?_) hprototypes
      · rw [placed_flatMap]
        refine .flatMap fun m hm => .of_forall fun line hline => ?_
        have hc : ⟨p.path, m.1, m.2⟩ ∈ p.children := by
          rw [Place.children_object hnode]
          exact mem_placesIn.mpr ⟨m, hm, rfl⟩
        exact (plain_forward ht hrefs hnamespaces (hp.child hc) _ line hline).scans _
      · rw [placed_declarations target hnode]
        exact .flatMap fun c hc =>
          ih c hc (hp.child hc) hmember (show Plain "static " by decide) (depth + 1)

end

/-! ## Units -/

/-- **No text breaks out of its place.** For a JSON type and namespaces that are plain, no line of a
unit holds a control character, a scanner that starts a line in code ends it in code, and the braces
outside of literals balance over the declarations and over the definitions of the unit. The texts in
the schema may be any texts. -/
theorem unit_text_confined {target : Target} {s : Schema} {units : Entries CodeUnit}
    (h : generateUnits target s = .ok units) (hjson : Plain target.jsonType)
    (hnamespaces : ∀ n ∈ target.namespaces, Plain n) :
    ∀ u ∈ units,
      (∀ line ∈ u.2.fragment.forward ++ u.2.fragment.declarations ++ u.2.fragment.definitions,
        (∀ c ∈ line.toList, isControl c = false) ∧ EndsInCode line) ∧
      Balanced u.2.fragment.declarations ∧ Balanced u.2.fragment.definitions := by
  obtain ⟨hs, rfl⟩ := generateUnits_ok_iff.mp h
  obtain ⟨ht, hrefs⟩ := hs.settled
  refine List.forall_mem_map.mpr fun e he => ?_
  have hp : s.settled.Has ⟨[], e.1, e.2⟩ :=
    Schema.has_iff.mpr ⟨_, mem_placesIn.mpr ⟨e, he, rfl⟩, Place.has_self _⟩
  have hforward : ScansLines 0 (unitOf target e).2.fragment.forward 0 :=
    .of_forall fun line hline => (plain_forward ht hrefs hnamespaces hp _ line hline).scans 0
  have hdeclarations : ScansLines 0 (unitOf target e).2.fragment.declarations 0 :=
    scansLines_declarations ht hrefs hjson hnamespaces hp (show Plain "" by decide)
      (show Plain "" by decide) 0
  have hdefinitions : ScansLines 0 (unitOf target e).2.fragment.definitions 0 :=
    scansLines_definitions ht hrefs hjson hp 0
  exact ⟨((hforward.append hdeclarations).append hdefinitions).forall_mem, hdeclarations.balanced,
    hdefinitions.balanced⟩

/-- A schema with a default that tries to break out: it has quotes, braces, backslashes and line
breaks, and a digit behind a control character. -/
def hostileExample : Schema :=
  ⟨[("note", .object
    [("text", .scalar (.string (some "\\\"; \x7d\x7d\n\r// \x7b\x017\\")))])]⟩

/-- The line that assigns the default of `hostileExample`. -/
def hostileLine : String :=
  "  *val = \"\\\\\\\"; \x7d\x7d\\n\\r// \x7b\\0017\\\\\";"

/-- A target with namespaces. -/
def settingsTarget : Target :=
  (Options.default.withNamespaces ["app", "settings"]).target

theorem hostileExample_confined :
    ∃ units, generateUnits settingsTarget hostileExample = .ok units ∧
      ∃ u ∈ units, hostileLine ∈ u.2.fragment.definitions ∧ EndsInCode hostileLine ∧
        Balanced u.2.fragment.declarations ∧ Balanced u.2.fragment.definitions := by
  obtain ⟨units, h⟩ := Schema.generates_of_toBool
    (show (generateUnits settingsTarget hostileExample).toBool = true by decide)
  have hunit : ∃ u ∈ hostileExample.settled.entries.map (unitOf settingsTarget),
      hostileLine ∈ u.2.fragment.definitions := by decide
  obtain ⟨u, hu, hline⟩ := hunit
  rw [← (generateUnits_ok_iff.mp h).2] at hu
  have hnamespaces : ∀ n ∈ settingsTarget.namespaces, Plain n := by decide
  obtain ⟨hlines, hdeclarations, hdefinitions⟩ :=
    unit_text_confined h (show Plain settingsTarget.jsonType by decide) hnamespaces u hu
  exact ⟨units, h, u, hu, hline, (hlines _ (List.mem_append_right _ hline)).2, hdeclarations,
    hdefinitions⟩

end ConfigForge
