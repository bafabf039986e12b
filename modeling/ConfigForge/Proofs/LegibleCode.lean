import ConfigForge.Proofs.LegalNames
import ConfigForge.Proofs.Mentions
import ConfigForge.Proofs.Statements

/-!
# Legible bodies

The bodies of all generated functions say what they are: their names are words, since those of a
schema are identifiers and the fixed ones can be looked at, and brackets stand wherever operators need
them. So the lines of a body can be read back.

Results:

* `isTypeName_typeName`: what the type names of identifiers have in common.
* `legible_aliasBodies`, `legible_vectorBodies`, `legible_classBodies`, `legible_methods`: the bodies of
  all functions are legible.
* `Schema.Admissible.legible_functions`: so are those of the functions of a schema.
-/

namespace ConfigForge

open Code (Line Placement)
open Emit Cpp

/-! ## Type names -/

/-- Whether a text looks like the name of a type: letters and digits, with no small letter in
front. -/
structure IsTypeName (x : String) : Prop where
  alphanum : ∀ c ∈ x.toList, c.isAlphanum = true
  front : x.toList.head?.any (fun c => !c.isLower) = true

/-- The type name of an identifier begins with a capital letter or a digit. -/
theorem isTypeName_typeName {name : String} (h : isIdentifier name = true) :
    IsTypeName (typeName name) := by
  obtain ⟨c, rest, -, hc, hchars⟩ := exists_typeName_eq h
  have hupper : c.toUpper.isLower = false :=
    ascii_forall (P := fun c => c.toUpper.isLower = false) (by decide) (isAlphanum_toNat_lt hc)
  refine ⟨fun d hd => typeName_isAlphanum h hd, ?_⟩
  rw [hchars, List.head?_cons, Option.any_some, hupper]
  rfl

namespace IsTypeName

variable {x : String}

theorem isWord (h : IsTypeName x) : IsWord x := by
  refine ⟨fun hnil => ?_, fun c hc => isWordChar_of_isAlphanum (h.alphanum c hc)⟩
  have hfront := h.front
  rw [hnil] at hfront
  cases hfront

theorem isFree (h : IsTypeName x) : IsFree x :=
  isFree_of_head? h.front (by decide)

theorem of_append {front : String} (hfront : front.toList.all Char.isAlphanum = true)
    (hhead : front.toList.head?.any (fun c => !c.isLower) = true) (h : IsTypeName x) :
    IsTypeName (front ++ x) := by
  refine ⟨?_, any_head?_append hhead x⟩
  rw [String.toList_append, List.forall_mem_append]
  exact ⟨List.all_eq_true.mp hfront, h.alphanum⟩

/-- The helpers of a type are called like types. -/
theorem helper (h : IsTypeName x) (helper : Helper) : IsTypeName (helper.name x) := by
  cases helper with
  | toJson =>
    refine ⟨?_, any_head?_append h.front _⟩
    rw [Helper.name, String.toList_append, List.forall_mem_append]
    exact ⟨h.alphanum, List.all_eq_true.mp (by decide)⟩
  | _ => exact of_append (by decide) (by decide) h

end IsTypeName

/-- Whether all names in a qualified name look like the names of types. -/
def QualifiedName.IsTyped (q : QualifiedName) : Prop :=
  ∀ x ∈ q.scope ++ [q.name], IsTypeName x

namespace QualifiedName.IsTyped

variable {q : QualifiedName}

theorem isPath (h : q.IsTyped) : IsPath q.typePath :=
  ⟨q.scope, q.name, fun x hx => ⟨(h x hx).isWord, (h x hx).isFree⟩, rfl⟩

/-- A path begins like its first name. -/
theorem front (h : q.IsTyped) : q.typePath.toList.head?.any (fun c => !c.isLower) = true := by
  obtain ⟨hscope, hname⟩ := List.forall_mem_append.mp h
  rw [typePath, scopeText]
  cases hnames : q.scope with
  | nil =>
    rw [qualification, String.empty_append]
    exact (hname q.name (List.mem_singleton.mpr rfl)).front
  | cons first rest =>
    rw [qualification, String.append_assoc, String.append_assoc]
    exact any_head?_append (hscope first (hnames ▸ List.mem_cons_self)).front _

theorem isPath_helper (h : q.IsTyped) (helper : Helper) : IsPath (q.helper helper) := by
  obtain ⟨hscope, hname⟩ := List.forall_mem_append.mp h
  have hhelper := (hname q.name (List.mem_singleton.mpr rfl)).helper helper
  refine ⟨q.scope, helper.name q.name, List.forall_mem_append.mpr ⟨fun x hx => ?_, ?_⟩, rfl⟩
  · exact ⟨(hscope x hx).isWord, (hscope x hx).isFree⟩
  · exact List.forall_mem_singleton.mpr ⟨hhelper.isWord, hhelper.isFree⟩

/-- Only letters, digits and colons stand in the name of a helper. -/
theorem not_mem_helper (h : q.IsTyped) (helper : Helper) {c : Char} (hcolon : c ≠ ':')
    (hc : c.isAlphanum = false) : c ∉ (q.helper helper).toList := by
  obtain ⟨hscope, hname⟩ := List.forall_mem_append.mp h
  have hnot : ∀ {x : String}, IsTypeName x → c ∉ x.toList := fun hx hmem =>
    Bool.false_ne_true (hc.symm.trans (hx.alphanum c hmem))
  rw [QualifiedName.helper, QualifiedName.scopeText, String.toList_append, List.mem_append, not_or]
  exact ⟨not_mem_qualification hcolon fun x hx => hnot (hscope x hx),
    hnot ((hname q.name (List.mem_singleton.mpr rfl)).helper helper)⟩

/-- Types with the same name for a helper are the same. -/
theorem eq_of_helper_eq {r : QualifiedName} (h : q.IsTyped) (h' : r.IsTyped) {helper : Helper}
    (heq : q.helper helper = r.helper helper) : q = r := by
  have hnames : ∀ {q : QualifiedName}, q.IsTyped →
      pathNames (q.helper helper) = q.scope ++ [helper.name q.name] := by
    intro q h
    obtain ⟨hscope, hname⟩ := List.forall_mem_append.mp h
    have hhelper := (hname q.name (List.mem_singleton.mpr rfl)).helper helper
    refine (reads_qualification (List.forall_mem_append.mpr ⟨fun x hx => ?_, ?_⟩)).2.1
    · exact ⟨(hscope x hx).isWord, (hscope x hx).isFree⟩
    · exact List.forall_mem_singleton.mpr ⟨hhelper.isWord, hhelper.isFree⟩
  have hparts := (hnames h).symm.trans ((congrArg pathNames heq).trans (hnames h'))
  obtain ⟨hscope, hlast⟩ := List.append_inj' hparts rfl
  have hname := (List.cons.inj hlast).1
  obtain ⟨scope, name⟩ := q
  obtain ⟨scope', name'⟩ := r
  obtain rfl : scope = scope' := hscope
  have hcancel : name = name' := by
    cases helper <;> simpa [Helper.name] using hname
  rw [hcancel]

end QualifiedName.IsTyped

/-! ## Owners -/

/-- Whether the type and the helpers of an owner are paths where they are written. -/
structure Cpp.Owner.Legible (p : Placement) (owner : Owner) : Prop where
  type : IsPath (owner.typeLine.fill p)
  helper : ∀ h, IsPath ((owner.helperLine h).fill p)

theorem QualifiedName.IsTyped.legible_named {q : QualifiedName} (h : q.IsTyped) (p : Placement) :
    (Owner.named q).Legible p := by
  refine ⟨?_, fun helper => ?_⟩
  · rw [Owner.typeLine, Line.fill_ofText]
    exact h.isPath
  · rw [Owner.helperLine, Line.fill_ofText]
    exact h.isPath_helper helper

theorem QualifiedName.IsTyped.legible_here {q : QualifiedName} (h : q.IsTyped) :
    (Owner.here q.name).Legible (scopePlacement q.scope) := by
  refine ⟨?_, fun helper => ?_⟩
  · rw [Owner.typeLine, Line.fill_append, Line.fill_ofText, Line.fill_ofSlot, Placement.value,
      scopePlacement_scope]
    exact h.isPath
  · rw [Owner.helperLine, Line.fill_append, Line.fill_ofText, Line.fill_ofSlot, Placement.value,
      scopePlacement_scope]
    exact h.isPath_helper helper

/-! ## Expressions -/

section

variable {p : Placement} {target : Target}

theorem legible_val : Expr.val.Legible p :=
  show IsName "val" by decide

theorem legible_json : Expr.json.Legible p :=
  show IsName "json" by decide

theorem legible_this : Expr.this.Legible p :=
  show IsName "this" by decide

theorem legible_element : element.Legible p :=
  show IsName "element" by decide

theorem legible_position : position.Legible p :=
  show IsName "i" by decide

theorem legible_ask {name question : String} (hname : IsName name) (h : IsName question) :
    ((Expr.var name).ask question).Legible p :=
  ⟨⟨hname, rfl, rfl, h⟩, rfl⟩

theorem legible_callHelper {h : Helper} {owner : Owner} {e : Expr} (howner : owner.Legible p)
    (he : e.Legible p) : (Expr.callHelper h owner e).Legible p :=
  ⟨⟨howner.helper h, he⟩, rfl⟩

theorem legible_rejectIf {e : Expr} (h : e.Legible p) : (Stmt.rejectIf e).Legible p :=
  ⟨h, trivial⟩

/-- The rejection of what a helper does not accept. -/
theorem legible_rejectUnless {h : Helper} {owner : Owner} {e : Expr} (howner : owner.Legible p)
    (he : e.Legible p) : (Stmt.rejectIf (.not (.callHelper h owner e))).Legible p :=
  legible_rejectIf ⟨legible_callHelper howner he, rfl⟩

theorem legible_requireTag {name tag : String} (hname : IsName name) (h : IsName tag) :
    (Stmt.rejectIf (.not ((Expr.var name).ask tag))).Legible p :=
  legible_rejectIf ⟨legible_ask hname h, rfl⟩

theorem legible_jsonAs {t : TypeName} (h : IsPath (t.line.fill p)) : (Expr.jsonAs t).Legible p :=
  ⟨⟨⟨legible_json, rfl, rfl, by decide⟩, rfl, rfl, rfl, h⟩, rfl⟩

theorem unaryLevel_le_literalLevel (text : String) : unaryLevel ≤ literalLevel text := by
  rw [literalLevel]
  split_ifs <;> decide

/-- An operator binds less than a literal. -/
theorem level_lt_literalLevel (op : Operator) (text : String) : op.level < literalLevel text :=
  Nat.lt_of_lt_of_le op.level_lt (unaryLevel_le_literalLevel text)

theorem level_le_closedLevel (op : Operator) : op.level ≤ closedLevel :=
  Nat.le_trans (Nat.le_of_lt op.level_lt) (by decide)

theorem legible_conjunction {conditions : List Expr}
    (h : ∀ e ∈ conditions, e.Legible p ∧ e.level = closedLevel) :
    ∀ s ∈ conjunction conditions, s.Legible p := by
  have hresult : IsName "result" := by decide
  unfold conjunction
  split
  · exact List.forall_mem_cons.mpr
      ⟨show IsName "val" by decide, List.forall_mem_singleton.mpr trivial⟩
  · refine List.forall_mem_cons.mpr ⟨⟨?_, hresult.word, trivial⟩, ?_⟩
    · exact ⟨[], "bool", by decide, by rw [TypeName.line, Line.fill_ofText]; rfl⟩
    refine List.forall_mem_append.mpr ⟨List.forall_mem_map.mpr fun e he => ?_,
      List.forall_mem_singleton.mpr hresult⟩
    obtain ⟨hlegible, hlevel⟩ := h e he
    refine ⟨hresult, Expr.legible_binary (by decide) hresult hlegible (by decide) ?_⟩
    rw [hlevel]
    decide

/-! ## Scalars -/

theorem Primitive.isPath_cppName (type : Primitive) : IsPath type.cppName := by
  have hword : ∀ name : String, IsWord name ∧ IsFree name → IsPath name := fun name h =>
    ⟨[], name, List.forall_mem_singleton.mpr h, by rw [qualification, String.empty_append]⟩
  cases type with
  | integer signed width => cases signed <;> cases width <;> exact hword _ (by decide)
  | string => exact ⟨["std"], "string", by decide, by decide⟩
  | _ => exact hword _ (by decide)

theorem legible_jsonAsInteger (type : Primitive) : (jsonAsInteger type).Legible p := by
  refine legible_jsonAs ?_
  rw [TypeName.line, Line.fill_ofText]
  exact type.isPath_cppName

/-- A comparison of a JSON integer with a literal. -/
theorem legible_jsonComparison (op : BinaryOp) (type : Primitive) (v : Int) :
    (Expr.binary op (jsonAsInteger type) (.integer v type)).Legible p :=
  ⟨⟨legible_jsonAsInteger type, trivial⟩, level_le_closedLevel _, level_lt_literalLevel _ _,
    fun _ => ⟨rfl, rfl⟩⟩

theorem legible_isUnsigned : jsonIsUnsigned.Legible p :=
  legible_ask (by decide) (by decide)

theorem legible_unsignedCheck (range : IntRange) : ∀ s ∈ unsignedCheck range, s.Legible p := by
  unfold unsignedCheck
  split
  · have hlevel : (Operator.op .and).level < (Operator.op .gt).level := by decide
    exact List.forall_mem_singleton.mpr (legible_rejectIf (Expr.legible_binary (by decide)
      legible_isUnsigned (legible_jsonComparison .gt _ _) (by decide) hlevel))
  · exact List.forall_mem_nil _

theorem legible_signedTests (range : IntRange) :
    ∀ e ∈ signedTests range, e.Legible p ∧ (Operator.op .or).level < e.level := by
  have hlt : (Operator.op .or).level < (Operator.op .lt).level := by decide
  have hgt : (Operator.op .or).level < (Operator.op .gt).level := by decide
  unfold signedTests
  refine List.forall_mem_append.mpr ⟨?_, ?_⟩
  · split
    · exact List.forall_mem_singleton.mpr ⟨legible_jsonComparison _ _ _, hlt⟩
    · exact List.forall_mem_nil _
  · split
    · exact List.forall_mem_singleton.mpr ⟨legible_jsonComparison _ _ _, hgt⟩
    · exact List.forall_mem_nil _

/-- Alternatives in a row need no brackets. -/
theorem legible_foldl_or {tests : List Expr}
    (h : ∀ e ∈ tests, e.Legible p ∧ (Operator.op .or).level < e.level) {e : Expr}
    (he : e.Legible p) (hlevel : (Operator.op .or).level ≤ e.level) :
    (tests.foldl (fun e t => .binary .or e t) e).Legible p := by
  induction tests generalizing e with
  | nil => exact he
  | cons t rest ih =>
    obtain ⟨ht, hrest⟩ := List.forall_mem_cons.mp h
    exact ih hrest (Expr.legible_binary (by decide) he ht.1 hlevel ht.2) (Nat.le_refl _)

theorem legible_signedCheck (range : IntRange) : ∀ s ∈ signedCheck range, s.Legible p := by
  have htests := legible_signedTests (p := p) range
  unfold signedCheck
  split
  · exact List.forall_mem_nil _
  · next test tests heq =>
    rw [heq] at htests
    obtain ⟨htest, hrest⟩ := List.forall_mem_cons.mp htests
    have hlevel : (Operator.op .and).level < closedLevel := by decide
    exact List.forall_mem_singleton.mpr (legible_rejectIf (Expr.legible_binary (by decide)
      ⟨legible_isUnsigned, rfl⟩ (legible_foldl_or hrest htest.1 (Nat.le_of_lt htest.2))
      (by decide) hlevel))

theorem legible_typeCheck (type : Primitive) : ∀ s ∈ typeCheck type, s.Legible p := by
  have htag : ∀ tag, IsName tag → (Stmt.rejectIf (.not (Expr.json.ask tag))).Legible p :=
    fun tag h => legible_requireTag (by decide) h
  cases type with
  | bool => exact List.forall_mem_singleton.mpr (htag _ (by decide))
  | string => exact List.forall_mem_singleton.mpr (htag _ (by decide))
  | double => exact List.forall_mem_singleton.mpr (htag _ (by decide))
  | integer signed width =>
    exact List.forall_mem_cons.mpr ⟨htag _ (by decide),
      List.forall_mem_append.mpr ⟨legible_unsignedCheck _, legible_signedCheck _⟩⟩

theorem legible_initialValue (s : Scalar) (type : Primitive) : (initialValue s type).Legible p := by
  cases s with
  | string value =>
    rw [initialValue, textValue]
    split
    · refine ⟨⟨?_, ⟨trivial, trivial⟩, ?_⟩, rfl⟩
      · exact ⟨["std"], "string", by decide, by rw [TypeName.line, Line.fill_ofText]; rfl⟩
      · exact Nat.zero_lt_succ _
    · trivial
  | _ => trivial

theorem legible_boundTests (s : Scalar) (type : Primitive) :
    ∀ e ∈ boundTests s type, e.Legible p := by
  have hbound : ∀ (op : BinaryOp) (e : Expr), op ≠ .lt → e.Legible p →
      (Operator.op op).level < e.level → (Expr.binary op .val e).Legible p :=
    fun op e hop he hlevel =>
      Expr.legible_binary hop legible_val he (level_le_closedLevel _) hlevel
  cases s with
  | integer limits =>
    exact List.forall_mem_append.mpr
      ⟨forall_mem_toList_map (fun m => hbound .ge (.integer m type) (by decide) trivial
          (level_lt_literalLevel _ _)) _,
        forall_mem_toList_map (fun m => hbound .le (.integer m type) (by decide) trivial
          (level_lt_literalLevel _ _)) _⟩
  | number limits =>
    exact List.forall_mem_append.mpr
      ⟨forall_mem_toList_map (fun m => hbound .ge (.double m) (by decide) trivial
          (level_lt_literalLevel _ _)) _,
        forall_mem_toList_map (fun m => hbound .le (.double m) (by decide) trivial
          (level_lt_literalLevel _ _)) _⟩
  | bool value => exact List.forall_mem_nil _
  | string value => exact List.forall_mem_nil _

/-- Whether the bodies of the helpers that work on values are legible. -/
structure HelperBodies.ValuesLegible (p : Placement) (bodies : HelperBodies) : Prop where
  init : ∀ b ∈ bodies.init, b.Legible p
  validate : ∀ b ∈ bodies.validate, b.Legible p

/-- Whether the bodies of the helpers are legible. -/
structure HelperBodies.Legible (p : Placement) (bodies : HelperBodies) : Prop extends
    HelperBodies.ValuesLegible p bodies where
  validateJson : ∀ b ∈ bodies.validateJson, b.Legible p
  toJson : ∀ b ∈ bodies.toJson, b.Legible p
  jsonTo : ∀ b ∈ bodies.jsonTo, b.Legible p

/-- What holds in the body of every helper. -/
theorem forall_mem_helperFunctions {type : String} {bodies : HelperBodies} {P : Block → Prop}
    (hinit : ∀ b ∈ bodies.init, P b) (hvalidate : ∀ b ∈ bodies.validate, P b)
    (hvalidateJson : ∀ b ∈ bodies.validateJson, P b) (htoJson : ∀ b ∈ bodies.toJson, P b)
    (hjsonTo : ∀ b ∈ bodies.jsonTo, P b) :
    ∀ f ∈ helperFunctions target type bodies, ∀ b ∈ f.body, P b := by
  simp only [helperFunctions, List.forall_mem_cons]
  exact ⟨hinit, hvalidate, hvalidateJson, htoJson, hjsonTo, List.forall_mem_nil _⟩

theorem forall_mem_statements_legible {stmts : List Stmt} :
    (∀ b ∈ statements stmts, b.Legible p) ↔ ∀ s ∈ stmts, s.Legible p :=
  List.forall_mem_map

theorem legible_aliasBodies {type : String} (htype : (Owner.here type).Legible p) (s : Scalar)
    (primitive : Primitive) : HelperBodies.Legible p (aliasBodies type s primitive) := by
  have hval : (Expr.deref .val).Legible p := ⟨legible_val, rfl⟩
  have hjson : (Expr.jsonAs (.owned (.here type))).Legible p := legible_jsonAs htype.type
  refine ⟨⟨?_, ?_⟩, ?_, ?_, ?_⟩
  · exact forall_mem_statements_legible.mpr
      (List.forall_mem_singleton.mpr ⟨hval, legible_initialValue s primitive⟩)
  · refine forall_mem_statements_legible.mpr (legible_conjunction (List.forall_mem_map.mpr ?_))
    exact fun e he => ⟨legible_boundTests s primitive e he, rfl⟩
  · refine forall_mem_statements_legible.mpr (List.forall_mem_append.mpr
      ⟨legible_typeCheck _, List.forall_mem_singleton.mpr ?_⟩)
    exact legible_callHelper htype hjson
  · exact forall_mem_statements_legible.mpr (List.forall_mem_cons.mpr
      ⟨⟨⟨legible_json, rfl⟩, legible_val⟩, List.forall_mem_singleton.mpr trivial⟩)
  · refine forall_mem_statements_legible.mpr (List.forall_mem_append.mpr ⟨legible_typeCheck _, ?_⟩)
    exact List.forall_mem_cons.mpr ⟨⟨hval, hjson⟩, List.forall_mem_singleton.mpr trivial⟩

/-! ## Arrays -/

theorem legible_sizeChecks (bounds : ItemBounds) {name : String} (h : IsName name) :
    ∀ s ∈ sizeChecks bounds (.var name), s.Legible p := by
  have hsize : ((Expr.var name).ask "size").Legible p := legible_ask h (by decide)
  refine List.forall_mem_append.mpr ⟨forall_mem_toList_map (fun n => ?_) _,
    forall_mem_toList_map (fun n => ?_) _⟩
  · exact legible_rejectIf ⟨⟨hsize, trivial⟩, level_le_closedLevel _,
      show (Operator.op .lt).level < closedLevel by decide, fun _ => ⟨rfl, rfl⟩⟩
  · exact legible_rejectIf (Expr.legible_binary (by decide) hsize trivial (level_le_closedLevel _)
      (show (Operator.op .gt).level < closedLevel by decide))

/-- The condition of a loop up to a closed expression. -/
theorem legible_countCondition {bound : Expr} (h : bound.Legible p)
    (hlevel : bound.level = closedLevel) : (Block.countCondition bound).Legible p := by
  refine ⟨⟨show IsName "i" by decide, h⟩, level_le_closedLevel _, ?_, fun _ => ⟨rfl, rfl⟩⟩
  rw [hlevel]
  decide

theorem legible_address_element : (Expr.address element).Legible p :=
  ⟨legible_element, rfl⟩

/-- An item of a vector behind a pointer. -/
theorem legible_itemOfPointer : (Expr.index (.paren (.deref .val)) position).Legible p :=
  ⟨⟨⟨legible_val, rfl⟩, legible_position⟩, rfl⟩

theorem valuesLegible_vectorBodies {item : QualifiedName} (hitem : item.IsTyped)
    (bounds : ItemBounds) : HelperBodies.ValuesLegible p (vectorBodies target item bounds) := by
  have howner := hitem.legible_named p
  have hsize : (Expr.val.ask "size").Legible p := legible_ask (by decide) (by decide)
  constructor
  · refine List.forall_mem_cons.mpr ⟨⟨⟨legible_val, rfl, rfl, by decide⟩, rfl⟩, ?_⟩
    split
    · refine List.forall_mem_singleton.mpr ⟨legible_countCondition trivial rfl, ?_⟩
      refine List.forall_mem_cons.mpr ⟨⟨howner.type, by decide, howner.type, rfl⟩,
        List.forall_mem_cons.mpr ⟨?_, List.forall_mem_singleton.mpr ?_⟩⟩
      · exact legible_callHelper howner legible_address_element
      · exact ⟨⟨⟨legible_val, rfl, rfl, by decide⟩, legible_element⟩, rfl⟩
    · exact List.forall_mem_nil _
  · refine List.forall_mem_append.mpr
      ⟨forall_mem_statements_legible.mpr (legible_sizeChecks bounds (by decide)),
        List.forall_mem_cons.mpr ⟨⟨legible_countCondition hsize rfl, ?_⟩,
          List.forall_mem_singleton.mpr trivial⟩⟩
    exact List.forall_mem_singleton.mpr
      (legible_rejectUnless howner ⟨⟨legible_val, legible_position⟩, rfl⟩)

theorem legible_vectorBodies (hjson : IsPath target.jsonType) {item : QualifiedName}
    (hitem : item.IsTyped) (bounds : ItemBounds) :
    HelperBodies.Legible p (vectorBodies target item bounds) := by
  have howner := hitem.legible_named p
  have hpath : IsPath ((TypeName.plain target.jsonType).line.fill p) := by
    rw [TypeName.line, Line.fill_ofText]
    exact hjson
  have harray : requireArray.Legible p := legible_requireTag (by decide) (by decide)
  have hsize : ∀ {name : String}, IsName name → ((Expr.var name).ask "size").Legible p :=
    fun h => legible_ask h (by decide)
  have hcomma : ∀ {e : Expr}, e.Legible p → (Expr.comma e (.address element)).Legible p :=
    fun he => ⟨⟨he, legible_address_element⟩, Nat.zero_lt_succ _⟩
  refine ⟨valuesLegible_vectorBodies hitem bounds, ?_, ?_, ?_⟩
  · refine List.forall_mem_append.mpr ⟨forall_mem_statements_legible.mpr (List.forall_mem_cons.mpr
      ⟨harray, legible_sizeChecks bounds (by decide)⟩), ?_⟩
    refine List.forall_mem_cons.mpr ⟨List.forall_mem_singleton.mpr ?_,
      List.forall_mem_singleton.mpr trivial⟩
    exact legible_rejectUnless howner legible_element
  · refine List.forall_mem_cons.mpr ⟨⟨⟨legible_json, rfl⟩, ⟨hpath, by decide⟩, rfl⟩,
      List.forall_mem_cons.mpr ⟨⟨legible_countCondition (hsize (by decide)) rfl, ?_⟩,
        List.forall_mem_singleton.mpr trivial⟩⟩
    refine List.forall_mem_cons.mpr ⟨⟨hpath, by decide⟩,
      List.forall_mem_cons.mpr ⟨?_, List.forall_mem_singleton.mpr ?_⟩⟩
    · exact legible_rejectUnless howner (hcomma ⟨⟨legible_val, legible_position⟩, rfl⟩)
    · exact ⟨⟨⟨legible_json, rfl, rfl, by decide⟩, legible_element⟩, rfl⟩
  · refine List.forall_mem_cons.mpr ⟨harray, List.forall_mem_cons.mpr
      ⟨⟨⟨⟨legible_val, rfl, rfl, by decide⟩, hsize (by decide)⟩, rfl⟩, List.forall_mem_cons.mpr
        ⟨⟨legible_countCondition (hsize (by decide)) rfl, ?_⟩,
          List.forall_mem_singleton.mpr trivial⟩⟩⟩
    refine List.forall_mem_cons.mpr ⟨⟨howner.type, by decide, legible_itemOfPointer⟩,
      List.forall_mem_cons.mpr ⟨?_, List.forall_mem_singleton.mpr
        ⟨legible_itemOfPointer, legible_element⟩⟩⟩
    exact legible_rejectUnless howner (hcomma ⟨⟨legible_json, legible_position⟩, rfl⟩)

/-! ## Objects -/

/-- Whether a member has a name that can be read back, and a type with such names. -/
structure Member.Legible (m : Member) : Prop where
  name : IsName m.name
  type : m.emitted.name.IsTyped

variable {members : List Member}

theorem legible_unusedValue (members : List Member) : ∀ s ∈ unusedValue members, s.Legible p := by
  unfold unusedValue
  split
  · exact List.forall_mem_singleton.mpr (show IsName "val" by decide)
  · exact List.forall_mem_nil _

theorem legible_dispatch {action : Member → Stmt} (h : ∀ m ∈ members, (action m).Legible p) :
    ∀ b ∈ dispatch action members, b.Legible p := by
  have hjson : IsName "json" := by decide
  cases members with
  | nil =>
    exact List.forall_mem_singleton.mpr (Expr.legible_binary (by decide)
      (legible_ask hjson (by decide)) (legible_ask hjson (by decide)) (by decide) (by decide))
  | cons m rest =>
    refine List.forall_mem_cons.mpr ⟨legible_requireTag hjson (by decide),
      List.forall_mem_cons.mpr ⟨?_, List.forall_mem_singleton.mpr trivial⟩⟩
    obtain ⟨hm, hrest⟩ := List.forall_mem_cons.mp h
    exact List.forall_mem_cons.mpr ⟨hm, List.forall_mem_map.mpr hrest⟩

namespace Member.Legible

variable {m : Member}

theorem ofValue (h : Member.Legible m) : m.ofValue.Legible p :=
  ⟨legible_val, rfl, rfl, h.name⟩

theorem pointer (h : Member.Legible m) : m.pointer.Legible p :=
  ⟨⟨legible_val, rfl, rfl, h.name⟩, rfl⟩

theorem owner (h : Member.Legible m) : m.owner.Legible p :=
  h.type.legible_named p

end Member.Legible

theorem valuesLegible_classBodies (h : ∀ m ∈ members, Member.Legible m) :
    HelperBodies.ValuesLegible p (classBodies target members) := by
  constructor
  · refine forall_mem_statements_legible.mpr (List.forall_mem_append.mpr
      ⟨legible_unusedValue members, List.forall_mem_map.mpr fun m hm => ?_⟩)
    exact legible_callHelper (h m hm).owner (h m hm).pointer
  · refine forall_mem_statements_legible.mpr (legible_conjunction (List.forall_mem_map.mpr ?_))
    exact fun m hm => ⟨legible_callHelper (h m hm).owner (h m hm).ofValue, rfl⟩

theorem legible_classBodies (hjson : IsPath target.jsonType) (h : ∀ m ∈ members, Member.Legible m) :
    HelperBodies.Legible p (classBodies target members) := by
  have hfield : fieldValue.Legible p := legible_ask (by decide) (by decide)
  have hpath : IsPath ((TypeName.plain target.jsonType).line.fill p) := by
    rw [TypeName.line, Line.fill_ofText]
    exact hjson
  refine ⟨valuesLegible_classBodies h, ?_, ?_, ?_⟩
  · exact legible_dispatch fun m hm => legible_rejectUnless (h m hm).owner hfield
  · refine forall_mem_statements_legible.mpr (List.forall_mem_append.mpr
      ⟨List.forall_mem_append.mpr ⟨legible_unusedValue members, List.forall_mem_cons.mpr
        ⟨⟨⟨legible_json, rfl⟩, ⟨hpath, by decide⟩, rfl⟩, List.forall_mem_map.mpr fun m hm => ?_⟩⟩,
        List.forall_mem_singleton.mpr trivial⟩)
    exact legible_rejectUnless (h m hm).owner ⟨⟨(h m hm).ofValue,
      ⟨⟨⟨legible_json, rfl⟩, trivial⟩, rfl⟩, rfl⟩, Nat.zero_lt_succ _⟩
  · refine List.forall_mem_append.mpr
      ⟨forall_mem_statements_legible.mpr (legible_unusedValue members), legible_dispatch ?_⟩
    exact fun m hm => legible_rejectUnless (h m hm).owner
      ⟨⟨hfield, (h m hm).pointer⟩, Nat.zero_lt_succ _⟩

/-! ## Methods -/

theorem legible_equalityBody (h : ∀ m ∈ members, Member.Legible m) :
    ∀ s ∈ equalityBody members, s.Legible p := by
  have hother : IsName "other" := by decide
  refine List.forall_mem_append.mpr ⟨List.forall_mem_append.mpr ⟨?_, List.forall_mem_map.mpr ?_⟩,
    List.forall_mem_singleton.mpr trivial⟩
  · split
    · exact List.forall_mem_singleton.mpr hother
    · exact List.forall_mem_nil _
  · intro m hm
    exact legible_rejectIf (Expr.legible_binary (by decide)
      ⟨legible_this, rfl, rfl, (h m hm).name⟩ ⟨hother, rfl, rfl, (h m hm).name⟩
      (level_le_closedLevel _) (show (Operator.op .ne).level < closedLevel by decide))

section

variable {type : String} (htype : (Owner.here type).Legible p)
  (hjson : IsPath ((TypeName.plain target.jsonType).line.fill p))

include htype hjson

theorem legible_toStringBody (rawName : String) :
    ∀ s ∈ toStringBody target rawName type, s.Legible p := by
  have hstring : IsPath ((TypeName.plain "std::string").line.fill p) :=
    ⟨["std"], "string", by decide, by rw [TypeName.line, Line.fill_ofText]; rfl⟩
  refine List.forall_mem_cons.mpr ⟨⟨hjson, by decide, ⟨hjson, by decide⟩, rfl⟩,
    List.forall_mem_cons.mpr ⟨⟨⟨legible_callHelper htype ?_, rfl⟩, hstring, rfl⟩,
      List.forall_mem_singleton.mpr (legible_ask (by decide) (by decide))⟩⟩
  exact ⟨⟨⟨legible_this, rfl⟩, ⟨⟨legible_json, trivial⟩, rfl⟩, rfl⟩, Nat.zero_lt_succ _⟩

theorem legible_fromStringBody (rawName : String) :
    ∀ s ∈ fromStringBody target rawName type, s.Legible p := by
  have hname : ∀ {name : String}, IsName name → (Expr.var name).Legible p := fun h => h
  have hask : ∀ {question : String}, IsName question → (Expr.json.ask question).Legible p :=
    fun h => legible_ask (by decide) h
  have hauto : IsPath ((TypeName.plain "auto").line.fill p) :=
    ⟨[], "auto", by decide, by rw [TypeName.line, Line.fill_ofText]; rfl⟩
  have hit : (Expr.deref (.var "it")).Legible p := ⟨hname (by decide), rfl⟩
  have hupdated : (Expr.var "updated").Legible p := hname (by decide)
  have hvalidate : (Expr.var "validate").Legible p := hname (by decide)
  have hand : (Operator.op .and).level < unaryLevel := by decide
  refine List.forall_mem_cons.mpr ⟨?_, List.forall_mem_cons.mpr ⟨?_, List.forall_mem_cons.mpr ⟨?_,
    List.forall_mem_cons.mpr ⟨?_, List.forall_mem_cons.mpr ⟨?_, List.forall_mem_cons.mpr ⟨?_,
      List.forall_mem_cons.mpr ⟨?_, List.forall_mem_cons.mpr ⟨?_, List.forall_mem_cons.mpr ⟨?_,
        List.forall_mem_cons.mpr ⟨?_, List.forall_mem_singleton.mpr trivial⟩⟩⟩⟩⟩⟩⟩⟩⟩⟩
  · exact ⟨hjson, by decide, ⟨⟨hjson, by decide⟩, ⟨⟨⟨hname (by decide), hname (by decide)⟩,
      by decide⟩, trivial⟩, by decide⟩, rfl⟩
  · refine legible_rejectIf (Expr.legible_binary (by decide)
      (Expr.legible_binary (by decide) ?_ ⟨?_, rfl⟩ (by decide) (by decide))
      (Expr.legible_binary (by decide) ?_ trivial (by decide) (by decide)) (by decide) (by decide))
    all_goals exact hask (by decide)
  · exact ⟨hauto, by decide, ⟨⟨legible_json, rfl, rfl, by decide⟩, trivial⟩, rfl⟩
  · exact legible_rejectIf (Expr.legible_binary (by decide) (hname (by decide))
      (hask (by decide)) (by decide) (by decide))
  · exact legible_rejectIf (Expr.legible_binary (by decide) hvalidate
      ⟨legible_callHelper htype hit, rfl⟩ (by decide) hand)
  · exact ⟨htype.type, by decide, legible_this, rfl⟩
  · exact legible_rejectUnless htype ⟨⟨hit, hupdated, rfl⟩, Nat.zero_lt_succ _⟩
  · exact legible_rejectIf (Expr.legible_binary (by decide) hvalidate
      ⟨legible_callHelper htype hupdated, rfl⟩ (by decide) hand)
  · exact legible_rejectIf (Expr.legible_binary (by decide) (hname (by decide))
      ⟨⟨⟨hname (by decide), ⟨⟨legible_this, rfl⟩, hupdated⟩, by decide⟩, rfl⟩, rfl⟩ (by decide) hand)
  · exact ⟨⟨legible_this, rfl⟩, hupdated⟩

theorem legible_methods (rawName : String) (h : ∀ m ∈ members, Member.Legible m) :
    ∀ f ∈ methods target rawName type members, ∀ b ∈ f.body, b.Legible p := by
  have hother : IsName "other" := by decide
  refine List.forall_mem_cons.mpr ⟨?_, List.forall_mem_cons.mpr ⟨?_, List.forall_mem_cons.mpr ⟨?_,
    List.forall_mem_cons.mpr ⟨?_, List.forall_mem_singleton.mpr ?_⟩⟩⟩⟩
  · exact forall_mem_statements_legible.mpr
      (List.forall_mem_singleton.mpr (legible_callHelper htype legible_this))
  · exact forall_mem_statements_legible.mpr (legible_equalityBody h)
  · exact forall_mem_statements_legible.mpr (List.forall_mem_singleton.mpr
      ⟨Expr.legible_binary (by decide) ⟨legible_this, rfl⟩ hother (by decide) (by decide), rfl⟩)
  · exact forall_mem_statements_legible.mpr (legible_toStringBody htype hjson rawName)
  · exact forall_mem_statements_legible.mpr (legible_fromStringBody htype hjson rawName)

end

end

/-! ## Names in a schema -/

/-- Names that are made of type names. -/
theorem isTyped_of_path {around : List String} {name : String}
    (h : ∀ n ∈ around ++ [name], isIdentifier n = true) :
    (⟨around.map typeName, typeName name⟩ : QualifiedName).IsTyped := by
  intro x hx
  have hmap : around.map typeName ++ [typeName name] = (around ++ [name]).map typeName := by
    rw [List.map_append, List.map_singleton]
  rw [hmap] at hx
  obtain ⟨n, hn, rfl⟩ := List.mem_map.mp hx
  exact isTypeName_typeName (h n hn)

theorem isDigit_of_isLetter {c : Char} (h : isLetter c = true) : c.isDigit = false := by
  have halphanum : c.isAlphanum = true := by
    rw [Char.isAlphanum, show c.isAlpha = true from h, Bool.true_or]
  exact ascii_forall (P := fun c => isLetter c = true → c.isDigit = false) (by decide)
    (isAlphanum_toNat_lt halphanum) h

/-- A member has a name that can be read back. -/
theorem isName_of_isMemberName {name : String} (h : isIdentifier name = true)
    (hreserved : isReserved name = false) : IsName name := by
  have hword : IsWord name := by
    refine ⟨fun hnil => ?_, fun c hc => all_isWordChar_of_isIdentifier h hc⟩
    rw [isIdentifier, hnil] at h
    cases h
  refine ⟨hword, ?_, fun hmem => ?_⟩
  · rw [isIdentifier] at h
    cases hchars : name.toList with
    | nil => rfl
    | cons c cs =>
      rw [hchars, isIdentifierChars, Bool.and_eq_true, Bool.and_eq_true, Bool.or_eq_true,
        beq_iff_eq] at h
      rw [List.head?_cons, Option.any_some]
      rcases h.1.1 with hletter | rfl
      · exact isDigit_of_isLetter hletter
      · rfl
  · have hkeywords : ∀ word ∈ statementWords, isReserved word = true := by decide
    rw [hkeywords name hmem] at hreserved
    cases hreserved

section

variable {t : Schema} (ht : t.Admissible) {p : Place} (hp : t.Has p)

include ht hp

theorem Schema.Admissible.isTyped_type : p.type.IsTyped :=
  isTyped_of_path fun _ hn => ht.isIdentifier_of_mem_path hp hn

/-- The type that a settled node provides has names that can be read back, also where it is that of
the target of a reference. -/
theorem Schema.Admissible.isTyped_provided
    (hrefs : EachReferenceIn Reference.IsSettled [] [] t.entries) : p.provided.IsTyped := by
  cases hnode : p.node with
  | reference r =>
    obtain ⟨o, ho, -, htype⟩ := t.exists_target hrefs hp hnode
    have hprovided : p.provided = o.type := by rw [Place.provided, hnode, htype]; rfl
    rw [hprovided]
    exact ht.isTyped_type ho
  | _ =>
    rw [Place.provided_of_not_reference (by rw [hnode]; rfl)]
    exact ht.isTyped_type hp

theorem Schema.Admissible.legible_members
    (hrefs : EachReferenceIn Reference.IsSettled [] [] t.entries) {members : List (String × Node)}
    (hnode : p.node = .object members) (target : Target) :
    ∀ m ∈ emitMembers target p.path members, Member.Legible m := by
  rw [emitMembers_eq]
  refine List.forall_mem_map.mpr fun m hm => ?_
  have hchild : t.Has ⟨p.path, m.1, m.2⟩ := by
    refine hp.child ?_
    rw [Place.children_object hnode]
    exact mem_placesIn.mpr ⟨m, hm, rfl⟩
  obtain ⟨hname, hreserved⟩ := ht.members p members hp hnode m hm
  refine ⟨isName_of_isMemberName hname hreserved, ?_⟩
  rw [Node.emit_name]
  exact ht.isTyped_provided hchild hrefs

theorem Schema.Admissible.isTyped_item
    (hrefs : EachReferenceIn Reference.IsSettled [] [] t.entries) {item : Node}
    {bounds : ItemBounds} (hnode : p.node = .array item bounds) :
    (item.provided p.around (itemName p.name)).IsTyped := by
  have hitem : t.Has ⟨p.around, itemName p.name, item⟩ := by
    refine hp.child ?_
    rw [Place.children_array hnode]
    exact List.mem_singleton.mpr rfl
  exact ht.isTyped_provided hitem hrefs

/-- The helpers that work on values are legible, whatever the JSON type is called. -/
theorem Schema.Admissible.valuesLegible
    (hrefs : EachReferenceIn Reference.IsSettled [] [] t.entries) {target : Target}
    {bodies : HelperBodies} (hbodies : p.bodies? target = some bodies) :
    HelperBodies.ValuesLegible (scopePlacement p.scope) bodies := by
  refine Place.bodies?_cases hbodies (fun s _ => ?_) (fun members hnode => ?_)
    fun item bounds hnode => ?_
  · exact (legible_aliasBodies (ht.isTyped_type hp).legible_here _ _).toValuesLegible
  · exact valuesLegible_classBodies (ht.legible_members hp hrefs hnode target)
  · exact valuesLegible_vectorBodies (ht.isTyped_item hp hrefs hnode) bounds

/-- **Legible functions.** The bodies of all functions of a node are legible, if the JSON type is
named by a path. -/
theorem Schema.Admissible.legible_functions
    (hrefs : EachReferenceIn Reference.IsSettled [] [] t.entries) {target : Target}
    (hjson : IsPath target.jsonType) {f : GeneratedFunction} (hf : f ∈ p.functions target) :
    ∀ b ∈ f.function.body, b.Legible (scopePlacement p.scope) := by
  have hhere := (ht.isTyped_type hp).legible_here
  have hpath : IsPath ((TypeName.plain target.jsonType).line.fill (scopePlacement p.scope)) := by
    rw [TypeName.line, Line.fill_ofText]
    exact hjson
  rcases List.mem_append.mp hf with hf | hf
  · obtain ⟨m, hm, rfl⟩ := List.mem_map.mp hf
    cases hnode : p.node with
    | object members =>
      rw [Place.methods, hnode] at hm
      exact legible_methods hhere hpath p.name (ht.legible_members hp hrefs hnode target) m hm
    | _ =>
      rw [Place.methods, hnode] at hm
      cases hm
  · obtain ⟨g, hg, rfl⟩ := List.mem_map.mp hf
    obtain ⟨bodies, hbodies, hg⟩ := List.mem_flatMap.mp hg
    have hlegible : HelperBodies.Legible (scopePlacement p.scope) bodies := by
      refine Place.bodies?_cases (Option.mem_toList.mp hbodies) (fun s _ => ?_)
        (fun members hnode => ?_) fun item bounds hnode => ?_
      · exact legible_aliasBodies hhere _ _
      · exact legible_classBodies hjson (ht.legible_members hp hrefs hnode target)
      · exact legible_vectorBodies hjson (ht.isTyped_item hp hrefs hnode) bounds
    exact forall_mem_helperFunctions hlegible.init hlegible.validate hlegible.validateJson
      hlegible.toJson hlegible.jsonTo g hg

end

end ConfigForge
