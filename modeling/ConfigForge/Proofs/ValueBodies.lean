import ConfigForge.Proofs.CodeMeaning

/-!
# Bodies that set and check a value

`Init` of a scalar writes one value, that of an array pushes equal items, and that of an object goes
through the members. `Validate` of an array goes through the items, and that of an object through the
members. Here the calls of other helpers are taken as given.

Results:

* `eval_initialValue`: the value that a scalar starts with.
* `run_pushLoop`, `run_checkLoop`: the loops over the items of a vector.
* `runBody_vectorInit`, `runBody_vectorValidate`: `Init` and `Validate` of an array.
* `fillMembers_field?`: `Init` of an object gives every member its value.
* `runBody_classInit`, `runBody_classValidate`: `Init` and `Validate` of an object.
-/

namespace ConfigForge

open Emit Cpp

open Code (Line Placement)

section

variable {w : World} {p : Placement} {env : Env}

/-! ## Scalars -/

/-- The value that a number starts with. -/
def Limits.start (limits : Limits Binary64) : Binary64 :=
  limits.default.getD (numberZeroWithin limits)

/-- The value that a scalar starts with. -/
def Scalar.initial : Scalar → Value
  | .bool value => .bool (value.getD false)
  | .integer limits => .integer (limits.default.getD (zeroWithin limits))
  | .number limits => .double limits.start
  | .string value => .text (value.getD "")

theorem eval_textValue (s : String) : (textValue s).eval w p env = some (.text s) := by
  rw [textValue]
  by_cases hnul : s.toList.contains (Char.ofNat 0) = true
  · have hpath : IsPath "std::string" := ⟨["std"], "string", by decide, by decide⟩
    have hcount : readNumeral? (toString s.utf8ByteSize).toList =
        some (.decimal s.utf8ByteSize .plain) := by
      have hdigits := readNumeral?_toString s.utf8ByteSize .plain
      rwa [Suffix.spelling, String.toList_empty, List.append_nil] at hdigits
    rw [if_pos hnul, Expr.eval, Expr.term, Expr.term, TypeName.line, Line.fill_ofText, Term.eval_call,
      Term.path?_pathTerm hpath, Option.bind_some, if_pos rfl, Expr.term, Expr.term, Expr.term,
      sizedText?, literalText?_stringLiteral, Option.bind_some, hcount, Option.bind_some]
    exact if_pos rfl
  · have hall : s.toList.takeWhile (· ≠ Char.ofNat 0) = s.toList := by
      rw [List.takeWhile_eq_self_iff]
      intro c hc
      rw [decide_eq_true_eq]
      rintro rfl
      exact hnul (List.contains_iff_mem.mpr hc)
    rw [if_neg hnul, Expr.eval_text, cutAtNul, hall, String.ofList_toList]

/-- Whether the literal of a number stands for the number. -/
def Binary64.IsWritten (x : Binary64) : Prop :=
  (signedTerm (numberLiteral x)).real? = some x

instance (x : Binary64) : Decidable x.IsWritten :=
  inferInstanceAs (Decidable (_ = _))

theorem eval_double {x : Binary64} (h : x.IsWritten) :
    (Expr.double x).eval w p env = some (.double x) :=
  Term.eval_of_real? w env h

theorem eval_initialValue {s : Scalar} (primitive : Primitive)
    (hnumber : ∀ limits, s = .number limits → limits.start.IsWritten) :
    (initialValue s primitive).eval w p env = some s.initial := by
  cases s with
  | bool value => exact Expr.eval_bool _
  | integer limits => exact Expr.eval_integer _ _
  | number limits => exact eval_double (hnumber limits rfl)
  | string value => exact eval_textValue _

/-! ## Vectors -/

/-- One turn of the loop that fills a vector. -/
def pushItem (item : QualifiedName) : List Stmt :=
  [.declare (.owned (.named item)) "element" (.call0 (.type (.owned (.named item)))),
    .evaluate (.callHelper .init (.named item) (.address element)),
    .evaluate (.call (.arrow .val "push_back") element)]

/-- One turn of the loop that checks a vector. -/
def checkItem (item : QualifiedName) : List Stmt :=
  [.rejectIf (.not (.callHelper .validate (.named item) (.index .val position)))]

variable (p) in
/-- A turn of the loop that fills a vector adds an item. -/
theorem runAll_pushItem {item : QualifiedName} (hpath : IsPath (item.helper .init)) {x : Value}
    (hx : w.init (item.helper .init) .blank = some x) {items : List Value}
    (hval : env.get? "val" = some (.vector items)) :
    ∃ env', runAll w p env (pushItem item) = some (.running env') ∧
      env'.get? "i" = env.get? "i" ∧ env'.get? "val" = some (.vector (items ++ [x])) := by
  have hdeclare : (Stmt.declare (.owned (.named item)) "element"
      (.call0 (.type (.owned (.named item))))).run w p env =
        some (.running (env.put "element" .blank)) := by
    rw [Stmt.run, Stmt.statement, Statement.run, Expr.term, Expr.term, if_pos rfl]
  have hcell : (Expr.address element).eval w p (env.put "element" .blank) = some .blank := by
    rw [Expr.eval_address, element, Expr.eval_var rfl, Entries.get?_put_self]
  have hinit : (Expr.callHelper .init (.named item) (.address element)).perform? w p
      (env.put "element" .blank) = some ((env.put "element" .blank).put "element" x) := by
    rw [Expr.perform?_init (by rwa [Owner.helperText_named]), hcell, Option.getD_some,
      Owner.helperText_named, hx]
    rfl
  have hvector : Expr.val.eval w p ((env.put "element" .blank).put "element" x) =
      some (.vector items) := by
    rw [Expr.eval_val, Entries.get?_put_of_ne _ (by decide), Entries.get?_put_of_ne _ (by decide),
      hval]
  have hitem : element.eval w p ((env.put "element" .blank).put "element" x) = some x := by
    rw [element, Expr.eval_var rfl, Entries.get?_put_self]
  have hpush : (Expr.call (.arrow .val "push_back") element).perform? w p
      ((env.put "element" .blank).put "element" x) =
        some (((env.put "element" .blank).put "element" x).put "val" (.vector (items ++ [x]))) :=
    Expr.perform?_push hvector hitem
  refine ⟨_, ?_, ?_, Entries.get?_put_self ((env.put "element" .blank).put "element" x) "val" _⟩
  · rw [pushItem, runAll_cons, hdeclare, Outcome.andThen_running, runAll_cons, Stmt.run_evaluate,
      hinit, Option.map_some, Outcome.andThen_running, runAll_cons, Stmt.run_evaluate, hpush]
    rfl
  · rw [Entries.get?_put_of_ne _ (by decide), Entries.get?_put_of_ne _ (by decide),
      Entries.get?_put_of_ne _ (by decide)]

variable (p) in
/-- The loop that fills a vector adds equal items. -/
theorem run_pushLoop {item : QualifiedName} (hpath : IsPath (item.helper .init)) {x : Value}
    (hx : w.init (item.helper .init) .blank = some x) (hval : env.get? "val" = some (.vector []))
    {count : Nat} (hcount : count < w.turns) :
    ∃ env', (Block.countLoop (.size count) (pushItem item)).run w p env = some (.running env') ∧
      env'.get? "val" = some (.vector (List.replicate count x)) := by
  refine run_countLoop (fun k env => env.get? "val" = some (.vector (List.replicate k x)))
    (fun k env _ => Expr.eval_size count) ?_ ?_ hcount
  · intro k env _ hval hi
    obtain ⟨env', hrun, hi', hval'⟩ := runAll_pushItem p hpath hx hval
    refine ⟨env', hrun, hi'.trans hi, ?_⟩
    rw [Entries.get?_put_of_ne _ (by decide), hval', List.replicate_succ']
  · rw [Entries.get?_put_of_ne _ (by decide), hval]
    rfl

variable (p) in
/-- The loop that checks a vector goes through it, if every item is accepted. -/
theorem run_checkLoop {item : QualifiedName} (hpath : IsPath (item.helper .validate))
    {items : List Value} (hitems : ∀ v ∈ items, w.validate (item.helper .validate) v = some true)
    (hval : env.get? "val" = some (.vector items)) (hturns : items.length < w.turns) :
    ∃ env', (Block.countLoop (Expr.val.ask "size") (checkItem item)).run w p env =
      some (.running env') := by
  have hsize : ∀ env : Env, env.get? "val" = some (.vector items) →
      (Expr.val.ask "size").eval w p env = some (.integer items.length) := by
    intro env hval
    rw [Expr.eval_ask, Expr.eval_val, hval]
    rfl
  have hturn : ∀ k (env : Env), k < items.length → env.get? "val" = some (.vector items) →
      env.get? "i" = some (.integer k) → ∃ env', runAll w p env (checkItem item) =
        some (.running env') ∧ env'.get? "i" = some (.integer k) ∧
          (env'.put "i" (.integer (k + 1 : Nat))).get? "val" = some (.vector items) := by
    intro k env hk hval hi
    have hget : (Value.vector items).item? (.integer k) = some items[k] := by
      simp [Value.item?, hk]
    have hitem : (Expr.index .val position).eval w p env = some items[k] := by
      have hposition : position.eval w p env = some (.integer k) := (Expr.eval_var rfl).trans hi
      rw [Expr.eval_index, Expr.eval_val, hval, Option.bind_some, hposition, Option.bind_some, hget]
    have htest : (Expr.not (.callHelper .validate (.named item) (.index .val position))).eval w p
        env = some (.bool false) := by
      refine Expr.eval_not (b := true) ?_
      rw [Expr.eval_validate (by rwa [Owner.helperText_named]) hitem, Owner.helperText_named,
        hitems _ (List.getElem_mem hk)]
      rfl
    refine ⟨env, ?_, hi, by rw [Entries.get?_put_of_ne _ (by decide), hval]⟩
    rw [checkItem, runAll_rejectIf htest]
    rfl
  have hstart : (env.put "i" (.integer 0)).get? "val" = some (.vector items) := by
    rw [Entries.get?_put_of_ne _ (by decide), hval]
  obtain ⟨env', hrun, -⟩ := run_countLoop (fun _ env => env.get? "val" = some (.vector items))
    (fun _ env => hsize env) hturn hstart hturns
  exact ⟨env', hrun⟩

variable (w p) in
/-- The tests of the size let a vector of an allowed length pass. -/
theorem runAll_sizeChecks {bounds : ItemBounds} {items : List Value}
    (hval : env.get? "val" = some (.vector items))
    (hleast : ∀ n, bounds.least = some n → n ≤ items.length)
    (hmost : ∀ n, bounds.most = some n → items.length ≤ n) :
    runAll w p env (sizeChecks bounds .val) = some (.running env) := by
  have hsize : (Expr.val.ask "size").eval w p env = some (.integer items.length) := by
    rw [Expr.eval_ask, Expr.eval_val, hval]
    rfl
  have hlt : ∀ n, n ≤ items.length →
      (Expr.binary .lt (Expr.val.ask "size") (.size n)).eval w p env = some (.bool false) := by
    intro n hn
    have hno : ¬ (items.length : Int) < n := by omega
    rw [Expr.eval_binary, hsize, Expr.eval_size]
    simp [BinaryOp.combine?, BinaryOp.compare?, BinaryOp.holds?, hno]
  have hgt : ∀ n, items.length ≤ n →
      (Expr.binary .gt (Expr.val.ask "size") (.size n)).eval w p env = some (.bool false) := by
    intro n hn
    have hno : ¬ (n : Int) < items.length := by omega
    rw [Expr.eval_binary, hsize, Expr.eval_size]
    simp [BinaryOp.combine?, BinaryOp.compare?, BinaryOp.holds?, hno]
  have hfirst : runAll w p env ((bounds.least.filter (0 < ·)).map fun n =>
      Stmt.rejectIf (.binary .lt (Expr.val.ask "size") (.size n))).toList =
        some (.running env) := by
    cases hb : bounds.least.filter (0 < ·) with
    | none => rfl
    | some n =>
      have hn : bounds.least = some n := (Option.filter_eq_some_iff.mp hb).1
      exact runAll_rejectIf (hlt n (hleast n hn)) []
  have hsecond : runAll w p env (bounds.most.map fun n =>
      Stmt.rejectIf (.binary .gt (Expr.val.ask "size") (.size n))).toList =
        some (.running env) := by
    cases hb : bounds.most with
    | none => rfl
    | some n => exact runAll_rejectIf (hgt n (hmost n hb)) []
  rw [sizeChecks, runAll_append, hfirst]
  exact hsecond

variable (p) (target : Target) in
/-- `Init` of an array leaves as many items as an array has at least. -/
theorem runBody_vectorInit {item : QualifiedName} (hpath : IsPath (item.helper .init))
    {bounds : ItemBounds} (hturns : bounds.initialLength < w.turns) {x : Value}
    (hx : w.init (item.helper .init) .blank = some x) (before : Value) :
    ∃ env, runBody w p [("val", before)] (vectorBodies target item bounds).init =
        some (.running env) ∧
      env.get? "val" = some (.vector (List.replicate bounds.initialLength x)) := by
  have hclear : (Block.line (.evaluate (.call0 (.arrow .val "clear")))).run w p
      [("val", before)] = some (.running [("val", .vector [])]) := rfl
  have hempty : Entries.get? [("val", Value.vector [])] "val" = some (.vector []) := rfl
  obtain ⟨env, hloop, hval⟩ := run_pushLoop p hpath hx hempty hturns
  rw [vectorBodies, runBody, hclear, Outcome.andThen_running]
  by_cases hlength : 0 < bounds.initialLength
  · refine ⟨env, ?_, hval⟩
    rw [if_pos hlength, runBody]
    change Outcome.andThen ((Block.countLoop (.size bounds.initialLength) (pushItem item)).run w p
      _) _ = _
    rw [hloop]
    rfl
  · have hzero : bounds.initialLength = 0 := by omega
    rw [if_neg hlength, hzero]
    exact ⟨_, rfl, hempty⟩

variable (p) (target : Target) in
/-- `Validate` of an array accepts a vector of an allowed length with acceptable items. -/
theorem runBody_vectorValidate {item : QualifiedName} (hpath : IsPath (item.helper .validate))
    {bounds : ItemBounds} {items : List Value}
    (hturns : items.length < w.turns)
    (hitems : ∀ v ∈ items, w.validate (item.helper .validate) v = some true)
    (hleast : ∀ n, bounds.least = some n → n ≤ items.length)
    (hmost : ∀ n, bounds.most = some n → items.length ≤ n) :
    (runBody w p [("val", .vector items)] (vectorBodies target item bounds).validate).bind
      Outcome.answer? = some true := by
  have hval : Entries.get? [("val", Value.vector items)] "val" = some (.vector items) := rfl
  have hsize := runAll_sizeChecks w p hval hleast hmost
  obtain ⟨env, hloop⟩ := run_checkLoop p hpath hitems hval hturns
  rw [vectorBodies, runBody_append, runBody_statements, hsize, Outcome.andThen_running, runBody]
  change (Outcome.andThen ((Block.countLoop (Expr.val.ask "size") (checkItem item)).run w p _)
    _).bind _ = _
  rw [hloop]
  rfl

/-! ## Objects -/

/-- The value of an object after `Init` has gone through its members; `initial` gives the value of a
member from what was there before. -/
def fillMembers (initial : Member → Value → Value) : List Member → Value → Value
  | [], v => v
  | m :: rest, v =>
    fillMembers initial rest
      (v.setField m.name (initial m ((v.field? m.name).getD .blank)))

theorem fillMembers_field?_of_not_mem {initial : Member → Value → Value} {members : List Member}
    {v : Value} {name : String} (h : name ∉ members.map Member.name) :
    (fillMembers initial members v).field? name = v.field? name := by
  induction members generalizing v with
  | nil => rfl
  | cons m members ih =>
    rw [List.map_cons, List.mem_cons, not_or] at h
    rw [fillMembers, ih h.2, Value.field?_setField_of_ne v (Ne.symm h.1)]

/-- Every member has the value that `Init` gives it. -/
theorem fillMembers_field? (initial : Member → Value → Value) {members : List Member}
    (hnodup : (members.map Member.name).Nodup) {m : Member} (hm : m ∈ members) (v : Value) :
    ∃ before, (fillMembers initial members v).field? m.name = some (initial m before) := by
  induction members generalizing v with
  | nil => cases hm
  | cons first members ih =>
    obtain ⟨hnew, hrest⟩ := List.nodup_cons.mp hnodup
    rcases List.mem_cons.mp hm with rfl | hm
    · refine ⟨(v.field? m.name).getD .blank, ?_⟩
      rw [fillMembers, fillMembers_field?_of_not_mem hnew, Value.field?_setField_self]
    · exact ih hrest hm _

variable (p) in
/-- `Init` of an object sets the members one after the other. -/
theorem runAll_initMembers {initial : Member → Value → Value} {members : List Member} {v : Value}
    (hpaths : ∀ m ∈ members, IsPath (m.emitted.name.helper .init))
    (hinit : ∀ m ∈ members, ∀ before,
      w.init (m.emitted.name.helper .init) before = some (initial m before))
    (hval : env.get? "val" = some v) :
    ∃ env', runAll w p env (members.map fun m =>
        Stmt.evaluate (.callHelper .init m.owner m.pointer)) = some (.running env') ∧
      env'.get? "val" = some (fillMembers initial members v) := by
  induction members generalizing env v with
  | nil => exact ⟨env, rfl, hval⟩
  | cons m members ih =>
    have hvalue : Expr.val.eval w p env = some v := Expr.eval_val.trans hval
    have hcell : m.pointer.eval w p env = v.field? m.name := by
      rw [Member.pointer, Expr.eval_address, Expr.eval_arrow, hvalue, Option.bind_some]
    have hwrite : ∀ new, m.pointer.write? w p env new =
        some (env.put "val" (v.setField m.name new)) := by
      intro new
      rw [Expr.eval] at hvalue
      rw [Member.pointer, Expr.write?, Expr.term, Expr.term, Term.write?, Term.write?, hvalue]
      rfl
    have hpath : IsPath (m.owner.helperText p .init) := by
      rw [Member.owner, Owner.helperText_named]
      exact hpaths m List.mem_cons_self
    have hstep : (Expr.callHelper .init m.owner m.pointer).perform? w p env =
        some (env.put "val"
          (v.setField m.name (initial m ((v.field? m.name).getD .blank)))) := by
      rw [Expr.perform?_init hpath, hcell, Member.owner, Owner.helperText_named,
        hinit m List.mem_cons_self, Option.bind_some, hwrite]
    obtain ⟨env', hrest, hval'⟩ := ih (fun m hm => hpaths m (List.mem_cons_of_mem _ hm))
      (fun m hm => hinit m (List.mem_cons_of_mem _ hm)) (Entries.get?_put_self env "val" _)
    refine ⟨env', ?_, hval'⟩
    rw [List.map_cons, runAll_cons, Stmt.run_evaluate, hstep]
    exact hrest

variable (p) (target : Target) in
theorem runBody_classInit {initial : Member → Value → Value} {members : List Member}
    (hpaths : ∀ m ∈ members, IsPath (m.emitted.name.helper .init))
    (hinit : ∀ m ∈ members, ∀ before,
      w.init (m.emitted.name.helper .init) before = some (initial m before))
    (before : Value) :
    ∃ env, runBody w p [("val", before)] (classBodies target members).init =
        some (.running env) ∧
      env.get? "val" = some (fillMembers initial members before) := by
  have hval : Entries.get? [("val", before)] "val" = some before := rfl
  have hunused : runAll w p [("val", before)] (unusedValue members) =
      some (.running [("val", before)]) := by
    cases members <;> rfl
  obtain ⟨env, hrun, hfilled⟩ := runAll_initMembers p hpaths hinit hval
  refine ⟨env, ?_, hfilled⟩
  rw [classBodies, runBody_statements, runAll_append, hunused]
  exact hrun

variable (p) (target : Target) in
/-- `Validate` of an object accepts an object with acceptable members. -/
theorem runBody_classValidate {members : List Member} {v : Value}
    (hpaths : ∀ m ∈ members, IsPath (m.emitted.name.helper .validate))
    (hmembers : ∀ m ∈ members, ∃ x, v.field? m.name = some x ∧
      w.validate (m.emitted.name.helper .validate) x = some true) :
    (runBody w p [("val", v)] (classBodies target members).validate).bind Outcome.answer? =
      some true := by
  have hval : Entries.get? [("val", v)] "val" = some v := rfl
  have hanswered : Answered w p v
      (members.map fun m => .callHelper .validate m.owner m.ofValue)
      (members.map fun _ => true) := by
    rw [Answered, List.forall₂_map_left_iff, List.forall₂_map_right_iff, List.forall₂_same]
    intro m hm env henv
    obtain ⟨x, hfield, hvalid⟩ := hmembers m hm
    have hvalue : m.ofValue.eval w p env = some x := by
      rw [Member.ofValue, Expr.eval_dot, Expr.eval_val, henv, Option.bind_some, hfield]
    have htext : m.owner.helperText p .validate = m.emitted.name.helper .validate :=
      Owner.helperText_named _ _
    rw [Expr.eval_validate (htext ▸ hpaths m hm) hvalue, htext, hvalid]
    rfl
  have hall : (members.map fun _ => true).all id = true := by simp
  rw [← hall]
  exact run_conjunction hanswered hval

end

end ConfigForge
