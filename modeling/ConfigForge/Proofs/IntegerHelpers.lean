import ConfigForge.Proofs.Program

/-!
# Helpers of integers

An integer type has a range of its own and bounds inside this range. The code checks the range for
JSON nodes only, where an integer of 64 bits may be too large for the type, and it leaves out every
test that cannot fail. What remains tells exactly the integers between the bounds from all others.

Results:

* `Limits.integerFault?_eq_none_iff`: an integer has no fault exactly if its limits are consistent.
* `Limits.consistent_of_check`: what the check of a schema says about the bounds of an integer.
* `runAll_typeCheck_integer`: the type check lets exactly the integers of the type pass.
* `boundTests_answers`: the tests of bounds say exactly whether a value of the type is between them.
* `integer_helpers_exact`: what the helpers of an integer accept.
-/

namespace ConfigForge

open Code (Fragment Line Placement)
open Emit Cpp

/-! ## Bounds -/

theorem rejectFault_eq_ok_iff {location : Location} {fault : Option ConstraintFault} :
    rejectFault location fault = .ok () ↔ fault = none := by
  cases fault <;> simp [rejectFault]

namespace Limits

/-- The values of the type in which an integer is stored. -/
def typeRange (limits : Limits Int) : IntRange :=
  integerRange (signFor limits.minimum) (widthFor limits.minimum limits.maximum)

/-- The least value that is acceptable. -/
def low (limits : Limits Int) : Int :=
  limits.minimum.getD limits.typeRange.low

/-- The greatest value that is acceptable. -/
def high (limits : Limits Int) : Int :=
  limits.maximum.getD limits.typeRange.high

/-- Bounds of a type that are in order, with a default between them. -/
structure Consistent (limits : Limits Int) : Prop where
  minimum : ∀ m, limits.minimum = some m → limits.typeRange.holds m = true
  maximum : ∀ m, limits.maximum = some m → limits.typeRange.holds m = true
  order : ∀ m, limits.minimum = some m → ∀ m', limits.maximum = some m' → m ≤ m'
  default : ∀ v, limits.default = some v → limits.low ≤ v ∧ v ≤ limits.high

/-- The fault of bounds out of order. -/
def orderFault? (limits : Limits Int) : Option ConstraintFault :=
  limits.minimum.bind fun minimum => limits.maximum.bind fun maximum =>
    if maximum < minimum then some (.integerRange minimum maximum) else none

/-- The fault of bounds that the type does not hold. -/
def fitFault? (limits : Limits Int) : Option ConstraintFault :=
  if (limits.minimum.any fun b => !limits.typeRange.holds b) ∨
      (limits.maximum.any fun b => !limits.typeRange.holds b) then
    some (.unrepresentable (limits.minimum.getD 0) (limits.maximum.getD 0))
  else none

/-- The fault of a default outside the bounds. -/
def startFault? (limits : Limits Int) : Option ConstraintFault :=
  limits.default.bind fun value =>
    if value < limits.low ∨ limits.high < value then
      some (.integerDefault value limits.low limits.high)
    else none

theorem integerFault?_eq (limits : Limits Int) :
    limits.integerFault? = limits.orderFault?.or (limits.fitFault?.or limits.startFault?) := rfl

section

variable {limits : Limits Int}

theorem orderFault?_eq_none_iff :
    limits.orderFault? = none ↔
      ∀ m, limits.minimum = some m → ∀ m', limits.maximum = some m' → m ≤ m' := by
  rw [orderFault?]
  cases limits.minimum with
  | none => simp
  | some m =>
    cases limits.maximum with
    | none => simp
    | some m' => simp

theorem fitFault?_eq_none_iff :
    limits.fitFault? = none ↔
      (∀ m, limits.minimum = some m → limits.typeRange.holds m = true) ∧
        ∀ m, limits.maximum = some m → limits.typeRange.holds m = true := by
  simp [fitFault?, Option.any_eq_false]

theorem startFault?_eq_none_iff :
    limits.startFault? = none ↔
      ∀ v, limits.default = some v → limits.low ≤ v ∧ v ≤ limits.high := by
  rw [startFault?]
  cases limits.default with
  | none => simp
  | some v => simp

/-- An integer has no fault exactly if its limits are consistent. -/
theorem integerFault?_eq_none_iff : limits.integerFault? = none ↔ limits.Consistent := by
  rw [integerFault?_eq, Option.or_eq_none_iff, Option.or_eq_none_iff, orderFault?_eq_none_iff,
    fitFault?_eq_none_iff, startFault?_eq_none_iff]
  constructor
  · rintro ⟨horder, ⟨hminimum, hmaximum⟩, hdefault⟩
    exact ⟨hminimum, hmaximum, horder, hdefault⟩
  · rintro ⟨hminimum, hmaximum, horder, hdefault⟩
    exact ⟨horder, ⟨hminimum, hmaximum⟩, hdefault⟩

theorem consistent_of_check {location : Location}
    (h : (Node.scalar (.integer limits)).check location = .ok ()) : limits.Consistent :=
  integerFault?_eq_none_iff.mp (rejectFault_eq_ok_iff.mp h)

end

end Limits

theorem IntRange.holds_iff {range : IntRange} {v : Int} :
    range.holds v = true ↔ range.low ≤ v ∧ v ≤ range.high := by
  simp [IntRange.holds]

/-- Zero belongs to every integer type. -/
theorem integerRange_zero (signed : Bool) (width : Width) :
    (integerRange signed width).low ≤ 0 ∧ 0 ≤ (integerRange signed width).high := by
  cases signed <;> cases width <;> decide

theorem Limits.Consistent.low_high {limits : Limits Int} (h : limits.Consistent) :
    limits.typeRange.low ≤ limits.low ∧ limits.high ≤ limits.typeRange.high := by
  constructor
  · rw [Limits.low]
    cases hm : limits.minimum with
    | none => exact Int.le_refl _
    | some m => exact (IntRange.holds_iff.mp (h.minimum m hm)).1
  · rw [Limits.high]
    cases hm : limits.maximum with
    | none => exact Int.le_refl _
    | some m => exact (IntRange.holds_iff.mp (h.maximum m hm)).2

/-! ## JSON integers -/

theorem JsonNode.integer?_bounds {node : JsonNode} {i : Int} (h : node.integer? = some i) :
    (node.isUnsigned = true ∧ (integerRange false .w64).holds i = true) ∨
      (node.isUnsigned = false ∧ (integerRange true .w64).holds i = true) := by
  cases node with
  | unsigned n =>
    obtain rfl := Option.some.inj h
    have hn := n.toNat_lt
    exact .inl ⟨rfl, (mem_range_iff _ _ _).mpr ⟨by omega, Int.ofNat_lt.mpr hn⟩⟩
  | signed n =>
    obtain rfl := Option.some.inj h
    exact .inr ⟨rfl, (mem_range_iff _ _ _).mpr ⟨Int64.le_toInt n, Int64.toInt_lt n⟩⟩
  | _ => cases h

section

variable {w : World} {p : Placement} {env : Env} {node : JsonNode} {i : Int}

theorem eval_isUnsigned (hjson : env.get? "json" = some (.json node)) :
    jsonIsUnsigned.eval w p env = some (.bool node.isUnsigned) := by
  rw [jsonIsUnsigned, Expr.eval_ask, Expr.eval_json, hjson]
  rfl

theorem eval_isInteger (hjson : env.get? "json" = some (.json node)) :
    (Expr.json.ask "is_number_integer").eval w p env = some (.bool node.integer?.isSome) := by
  rw [Expr.eval_ask, Expr.eval_json, hjson]
  rfl

theorem eval_jsonAs {t : TypeName} (hpath : IsPath (t.line.fill p)) {signed : Bool} {width : Width}
    (hjson : env.get? "json" = some (.json node)) (hi : node.integer? = some i)
    (ht : w.primitive? (t.line.fill p) = some (.integer signed width)) :
    (Expr.jsonAs t).eval w p env = some (.integer (convert signed width i)) := by
  rw [Expr.eval_jsonAs hpath hjson, ht, Option.bind_some, JsonNode.get?, hi, Option.map_some]

theorem eval_jsonAsInteger (sign : Bool) (hjson : env.get? "json" = some (.json node))
    (hi : node.integer? = some i) (hrange : (integerRange sign .w64).holds i = true) :
    (jsonAsInteger (.integer sign .w64)).eval w p env = some (.integer i) := by
  have htext : (TypeName.plain (Primitive.integer sign .w64).cppName).line.fill p =
      (Primitive.integer sign .w64).cppName := by
    rw [TypeName.line, Line.fill_ofText]
  have ht : w.primitive? (Primitive.integer sign .w64).cppName = some (.integer sign .w64) := by
    rw [World.primitive?, Primitive.ofCppName?_cppName, Option.some_or]
  have hpath := Primitive.isPath_cppName (.integer sign .w64)
  rw [← htext] at hpath ht
  rw [jsonAsInteger, eval_jsonAs hpath hjson hi ht, convert_of_holds hrange]

/-- An integer without sign is rejected exactly if it is above the range. -/
theorem runAll_unsignedCheck (hjson : env.get? "json" = some (.json node))
    (hi : node.integer? = some i) (range : IntRange) (rest : List Stmt) :
    runAll w p env (unsignedCheck range ++ rest) =
      if node.isUnsigned = true ∧ range.high < i then some (.returned (.bool false) env)
      else runAll w p env rest := by
  rw [unsignedCheck]
  by_cases hhigh : range.high < (integerRange false .w64).high
  · have htest : (Expr.binary .and jsonIsUnsigned (.binary .gt (jsonAsInteger wideUnsigned)
        (.integer range.high wideUnsigned))).eval w p env =
          some (.bool (decide (node.isUnsigned = true ∧ range.high < i))) := by
      rw [Expr.eval_binary, eval_isUnsigned hjson]
      rcases JsonNode.integer?_bounds hi with ⟨hsign, hrange⟩ | ⟨hsign, -⟩
      · have hvalue : (jsonAsInteger (.integer false .w64)).eval w p env = some (.integer i) :=
          eval_jsonAsInteger false hjson hi hrange
        rw [Expr.eval_binary, wideUnsigned, hvalue, Expr.eval_integer, hsign]
        simp [BinaryOp.combine?, BinaryOp.compare?, BinaryOp.holds?]
      · simp [BinaryOp.combine?, hsign]
    rw [if_pos hhigh, List.singleton_append, runAll_rejectIf htest]
    simp
  · rw [if_neg hhigh, List.nil_append, if_neg]
    rintro ⟨hsign, hlt⟩
    rcases JsonNode.integer?_bounds hi with ⟨-, hrange⟩ | ⟨hsign', -⟩
    · have hup := (IntRange.holds_iff.mp hrange).2
      omega
    · rw [hsign] at hsign'
      cases hsign'

variable (w p) in
/-- The comparisons that reject an integer with sign. -/
theorem eval_signedTests (hjson : env.get? "json" = some (.json node)) (hi : node.integer? = some i)
    (hwide : (integerRange true .w64).holds i = true) (range : IntRange) :
    match signedTests range with
    | [] => range.low ≤ i ∧ i ≤ range.high
    | test :: tests => (tests.foldl (fun e t => Expr.binary .or e t) test).eval w p env =
        some (.bool (decide (i < range.low ∨ range.high < i))) := by
  have hvalue : (jsonAsInteger wideSigned).eval w p env = some (.integer i) :=
    eval_jsonAsInteger true hjson hi hwide
  have hbetween := IntRange.holds_iff.mp hwide
  rw [signedTests]
  by_cases hl : (integerRange true .w64).low < range.low <;>
    by_cases hh : range.high < (integerRange true .w64).high
  · rw [if_pos hl, if_pos hh]
    simp only [List.cons_append, List.nil_append, List.foldl_cons, List.foldl_nil,
      Expr.eval_binary, Expr.eval_integer, hvalue]
    by_cases hlt : i < range.low
    · simp [BinaryOp.combine?, BinaryOp.compare?, BinaryOp.holds?, hlt]
    · simp [BinaryOp.combine?, BinaryOp.compare?, BinaryOp.holds?, hlt]
  · have hno : ¬ range.high < i := by omega
    rw [if_pos hl, if_neg hh]
    simp [Expr.eval_binary, Expr.eval_integer, hvalue, BinaryOp.combine?, BinaryOp.compare?,
      BinaryOp.holds?, hno]
  · have hno : ¬ i < range.low := by omega
    rw [if_neg hl, if_pos hh]
    simp [Expr.eval_binary, Expr.eval_integer, hvalue, BinaryOp.combine?, BinaryOp.compare?,
      BinaryOp.holds?, hno]
  · rw [if_neg hl, if_neg hh]
    exact ⟨by omega, by omega⟩

/-- An integer with sign is rejected exactly if it is outside the range. -/
theorem runAll_signedCheck (hjson : env.get? "json" = some (.json node))
    (hi : node.integer? = some i) (range : IntRange) (rest : List Stmt) :
    runAll w p env (signedCheck range ++ rest) =
      if node.isUnsigned = false ∧ (i < range.low ∨ range.high < i) then
        some (.returned (.bool false) env)
      else runAll w p env rest := by
  rw [signedCheck]
  rcases JsonNode.integer?_bounds hi with ⟨hsign, -⟩ | ⟨hsign, hwide⟩
  · have htest : ∀ e : Expr, (Expr.binary .and (.not jsonIsUnsigned) e).eval w p env =
        some (.bool false) := by
      intro e
      rw [Expr.eval_binary, Expr.eval_not (eval_isUnsigned hjson), hsign]
      rfl
    rw [if_neg (by simp [hsign])]
    cases signedTests range with
    | nil => rfl
    | cons test tests =>
      rw [List.singleton_append, runAll_rejectIf (htest _)]
      rfl
  · have htests := eval_signedTests w p hjson hi hwide range
    cases hcase : signedTests range with
    | nil =>
      rw [hcase] at htests
      rw [if_neg (by omega)]
      rfl
    | cons test tests =>
      rw [hcase] at htests
      have htest : (Expr.binary .and (.not jsonIsUnsigned)
          (.paren (tests.foldl (fun e t => .binary .or e t) test))).eval w p env =
            some (.bool (decide (i < range.low ∨ range.high < i))) := by
        rw [Expr.eval_binary, Expr.eval_not (eval_isUnsigned hjson), hsign, Expr.eval_paren, htests]
        rfl
      rw [List.singleton_append, runAll_rejectIf htest]
      simp [hsign]

/-- **The type check.** The type check of an integer type goes on exactly if the node holds an
integer of the type. -/
theorem runAll_typeCheck_integer (hjson : env.get? "json" = some (.json node)) (signed : Bool)
    (width : Width) (rest : List Stmt) :
    runAll w p env (typeCheck (.integer signed width) ++ rest) =
      if node.integer?.any (integerRange signed width).holds = true then runAll w p env rest
      else some (.returned (.bool false) env) := by
  have htag : (Expr.not (Expr.json.ask "is_number_integer")).eval w p env =
      some (.bool !node.integer?.isSome) := Expr.eval_not (eval_isInteger hjson)
  have hcheck : typeCheck (.integer signed width) ++ rest =
      .rejectIf (.not (Expr.json.ask "is_number_integer")) ::
        (unsignedCheck (integerRange signed width) ++
          (signedCheck (integerRange signed width) ++ rest)) := by
    rw [← List.append_assoc]
    rfl
  rw [hcheck, runAll_rejectIf htag]
  cases hi : node.integer? with
  | none => rfl
  | some i =>
    have hzero := integerRange_zero signed width
    rw [if_neg (by simp), runAll_unsignedCheck hjson hi, runAll_signedCheck hjson hi,
      Option.any_some]
    simp only [IntRange.holds_iff]
    rcases JsonNode.integer?_bounds hi with ⟨hsign, hwide⟩ | ⟨hsign, -⟩
    · have hlow : 0 ≤ i := (IntRange.holds_iff.mp hwide).1
      by_cases hup : (integerRange signed width).high < i
      · rw [if_pos ⟨hsign, hup⟩, if_neg (by omega)]
      · rw [if_neg fun habove => hup habove.2, if_neg (by simp [hsign]), if_pos (by omega)]
    · rw [if_neg (by simp [hsign])]
      by_cases hout : i < (integerRange signed width).low ∨ (integerRange signed width).high < i
      · rw [if_pos ⟨hsign, hout⟩, if_neg (by omega)]
      · rw [if_neg fun houtside => hout houtside.2, if_pos (by omega)]

end

/-! ## Bounds of values -/

/-- The answer of a test of a bound, if there is one. -/
theorem answered_bound (w : World) (p : Placement) {α : Type} {v : Value} {test : α → Expr}
    {answer : α → Bool} {bound : Option α} (h : ∀ m ∈ bound, ∀ env : Env, env.get? "val" = some v →
      (test m).eval w p env = some (.bool (answer m))) :
    Answered w p v ((bound.map test).toList.map Expr.paren) (bound.map answer).toList := by
  cases bound with
  | none => exact .nil
  | some m => exact .cons (fun env hval => by rw [Expr.eval_paren, h m rfl env hval]) .nil

/-- The answers of the tests of bounds: together they say whether a value of the type is between the
bounds. -/
theorem boundTests_answers (w : World) (p : Placement) {limits : Limits Int} {v : Int}
    (hv : limits.typeRange.holds v = true) :
    ∃ answers, Answered w p (.integer v)
        ((boundTests (.integer limits) (Scalar.integer limits).primitive).map Expr.paren) answers ∧
      answers.all id = decide (limits.low ≤ v ∧ v ≤ limits.high) := by
  have htests : boundTests (.integer limits) (Scalar.integer limits).primitive =
      ((limits.minimum.filter (limits.typeRange.low < ·)).map fun m =>
        Expr.binary .ge .val (.integer m (Scalar.integer limits).primitive)).toList ++
      ((limits.maximum.filter (· < limits.typeRange.high)).map fun m =>
        Expr.binary .le .val (.integer m (Scalar.integer limits).primitive)).toList := rfl
  have hge : ∀ m, ∀ env : Env, env.get? "val" = some (.integer v) →
      (Expr.binary .ge .val (.integer m (Scalar.integer limits).primitive)).eval w p env =
        some (.bool (decide (m ≤ v))) := by
    intro m env hval
    have hcompare : (decide (m < v) || decide (v = m)) = decide (m ≤ v) := by
      rw [← Bool.decide_or, decide_eq_decide]
      omega
    rw [Expr.eval_binary, Expr.eval_val, hval, Expr.eval_integer, ← hcompare]
    rfl
  have hle : ∀ m, ∀ env : Env, env.get? "val" = some (.integer v) →
      (Expr.binary .le .val (.integer m (Scalar.integer limits).primitive)).eval w p env =
        some (.bool (decide (v ≤ m))) := by
    intro m env hval
    have hcompare : (decide (v < m) || decide (v = m)) = decide (v ≤ m) := by
      rw [← Bool.decide_or, decide_eq_decide]
      omega
    rw [Expr.eval_binary, Expr.eval_val, hval, Expr.eval_integer, ← hcompare]
    rfl
  have hanswered := (answered_bound w p (fun m (_ : m ∈ limits.minimum.filter
      (limits.typeRange.low < ·)) => hge m)).append
    (answered_bound w p (fun m (_ : m ∈ limits.maximum.filter (· < limits.typeRange.high)) =>
      hle m))
  rw [← List.map_append, ← htests] at hanswered
  refine ⟨_, hanswered, ?_⟩
  obtain ⟨hlow, hhigh⟩ := IntRange.holds_iff.mp hv
  have hminimum : (((limits.minimum.filter (limits.typeRange.low < ·)).map
      fun m => decide (m ≤ v)).toList.all id) = decide (limits.low ≤ v) := by
    rw [Limits.low]
    cases limits.minimum with
    | none => simp [hlow]
    | some m =>
      by_cases hm : limits.typeRange.low < m
      · simp [Option.filter, hm]
      · have hmv : m ≤ v := by omega
        simp [Option.filter, hm, hmv]
  have hmaximum : (((limits.maximum.filter (· < limits.typeRange.high)).map
      fun m => decide (v ≤ m)).toList.all id) = decide (v ≤ limits.high) := by
    rw [Limits.high]
    cases limits.maximum with
    | none => simp [hhigh]
    | some m =>
      by_cases hm : m < limits.typeRange.high
      · simp [Option.filter, hm]
      · have hvm : v ≤ m := by omega
        simp [Option.filter, hm, hvm]
  rw [List.all_append, hminimum, hmaximum, Bool.decide_and]

/-! ## Typedefs -/

/-- The name and the type of a typedef in a line. -/
def typedef? (line : String) : Option (String × String) :=
  match tokens line with
  | [] => none
  | first :: rest =>
    if first = "typedef".toList then
      match rest.reverse with
      | [';'] :: name :: type => some (String.ofList name, String.ofList type.reverse.flatten)
      | _ => none
    else none

/-- The primitive types behind the typedefs in lines that stand in a scope. -/
def typedefs (scope lines : List String) (path : String) : Option Primitive :=
  lines.findSome? fun line => (typedef? line).bind fun d =>
    if qualification scope ++ d.1 = path then Primitive.ofCppName? d.2 else none

/-- A name that begins like a type name is not that of a primitive type. -/
theorem Primitive.ofCppName?_eq_none {text : String}
    (h : text.toList.head?.any (fun c => !c.isLower) = true) : ofCppName? text = none := by
  rw [ofCppName?, List.find?_eq_none]
  intro primitive _ heq
  rw [decide_eq_true_eq] at heq
  rw [← heq] at h
  revert h
  cases primitive with
  | integer signed width => cases signed <;> cases width <;> decide
  | _ => decide

theorem typedef?_integer (signed : Bool) (width : Width) {type : String} (h : IsWord type) :
    typedef? ("typedef " ++ (Primitive.integer signed width).cppName ++ " " ++ type ++ ";") =
      some (type, (Primitive.integer signed width).cppName) := by
  have hname : IsWord (Primitive.integer signed width).cppName := by
    cases signed <;> cases width <;> decide
  have hline : "typedef " ++ (Primitive.integer signed width).cppName ++ " " ++ type ++ ";" =
      "typedef" ++ (" " ++ ((Primitive.integer signed width).cppName ++ (" " ++ (type ++ ";")))) := by
    simp only [String.append_assoc]
    rfl
  have hcut := (hname.cut_blank h.cut_semicolon).cons_blank "typedef" (by decide) (by decide)
  rw [hline, typedef?, hcut.tokens_eq]
  simp [String.ofList_toList]

/-- A typedef is found by the path of its type. -/
theorem typedefs_integer {lines scope : List String} {type : String} {limits : Limits Int}
    (hlines : lines = ["typedef " ++ (Scalar.integer limits).primitive.cppName ++ " " ++ type ++ ";"])
    (h : IsWord type) :
    typedefs scope lines (qualification scope ++ type) = some (Scalar.integer limits).primitive := by
  have hread := typedef?_integer (signFor limits.minimum)
    (widthFor limits.minimum limits.maximum) h
  rw [typedefs, hlines, List.findSome?_singleton, Scalar.primitive, Primitive.forBounds, hread,
    Option.bind_some, if_pos rfl, Primitive.ofCppName?_cppName]

/-! ## The helpers -/

section

variable {source : List String} {types : String → Option Primitive} {p : Place}
  {limits : Limits Int}

/-- The bodies of the helpers of an integer. -/
def integerBodies (p : Place) (limits : Limits Int) : HelperBodies :=
  aliasBodies p.type.name (.integer limits) (Scalar.integer limits).primitive

theorem legible_integerBodies (hp : p.type.IsTyped) (limits : Limits Int) :
    HelperBodies.Legible (scopePlacement p.scope) (integerBodies p limits) :=
  legible_aliasBodies hp.legible_here _ _

/-- The check of a value of the type. -/
theorem validate_integer (hp : p.type.IsTyped) (hdefines : Defines source p (integerBodies p limits))
    {v : Int} (hv : limits.typeRange.holds v = true) (depth : Nat) :
    (world source types (depth + 1)).validate (p.type.helper .validate) (.integer v) =
      some (decide (limits.low ≤ v ∧ v ≤ limits.high)) := by
  obtain ⟨answers, hanswered, hall⟩ :=
    boundTests_answers (world source types depth) (scopePlacement p.scope) hv
  rw [hdefines.validate_eq (isRun_statements (legible_integerBodies hp limits).validate), ← hall]
  exact run_conjunction hanswered rfl

/-- The type as it is spelled in its own scope. -/
theorem fill_here : (TypeName.owned (.here p.type.name)).line.fill (scopePlacement p.scope) =
    p.type.typePath := by
  rw [TypeName.line, Owner.typeLine, Line.fill_append, Line.fill_ofText, Line.fill_ofSlot,
    Placement.value, scopePlacement_scope]
  rfl

variable (source) in
/-- The JSON node as a value of the type. -/
theorem eval_jsonAs_here (hp : p.type.IsTyped)
    (htypes : types p.type.typePath = some (Scalar.integer limits).primitive) {env : Env}
    {node : JsonNode} {i : Int} (hjson : env.get? "json" = some (.json node))
    (hi : node.integer? = some i) (hrange : limits.typeRange.holds i = true) (depth : Nat) :
    (Expr.jsonAs (.owned (.here p.type.name))).eval (world source types depth)
      (scopePlacement p.scope) env = some (.integer i) := by
  have ht : (world source types depth).primitive? p.type.typePath =
      some (.integer (signFor limits.minimum) (widthFor limits.minimum limits.maximum)) := by
    rw [World.primitive?, Primitive.ofCppName?_eq_none hp.front, types_world, htypes]
    rfl
  rw [eval_jsonAs (fill_here.symm ▸ hp.isPath) hjson hi (fill_here.symm ▸ ht),
    convert_of_holds hrange]

theorem runAll_typeCheck_limits {w : World} {p : Placement} {env : Env} {node : JsonNode}
    (hjson : env.get? "json" = some (.json node)) (rest : List Stmt) :
    runAll w p env (typeCheck (Scalar.integer limits).primitive ++ rest) =
      if node.integer?.any limits.typeRange.holds = true then runAll w p env rest
      else some (.returned (.bool false) env) :=
  runAll_typeCheck_integer hjson _ _ rest

/-- A JSON node is checked as a value, if it holds an integer of the type. -/
theorem checkJson_integer (hp : p.type.IsTyped)
    (hdefines : Defines source p (integerBodies p limits))
    (htypes : types p.type.typePath = some (Scalar.integer limits).primitive) (node : JsonNode)
    (depth : Nat) :
    checkJson source types depth (p.type.helper .validate) node =
      match node.integer? with
      | some i => if limits.typeRange.holds i = true then
          (world source types depth).validate (p.type.helper .validate) (.integer i) else some false
      | none => some false := by
  have hjson : Entries.get? [("json", Value.json node)] "json" = some (.json node) := rfl
  rw [hdefines.checkJson_eq (isRun_statements (legible_integerBodies hp limits).validateJson),
    integerBodies, aliasBodies, runBody_statements, runAll_typeCheck_limits hjson]
  cases hi : node.integer? with
  | none => rfl
  | some i =>
    rw [Option.any_some]
    by_cases hrange : limits.typeRange.holds i = true
    · have hvalue := eval_jsonAs_here source hp htypes hjson hi hrange depth
      have hhere : (Owner.here p.type.name).helperText (scopePlacement p.scope) .validate =
          p.type.helper .validate := by
        rw [Owner.helperText, Owner.helperLine, Line.fill_append, Line.fill_ofText,
          Line.fill_ofSlot, Placement.value, scopePlacement_scope]
        rfl
      have hpath : IsPath ((Owner.here p.type.name).helperText (scopePlacement p.scope) .validate) :=
        hhere.symm ▸ hp.isPath_helper .validate
      rw [if_pos hrange, runAll_cons, Stmt.run_leave, Expr.eval_validate hpath hvalue, hhere]
      simp only [hrange, if_true]
      cases (world source types depth).validate (p.type.helper .validate) (.integer i) <;> rfl
    · rw [if_neg hrange]
      exact (if_neg hrange).symm

/-- A JSON node is read, if it holds an integer of the type, and this integer is written. -/
theorem readJson_integer (hp : p.type.IsTyped)
    (hdefines : Defines source p (integerBodies p limits))
    (htypes : types p.type.typePath = some (Scalar.integer limits).primitive) (node : JsonNode)
    (before : Value) (depth : Nat) :
    readJson source types depth (p.type.helper .jsonTo) node before =
      match node.integer? with
      | some i => if limits.typeRange.holds i = true then some (true, .integer i)
          else some (false, before)
      | none => some (false, before) := by
  have hjson : Entries.get? [("json", Value.json node), ("val", before)] "json" =
      some (.json node) := rfl
  rw [hdefines.readJson_eq (isRun_statements (legible_integerBodies hp limits).jsonTo),
    integerBodies, aliasBodies, runBody_statements, runAll_typeCheck_limits hjson]
  cases hi : node.integer? with
  | none => rfl
  | some i =>
    rw [Option.any_some]
    by_cases hrange : limits.typeRange.holds i = true
    · have hvalue := eval_jsonAs_here source hp htypes hjson hi hrange depth
      rw [if_pos hrange, runAll_cons, Stmt.run_assign hvalue]
      simp only [hrange, if_true]
      rfl
    · rw [if_neg hrange]
      exact (if_neg hrange).symm

end

/-- **Helpers of integers.** The lines of the code of an integer with consistent bounds are read as
functions and run. Then the check of a value of its type says whether the value is between the
bounds. The check of a JSON integer says the same of the integer, and reading it succeeds exactly if
it belongs to the type, and then gives this integer. Every other JSON node is rejected by both. -/
theorem integer_helpers_exact {location : Location} {limits : Limits Int}
    (h : (Node.scalar (.integer limits)).check location = .ok ()) (target : Target)
    {around : List String} {name : String} (hnames : ∀ n ∈ around ++ [name], isIdentifier n = true) :
    let p : Place := ⟨around, name, .scalar (.integer limits)⟩
    let primitive := (Scalar.integer limits).primitive
    let code := (aliasFragment target p.type.name (.integer limits) primitive).place
      (scopePlacement p.scope)
    let source := code.definitions
    let types := typedefs p.scope code.forward
    primitive.range? = some limits.typeRange ∧ types p.type.typePath = some primitive ∧
      (∀ depth v, limits.typeRange.holds v = true →
        (world source types (depth + 1)).validate (p.type.helper .validate) (.integer v) =
          some (decide (limits.low ≤ v ∧ v ≤ limits.high))) ∧
      (∀ depth node i, node.integer? = some i →
        checkJson source types (depth + 1) (p.type.helper .validate) node =
          some (decide (limits.low ≤ i ∧ i ≤ limits.high))) ∧
      (∀ depth node i before, node.integer? = some i →
        readJson source types depth (p.type.helper .jsonTo) node before =
          if limits.typeRange.holds i then some (true, .integer i) else some (false, before)) ∧
      (∀ depth node before, node.integer? = none →
        checkJson source types depth (p.type.helper .validate) node = some false ∧
          readJson source types depth (p.type.helper .jsonTo) node before =
            some (false, before)) := by
  intro p primitive code source types
  have hp : p.type.IsTyped := isTyped_of_path hnames
  have hsource : source = (p.functions target).flatMap GeneratedFunction.lines := by
    have hdefinitions := definitions_eq target around name (.scalar (.integer limits))
    rw [Node.postorder, List.flatMap_singleton] at hdefinitions
    exact hdefinitions
  have hdefines : Defines source p (integerBodies p limits) := by
    rw [hsource]
    exact Place.defines hp rfl
  have htypes : types p.type.typePath = some (Scalar.integer limits).primitive := by
    have hforward : code.forward =
        ["typedef " ++ (Scalar.integer limits).primitive.cppName ++ " " ++ p.type.name ++ ";"] := by
      simp only [code, primitive, aliasFragment, Fragment.place, List.map_cons, List.map_nil,
        Line.fill_ofText]
    have htype : IsTypeName p.type.name :=
      hp _ (List.mem_append_right _ (List.mem_singleton.mpr rfl))
    exact typedefs_integer hforward htype.isWord
  have hconsistent := Limits.consistent_of_check h
  obtain ⟨hlow, hhigh⟩ := hconsistent.low_high
  refine ⟨rfl, htypes, fun depth v hv => validate_integer hp hdefines hv depth, ?_, ?_, ?_⟩
  · intro depth node i hi
    rw [checkJson_integer hp hdefines htypes, hi]
    by_cases hrange : limits.typeRange.holds i = true
    · simp only [hrange, if_true]
      exact validate_integer hp hdefines hrange depth
    · have hout : ¬ (limits.low ≤ i ∧ i ≤ limits.high) := by
        intro hbetween
        exact hrange (IntRange.holds_iff.mpr (by omega))
      rw [decide_eq_false hout]
      exact if_neg hrange
  · intro depth node i before hi
    rw [readJson_integer hp hdefines htypes, hi]
  · intro depth node before hi
    rw [checkJson_integer hp hdefines htypes, readJson_integer hp hdefines htypes, hi]
    exact ⟨rfl, rfl⟩

/-- An integer that is stored in 16 bits without sign. -/
def portExample : Place :=
  ⟨[], "port", .scalar (.integer ⟨some 5, some 300, some 7⟩)⟩

theorem portExample_helpers :
    let code := (aliasFragment Options.default.target "Port" (.integer ⟨some 5, some 300, some 7⟩)
      (.integer false .w16)).place (scopePlacement [])
    let types := typedefs [] code.forward
    checkJson code.definitions types 1 "ValidatePort" (.unsigned 300) = some true ∧
      checkJson code.definitions types 1 "ValidatePort" (.signed 301) = some false ∧
      readJson code.definitions types 0 "JsonToPort" (.signed 301) .blank =
        some (true, .integer 301) ∧
      readJson code.definitions types 0 "JsonToPort" (.unsigned 65536) .blank =
        some (false, .blank) ∧
      checkJson code.definitions types 0 "ValidatePort" (.text "7") = some false := by
  have hcheck : (Node.scalar (.integer ⟨some 5, some 300, some 7⟩)).check [] = .ok () := by
    decide
  have hnames : ∀ n ∈ [] ++ ["port"], isIdentifier n = true := by decide
  obtain ⟨-, -, -, hjson, hread, hother⟩ :=
    integer_helpers_exact hcheck Options.default.target hnames
  have hvalidate : portExample.type.helper .validate = "ValidatePort" := by decide
  have hjsonTo : portExample.type.helper .jsonTo = "JsonToPort" := by decide
  refine ⟨?_, ?_, ?_, ?_, ?_⟩
  · exact hvalidate ▸ (hjson 0 (.unsigned 300) 300 rfl).trans (by decide)
  · exact hvalidate ▸ (hjson 0 (.signed 301) 301 rfl).trans (by decide)
  · exact hjsonTo ▸ (hread 0 (.signed 301) 301 .blank rfl).trans (if_pos (by decide))
  · exact hjsonTo ▸ (hread 0 (.unsigned 65536) 65536 .blank rfl).trans
      (if_neg (by decide))
  · exact hvalidate ▸ (hother 0 (.text "7") .blank rfl).1

end ConfigForge
