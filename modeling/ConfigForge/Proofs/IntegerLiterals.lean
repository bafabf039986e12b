import ConfigForge.Proofs.ConstantExpressions
import ConfigForge.Proofs.IndexedNames
import ConfigForge.Proofs.InitialValues
import ConfigForge.Proofs.MemberEntries

/-!
# Integer literals

An integer is written for a type. Types of 64 bits have a suffix, and all others none. A negative
integer is written as the negation of its magnitude, which has to be a number of the suffix. This
fails for one integer only, the least one of 64 bits, and that one is written as a difference. So
every integer of a type is written as an expression that has the integer as its value, whatever the
widths of `int` and `long` are.

The code of an integer has literals in three places: the value that `Init` assigns, the bounds that
`Validate` compares a value with, and the ends of the type in the check of JSON nodes. They are read
here from the lines of the code.

Results:

* `isOperand_integerLiteral`: a literal is read as one operand, in whatever expression it stands.
* `exists_value?_literalExpr`: the value of the literal of an integer is the integer.
* `numbersIn_assign`, `numbersIn_validate`, `numbersIn_typeCheck`: the numbers in the code.
* `integer_literals_exact`: literals are the integers that they are written for.
-/

namespace ConfigForge

open Code (Line Placement)
open Emit Cpp

namespace Cpp

open Reading

/-! ## Literals as expressions -/

/-- The expression that the literal of an integer is. -/
def literalExpr (v : Int) (type : Primitive) : ConstExpr :=
  if IsLowest v type then
    .difference (.negation (.numeral (.decimal 9223372036854775807 .ll)))
      (.numeral (.decimal 1 .plain))
  else if 0 ≤ v then .numeral (.decimal v.natAbs (literalSuffix type))
  else .negation (.numeral (.decimal v.natAbs (literalSuffix type)))

theorem isOperand_magnitude (v : Int) (type : Primitive) :
    IsOperand [(magnitude v type).toList] (.numeral (.decimal v.natAbs (literalSuffix type))) := by
  refine IsOperand.numeral ?_
  rw [magnitude, String.toList_append, readNumeral?_toString]

/-- The tokens of a literal. -/
theorem tokens_integerLiteral (v : Int) (type : Primitive) :
    tokens (integerLiteral v type) =
      if IsLowest v type then
        ["(", "-", "9223372036854775807LL", "-", "1", ")"].map String.toList
      else if 0 ≤ v then [(magnitude v type).toList]
      else [['-'], (magnitude v type).toList] := by
  have hword := isWord_magnitude v type
  by_cases hlowest : IsLowest v type
  · rw [if_pos hlowest, integerLiteral_of_isLowest hlowest]
    decide
  · rw [if_neg hlowest, integerLiteral_of_not_isLowest hlowest]
    by_cases hv : 0 ≤ v
    · rw [if_neg (by simpa using hv), if_pos hv, String.empty_append, (CutInto.word hword).tokens_eq]
    · have hminus : CutInto "-" [['-']] := .token (by decide)
      have hsign : signOf? unarySigns ['-'] = some .minus := rfl
      have hstop : Stops ['-'] (magnitude v type) := stops_of_head? hword.head? fun c hc =>
        goesOn_unarySign hsign (by rw [opensOperand, hc]; rfl)
      rw [if_pos (by simpa using hv), if_neg hv, (hminus.append (.word hword) hstop).tokens_eq]
      rfl

/-- **Reading.** A literal is read as one operand, in whatever expression it stands. -/
theorem isOperand_integerLiteral (v : Int) (type : Primitive) :
    IsOperand (tokens (integerLiteral v type)) (literalExpr v type) := by
  rw [tokens_integerLiteral, literalExpr]
  split_ifs
  · have hgreatest : IsOperand ["9223372036854775807LL".toList]
        (.numeral (.decimal 9223372036854775807 .ll)) := .numeral (by decide)
    have hone : IsOperand ["1".toList] (.numeral (.decimal 1 .plain)) := .numeral (by decide)
    exact hgreatest.negation.difference hone
  · exact isOperand_magnitude v type
  · exact (isOperand_magnitude v type).negation

/-! ## Values of literals -/

/-- The magnitude of an integer of a type is in reach of the suffix, with one exception. -/
theorem inReach_natAbs {signed : Bool} {width : Width} {v : Int}
    (h : (integerRange signed width).holds v = true)
    (hlowest : ¬ IsLowest v (.integer signed width)) :
    (Numeral.decimal v.natAbs (literalSuffix (.integer signed width))).InReach := by
  have hcases := Int.natAbs_eq v
  generalize v.natAbs = n at hcases ⊢
  revert h hlowest
  -- only at 64 bits with sign the magnitude can be out of reach
  cases signed <;> cases width <;>
    simp [Numeral.InReach, Numeral.decimal, literalSuffix, IsLowest, wideSigned, integerRange,
      IntRange.holds, Width.bits] <;> omega

theorem literalSuffix_ne_ull {width : Width} : literalSuffix (.integer true width) ≠ .ull := by
  cases width <;> decide

/-- Every number in the literal of an integer is in reach of its suffix. -/
theorem inReach_of_mem_literalExpr {signed : Bool} {width : Width} {v : Int}
    (h : (integerRange signed width).holds v = true) :
    ∀ n ∈ (literalExpr v (.integer signed width)).numerals, n.InReach := by
  rw [literalExpr]
  split_ifs with hlowest
  · intro n hn
    rcases List.mem_cons.mp hn with rfl | hn
    · exact .inl ⟨.inr rfl, by decide⟩
    · obtain rfl := List.mem_singleton.mp hn
      exact .inl ⟨.inl rfl, by decide⟩
  · exact List.forall_mem_singleton.mpr (inReach_natAbs h hlowest)
  · exact List.forall_mem_singleton.mpr (inReach_natAbs h hlowest)

/-- The least integer of 64 bits, from the greatest. -/
theorem exists_value?_lowest (model : DataModel) :
    ∃ a, (ConstExpr.difference (.negation (.numeral (.decimal 9223372036854775807 .ll)))
        (.numeral (.decimal 1 .plain))).value? model = some a ∧
      a.value = (integerRange true .w64).low ∧ a.type.signed = true := by
  -- a number with `LL` has only one possible type, so the difference is taken in 64 bits
  have hneg : ((ConstExpr.numeral (.decimal 9223372036854775807 .ll)).negation).value? model =
      some ⟨⟨true, .w64⟩, -9223372036854775807, by decide⟩ := rfl
  obtain ⟨one, hone, hvalue, hsign⟩ :=
    Numeral.value?_signed model (n := 1) (s := .plain) (.inl rfl) (by decide)
  have hcommon : IntType.common ⟨true, .w64⟩ one.type = ⟨true, .w64⟩ := by
    obtain ⟨⟨signed, width⟩, _, _⟩ := one
    obtain rfl : signed = true := hsign
    cases width <;> rfl
  obtain ⟨a, ha, htype, hdifference⟩ :=
    IntValue.sub?_of_signed (a := ⟨⟨true, .w64⟩, -9223372036854775807, by decide⟩) rfl hsign
      (by rw [hcommon, hvalue]; decide)
  refine ⟨a, ?_, ?_, ?_⟩
  · rw [ConstExpr.value?, hneg, Option.bind_some, ConstExpr.value?, hone, Option.bind_some, ha]
  · rw [hdifference, hvalue]
    decide
  · rw [htype, hcommon]

/-- The negation of its magnitude is no expression for it. -/
example (model : DataModel) :
    (readConstant? "-9223372036854775808LL").bind (·.value? model) = none := rfl

/-- **Values.** The literal of an integer of a type has this integer as its value, and a type with
sign if the type has a sign. -/
theorem exists_value?_literalExpr (model : DataModel) {signed : Bool} {width : Width} {v : Int}
    (h : (integerRange signed width).holds v = true) :
    ∃ a, (literalExpr v (.integer signed width)).value? model = some a ∧ a.value = v ∧
      (signed = true → a.type.signed = true) := by
  rw [literalExpr]
  split_ifs with hlowest hv
  · obtain ⟨a, ha, hvalue, hsign⟩ := exists_value?_lowest model
    exact ⟨a, ha, hvalue.trans hlowest.2.symm, fun _ => hsign⟩
  · obtain ⟨a, ha, hvalue, hsign⟩ := Numeral.value?_of_inReach model (inReach_natAbs h hlowest)
    refine ⟨a, ha, by omega, ?_⟩
    rintro rfl
    exact hsign literalSuffix_ne_ull
  · obtain rfl : signed = true := by
      by_contra hsigned
      rw [(Bool.not_eq_true _).mp hsigned] at h
      exact hv (IntRange.holds_iff.mp h).1
    obtain ⟨a, ha, hvalue, hsign⟩ := Numeral.value?_of_inReach model (inReach_natAbs h hlowest)
    obtain ⟨b, hb, hbsign, hbvalue⟩ :=
      IntValue.neg?_of_signed (hsign literalSuffix_ne_ull) (by omega)
    refine ⟨b, ?_, by omega, fun _ => hbsign⟩
    rw [ConstExpr.value?, ConstExpr.value?, ha, Option.bind_some, hb]

/-! ## Numbers in a line of code -/

/-- The signs that a number is assigned or compared with. -/
def boundSigns : List (List Char) :=
  ["=", "<", ">", "<=", ">="].map String.toList

/-- The tokens that end what a number is assigned to or compared with. -/
def operandEnds : List (List Char) :=
  [";", ")", "||", "&&"].map String.toList

/-- The constant at the front of tokens. It must be all that stands up to the next end. -/
def constantAt? (ts : List (List Char)) : Option ConstExpr :=
  match (start []).run ts with
  | some (e, next :: _) => if operandEnds.contains next then some e else none
  | _ => none

/-- The constants behind signs, with the signs. -/
def constants : List (List Char) → List (String × ConstExpr)
  | [] => []
  | t :: rest =>
    (if boundSigns.contains t then (constantAt? rest).map (String.ofList t, ·) else none).toList ++
      constants rest

/-- The numbers that a line assigns or compares with, and by which signs. -/
def numbersIn (model : DataModel) (line : String) : List (String × Option Int) :=
  (constants (tokens line)).map fun c => (c.1, (c.2.value? model).map IntValue.value)

/-- Tokens without signs have no constants. -/
theorem constants_append {ts : List (List Char)} (h : ts.all (!boundSigns.contains ·) = true)
    (rest : List (List Char)) : constants (ts ++ rest) = constants rest := by
  induction ts with
  | nil => rfl
  | cons t ts ih =>
    obtain ⟨ht, hts⟩ := (Bool.and_eq_true _ _).mp h
    rw [List.cons_append, constants, (Bool.not_eq_true' _).mp ht, ih hts]
    rfl

theorem not_boundSign_of_word {t : List Char} (h : ∀ c ∈ t, isWordChar c = true) :
    (!boundSigns.contains t) = true := by
  have hsigns : (boundSigns.all fun sign => !sign.all isWordChar) = true := by decide
  rw [Bool.not_eq_true', ← Bool.not_eq_true, List.contains_iff_mem]
  intro hmem
  have hnot := List.all_eq_true.mp hsigns t hmem
  rw [List.all_eq_true.mpr h] at hnot
  cases hnot

theorem not_boundSign_integerLiteral (v : Int) (type : Primitive) :
    (tokens (integerLiteral v type)).all (!boundSigns.contains ·) = true := by
  have hword := not_boundSign_of_word (isWord_magnitude v type).2
  rw [tokens_integerLiteral]
  split_ifs
  · decide
  · rw [List.all_cons, hword]
    rfl
  · rw [List.all_cons, List.all_cons, hword]
    decide

/-- A literal between a sign and an end. -/
theorem constants_integerLiteral {sign next : List Char} (hsign : boundSigns.contains sign = true)
    (hnext : operandEnds.contains next = true) (v : Int) (type : Primitive)
    (rest : List (List Char)) :
    constants (sign :: (tokens (integerLiteral v type) ++ next :: rest)) =
      (String.ofList sign, literalExpr v type) :: constants (next :: rest) := by
  have hat : constantAt? (tokens (integerLiteral v type) ++ next :: rest) =
      some (literalExpr v type) := by
    rw [constantAt?, (isOperand_integerLiteral v type).run_start]
    exact if_pos hnext
  rw [constants, if_pos hsign, hat, constants_append (not_boundSign_integerLiteral v type)]
  rfl

theorem tokens_boundSign {sign : String} (h : boundSigns.contains sign.toList = true) :
    tokens sign = [sign.toList] := by
  have hall : (boundSigns.all fun t => tokens (String.ofList t) = [t]) = true := by decide
  simpa using List.all_eq_true.mp hall _ (List.contains_iff_mem.mp h)

/-- Whether a text has no string literals and no constants behind signs, whatever follows the text. -/
structure Quiet (front : String) : Prop where
  quote : '"' ∉ front.toList
  constants : ∀ ts, constants (tokens front ++ ts) = constants ts

theorem Quiet.blank {front text : String} (hfront : Quiet front) (htext : Quiet text) :
    Quiet (front ++ " " ++ text) := by
  constructor
  · simp only [String.toList_append, List.mem_append, not_or]
    exact ⟨⟨hfront.quote, by decide⟩, htext.quote⟩
  · intro ts
    rw [String.append_assoc, tokens_append hfront.quote (separator_append _ _ (by decide)),
      tokens_blank, List.append_assoc, hfront.constants, htext.constants]

theorem quote_not_mem_boundSign {sign : String} (h : boundSigns.contains sign.toList = true) :
    '"' ∉ sign.toList := by
  have hall : (boundSigns.all fun t => !t.contains '"') = true := by decide
  simpa using List.all_eq_true.mp hall _ (List.contains_iff_mem.mp h)

theorem quote_not_mem_integerLiteral (v : Int) (type : Primitive) :
    '"' ∉ (integerLiteral v type).toList := by
  by_cases hlowest : IsLowest v type
  · rw [integerLiteral_of_isLowest hlowest]
    decide
  · have hmagnitude : '"' ∉ (magnitude v type).toList := fun hmem =>
      absurd ((isWord_magnitude v type).2 _ hmem) (by decide)
    rw [integerLiteral_of_not_isLowest hlowest, String.toList_append, List.mem_append, not_or]
    refine ⟨?_, hmagnitude⟩
    split <;> decide

/-- A line without signs has no numbers. -/
theorem numbersIn_of_all (model : DataModel) {line : String}
    (h : (tokens line).all (!boundSigns.contains ·) = true) : numbersIn model line = [] := by
  have hnone := constants_append h []
  rw [List.append_nil] at hnone
  rw [numbersIn, hnone]
  rfl

/-- **Lines.** A line with a literal behind a sign compares with, or assigns, the integer that the
literal is written for. -/
theorem numbersIn_around (model : DataModel) {front sign back : String} (hfront : Quiet front)
    (hsign : boundSigns.contains sign.toList = true)
    (hback : back.toList.head?.any isSeparator = true)
    (hend : (tokens back).head?.any operandEnds.contains = true) {signed : Bool} {width : Width}
    {v : Int} (h : (integerRange signed width).holds v = true) :
    numbersIn model (front ++ " " ++ sign ++ " " ++ integerLiteral v (.integer signed width) ++
      back) = (sign, some v) :: numbersIn model back := by
  have htokens : tokens (front ++ " " ++ sign ++ " " ++ integerLiteral v (.integer signed width) ++
      back) = tokens front ++
        (sign.toList :: (tokens (integerLiteral v (.integer signed width)) ++ tokens back)) := by
    have hcut := tokens_around hfront.quote (quote_not_mem_boundSign hsign) (separator_append " "
      (integerLiteral v (.integer signed width) ++ back) (by decide))
    rw [tokens_blank, tokens_append (quote_not_mem_integerLiteral _ _) hback,
      tokens_boundSign hsign] at hcut
    rw [String.append_assoc, String.append_assoc, hcut]
    rfl
  obtain ⟨a, ha, hvalue, -⟩ := exists_value?_literalExpr model h
  rw [numbersIn, htokens, hfront.constants]
  cases hnext : tokens back with
  | nil =>
    rw [hnext] at hend
    cases hend
  | cons next rest =>
    rw [hnext] at hend
    rw [constants_integerLiteral hsign hend, List.map_cons, numbersIn, hnext, ha,
      String.ofList_toList, Option.map_some, hvalue]

/-! ## The code of an integer -/

/-- The line of a statement in a body. -/
def bodyLine (p : Placement) (s : Stmt) : String :=
  "  " ++ s.line.fill p

/-- The numbers that the check of a type compares JSON integers with: its ends, where JSON integers
can be beyond them. -/
def rangeNumbers (range : IntRange) : List (String × Option Int) :=
  (if range.high < (integerRange false .w64).high then [(">", some range.high)] else []) ++
  (if (integerRange true .w64).low < range.low then [("<", some range.low)] else []) ++
  (if range.high < (integerRange true .w64).high then [(">", some range.high)] else [])

/-- The numbers that values are compared with: the bounds, where the type goes beyond them. -/
def boundNumbers (limits : Limits Int) (range : IntRange) : List (String × Option Int) :=
  ((limits.minimum.filter (range.low < ·)).map fun m => (">=", some m)).toList ++
  ((limits.maximum.filter (· < range.high)).map fun m => ("<=", some m)).toList

section

variable (model : DataModel) (p : Placement) {signed : Bool} {width : Width} {v : Int}

/-- The number that is assigned. -/
theorem numbersIn_assign (h : (integerRange signed width).holds v = true) :
    numbersIn model (bodyLine p (.assign (.deref .val) (.integer v (.integer signed width)))) =
      [("=", some v)] := by
  have hline : bodyLine p (.assign (.deref .val) (.integer v (.integer signed width))) =
      "  *val" ++ " " ++ "=" ++ " " ++ integerLiteral v (.integer signed width) ++ ";" := by
    apply String.toList_inj.mp
    simp [bodyLine, Stmt.line, Expr.line, Expr.val]
  rw [hline]
  exact numbersIn_around model ⟨by decide, fun _ => rfl⟩ (by decide) (by decide) (by decide) h

/-- A step of a conjunction that compares the value with a bound. -/
def boundStep (op : BinaryOp) (v : Int) (type : Primitive) : Stmt :=
  .assign (.var "result")
    (.binary .and (.var "result") (.paren (.binary op .val (.integer v type))))

/-- The number of a bound. -/
theorem numbersIn_boundStep {op : BinaryOp} (hop : boundSigns.contains op.sign.toList = true)
    (h : (integerRange signed width).holds v = true) :
    numbersIn model (bodyLine p (boundStep op v (.integer signed width))) =
      [(op.sign, some v)] := by
  have hline : bodyLine p (boundStep op v (.integer signed width)) = "  result = result && (val" ++
      " " ++ op.sign ++ " " ++ integerLiteral v (.integer signed width) ++ ");" := by
    apply String.toList_inj.mp
    simp [bodyLine, boundStep, Stmt.line, Expr.line, Expr.val, BinaryOp.sign]
  rw [hline]
  exact numbersIn_around model ⟨by decide, fun _ => rfl⟩ hop (by decide) (by decide) h

theorem bodyLine_rejectIf (condition : Expr) :
    bodyLine p (.rejectIf condition) =
      "  if (" ++ condition.line.fill p ++ ") return false;" := by
  apply String.toList_inj.mp
  simp [bodyLine, Stmt.rejectIf, Stmt.line, Expr.line, boolLiteral]

theorem fill_jsonIsUnsigned : jsonIsUnsigned.line.fill p = "json.is_number_unsigned()" := by
  apply String.toList_inj.mp
  simp [jsonIsUnsigned, Expr.ask, Expr.json, Expr.line]

/-- The comparison of a JSON integer, taken as an integer of 64 bits. -/
def jsonTest (op : BinaryOp) (v : Int) (type : Primitive) : Expr :=
  .binary op (jsonAsInteger type) (.integer v type)

theorem fill_jsonTest (op : BinaryOp) (v : Int) (type : Primitive) :
    (jsonTest op v type).line.fill p =
      "json.get<" ++ type.cppName ++ ">()" ++ " " ++ op.sign ++ " " ++ integerLiteral v type := by
  apply String.toList_inj.mp
  simp [jsonTest, jsonAsInteger, Expr.jsonAs, Expr.json, Expr.line, TypeName.line]

/-- The number of a comparison inside a line. -/
theorem numbersIn_jsonTest {front back : String} {op : BinaryOp}
    (hfront : Quiet (front ++ ("json.get<" ++ (Primitive.integer signed width).cppName ++ ">()")))
    (hsign : boundSigns.contains op.sign.toList = true)
    (hback : back.toList.head?.any isSeparator = true)
    (hend : (tokens back).head?.any operandEnds.contains = true)
    (h : (integerRange signed width).holds v = true) :
    numbersIn model (front ++ (jsonTest op v (.integer signed width)).line.fill p ++ back) =
      (op.sign, some v) :: numbersIn model back := by
  rw [fill_jsonTest, ← numbersIn_around model hfront hsign hback hend h]
  simp only [String.append_assoc]

/-- The number that JSON integers without sign are compared with. -/
theorem numbersIn_unsignedCheck {range : IntRange} (hzero : 0 ≤ range.high) :
    ((unsignedCheck range).map (bodyLine p)).flatMap (numbersIn model) =
      if range.high < (integerRange false .w64).high then [(">", some range.high)] else [] := by
  rw [unsignedCheck]
  split_ifs with hhigh
  · have hline : bodyLine p (.rejectIf (.binary .and jsonIsUnsigned
        (jsonTest .gt range.high wideUnsigned))) = "  if (json.is_number_unsigned() &&" ++ " " ++
          (jsonTest .gt range.high wideUnsigned).line.fill p ++ ") return false;" := by
      apply String.toList_inj.mp
      simp [bodyLine_rejectIf, fill_jsonIsUnsigned, Expr.line, BinaryOp.sign]
    have hholds : (integerRange false .w64).holds range.high = true :=
      IntRange.holds_iff.mpr ⟨hzero, by omega⟩
    have hquiet : Quiet "  if (json.is_number_unsigned() &&" := ⟨by decide, constants_append (by decide)⟩
    have hget : Quiet ("json.get<" ++ wideUnsigned.cppName ++ ">()") :=
      ⟨by decide, fun _ => rfl⟩
    rw [List.map_singleton, List.flatMap_singleton]
    exact (congrArg (numbersIn model) hline).trans (numbersIn_jsonTest model p (hquiet.blank hget)
      (by decide) (by decide) (by decide) hholds)
  · rfl

/-- The rejection of JSON integers with sign. -/
def signedReject (tests : Expr) : Stmt :=
  .rejectIf (.binary .and (.not jsonIsUnsigned) (.paren tests))

theorem bodyLine_signedReject (tests : Expr) :
    bodyLine p (signedReject tests) = "  if (!json.is_number_unsigned() &&" ++ " " ++ "(" ++
      tests.line.fill p ++ ")) return false;" := by
  apply String.toList_inj.mp
  simp [signedReject, bodyLine_rejectIf, fill_jsonIsUnsigned, Expr.line, BinaryOp.sign]

theorem quiet_signedReject :
    Quiet ("  if (!json.is_number_unsigned() &&" ++ " " ++ "(" ++
      ("json.get<" ++ wideSigned.cppName ++ ">()")) := by
  have hquiet : Quiet "  if (!json.is_number_unsigned() &&" := ⟨by decide, constants_append (by decide)⟩
  have hget : Quiet ("(" ++ ("json.get<" ++ wideSigned.cppName ++ ">()")) :=
      ⟨by decide, fun _ => rfl⟩
  rw [String.append_assoc]
  exact hquiet.blank hget

/-- One comparison that rejects. -/
theorem numbersIn_signedReject (op : BinaryOp) (hop : boundSigns.contains op.sign.toList = true)
    (h : (integerRange true .w64).holds v = true) :
    numbersIn model (bodyLine p (signedReject (jsonTest op v wideSigned))) =
      [(op.sign, some v)] := by
  rw [bodyLine_signedReject]
  exact numbersIn_jsonTest model p quiet_signedReject hop (by decide) (by decide) h

/-- Two comparisons of which one rejects. -/
theorem numbersIn_signedReject_or {low high : Int}
    (hlow : (integerRange true .w64).holds low = true)
    (hhigh : (integerRange true .w64).holds high = true) :
    numbersIn model (bodyLine p (signedReject (.binary .or (jsonTest .lt low wideSigned)
      (jsonTest .gt high wideSigned)))) = [("<", some low), (">", some high)] := by
  -- the line behind the first comparison, which is over at the sign between the two
  let second := " ||" ++ " " ++ (jsonTest .gt high wideSigned).line.fill p ++ ")) return false;"
  have hline : bodyLine p (signedReject (.binary .or (jsonTest .lt low wideSigned)
      (jsonTest .gt high wideSigned))) = "  if (!json.is_number_unsigned() &&" ++ " " ++ "(" ++
        (jsonTest .lt low wideSigned).line.fill p ++ second := by
    apply String.toList_inj.mp
    simp [bodyLine_signedReject, second, Expr.line, BinaryOp.sign]
  have hquiet : Quiet " ||" := ⟨by decide, constants_append (by decide)⟩
  have hget : Quiet ("json.get<" ++ wideSigned.cppName ++ ">()") :=
      ⟨by decide, fun _ => rfl⟩
  have hsecond : numbersIn model second = [(">", some high)] :=
    numbersIn_jsonTest model p (hquiet.blank hget) (by decide) (by decide) (by decide) hhigh
  have hseparator : second.toList.head?.any isSeparator = true := by
    simp only [second, String.append_assoc]
    exact separator_append _ _ (by decide)
  have hquote : '"' ∉ ((jsonTest .gt high wideSigned).line.fill p).toList := by
    rw [fill_jsonTest, String.toList_append, List.mem_append, not_or]
    exact ⟨by decide, quote_not_mem_integerLiteral _ _⟩
  have hend : (tokens second).head?.any operandEnds.contains = true := by
    have hbars : '"' ∉ " ||".toList := by decide
    rw [tokens_around hbars hquote (by decide)]
    rfl
  rw [hline, ← hsecond]
  exact numbersIn_jsonTest model p quiet_signedReject (by decide) hseparator hend hlow

/-- The numbers that JSON integers with sign are compared with. -/
theorem numbersIn_signedCheck {range : IntRange} (hlow : range.low ≤ 0) (hhigh : 0 ≤ range.high) :
    ((signedCheck range).map (bodyLine p)).flatMap (numbersIn model) =
      (if (integerRange true .w64).low < range.low then [("<", some range.low)] else []) ++
        if range.high < (integerRange true .w64).high then [(">", some range.high)] else [] := by
  have hleast : (integerRange true .w64).low ≤ 0 := by decide
  have hgreatest : 0 ≤ (integerRange true .w64).high := by decide
  rw [signedCheck, signedTests]
  split_ifs with hl hh hh
  · exact (List.flatMap_singleton ..).trans (numbersIn_signedReject_or model p
      (IntRange.holds_iff.mpr (by omega)) (IntRange.holds_iff.mpr (by omega)))
  · exact (List.flatMap_singleton ..).trans (numbersIn_signedReject model p .lt (by decide)
      (IntRange.holds_iff.mpr (by omega)))
  · exact (List.flatMap_singleton ..).trans (numbersIn_signedReject model p .gt (by decide)
      (IntRange.holds_iff.mpr (by omega)))
  · rfl

/-- The check of the type begins with a line without numbers. -/
theorem numbersIn_typeCheck (signed : Bool) (width : Width) :
    ((typeCheck (.integer signed width)).map (bodyLine p)).flatMap (numbersIn model) =
      rangeNumbers (integerRange signed width) := by
  have htag : numbersIn model (bodyLine p (.rejectIf (.not (Expr.json.ask "is_number_integer")))) =
      [] := by
    have hline : bodyLine p (.rejectIf (.not (Expr.json.ask "is_number_integer"))) =
        "  if (!json.is_number_integer()) return false;" := by
      apply String.toList_inj.mp
      simp [bodyLine_rejectIf, Expr.ask, Expr.json, Expr.line]
    rw [hline]
    exact numbersIn_of_all model (by decide)
  obtain ⟨hlow, hhigh⟩ := integerRange_zero signed width
  rw [typeCheck, List.cons_append, List.map_cons, List.flatMap_cons, htag, List.nil_append,
    List.map_append, List.flatMap_append, numbersIn_unsignedCheck model p hhigh,
    numbersIn_signedCheck model p hlow hhigh, rangeNumbers, List.append_assoc]

/-- A conjunction has the numbers of its conditions. -/
theorem numbersIn_conjunction (conditions : List Expr) :
    ((conjunction conditions).map (bodyLine p)).flatMap (numbersIn model) =
      conditions.flatMap fun c => numbersIn model
        (bodyLine p (.assign (.var "result") (.binary .and (.var "result") c))) := by
  have hdiscard : numbersIn model (bodyLine p (.discard "val")) = [] := by
    rw [bodyLine, line_discard]
    exact numbersIn_of_all model (by decide)
  have haccept : numbersIn model (bodyLine p .accept) = [] := by
    rw [bodyLine, line_accept]
    exact numbersIn_of_all model (by decide)
  have hdeclare : numbersIn model (bodyLine p (.declare (.plain "bool") "result" (.bool true))) =
      [] := by
    have hline : bodyLine p (.declare (.plain "bool") "result" (.bool true)) =
        "  bool result = true;" := by
      apply String.toList_inj.mp
      simp [bodyLine, Stmt.line, Expr.line, TypeName.line, boolLiteral]
    rw [hline]
    rfl
  have hleave : numbersIn model (bodyLine p (.leave (.var "result"))) = [] := by
    have hline : bodyLine p (.leave (.var "result")) = "  return result;" := by
      apply String.toList_inj.mp
      simp [bodyLine, Stmt.line, Expr.line]
    rw [hline]
    exact numbersIn_of_all model (by decide)
  rw [conjunction]
  split_ifs with hempty
  · rw [List.isEmpty_iff.mp hempty, List.map_cons, List.map_singleton, List.flatMap_cons,
      List.flatMap_singleton, hdiscard, haccept]
    rfl
  · simp only [List.cons_append, List.map_cons, List.map_append, List.map_map, List.map_nil,
      List.flatMap_cons, List.flatMap_append, List.flatMap_nil, hdeclare, hleave, List.append_nil,
      List.nil_append, List.flatMap_map, Function.comp_def]

/-- The number of a bound, if there is one. -/
theorem numbersIn_bound (op : BinaryOp) (hop : boundSigns.contains op.sign.toList = true)
    {bound : Option Int} (h : ∀ m, bound = some m → (integerRange signed width).holds m = true) :
    (((bound.map fun m => Expr.binary op .val (.integer m (.integer signed width))).toList.map
      Expr.paren).flatMap fun c => numbersIn model
        (bodyLine p (.assign (.var "result") (.binary .and (.var "result") c)))) =
      (bound.map fun m => (op.sign, some m)).toList := by
  cases bound with
  | none => rfl
  | some m => exact (List.flatMap_singleton ..).trans (numbersIn_boundStep model p hop (h m rfl))

end

end Cpp

/-- Limits whose numbers a type holds: both bounds and the initial value. -/
structure Limits.FitIn (limits : Limits Int) (range : IntRange) : Prop where
  minimum : ∀ m, limits.minimum = some m → range.holds m = true
  maximum : ∀ m, limits.maximum = some m → range.holds m = true
  start : range.holds (limits.default.getD (zeroWithin limits)) = true

theorem Limits.Consistent.fitIn {limits : Limits Int} (h : limits.Consistent) :
    limits.FitIn limits.typeRange where
  minimum := h.minimum
  maximum := h.maximum
  start := by
    obtain ⟨hlow, hhigh⟩ := h.low_high
    obtain ⟨hstart, hstart'⟩ := h.start_between
    exact IntRange.holds_iff.mpr ⟨by omega, by omega⟩

section

variable {limits : Limits Int} {signed : Bool} {width : Width}

/-- The numbers that `Validate` compares a value with. -/
theorem numbersIn_validate (model : DataModel) (p : Placement)
    (h : limits.FitIn (integerRange signed width)) :
    ((conjunction ((boundTests (.integer limits) (.integer signed width)).map Expr.paren)).map
      (bodyLine p)).flatMap (numbersIn model) =
        boundNumbers limits (integerRange signed width) := by
  have hmin : ∀ m, limits.minimum.filter (fun m => decide ((integerRange signed width).low < m)) =
      some m → (integerRange signed width).holds m = true := fun m hm =>
    h.minimum m (Option.filter_eq_some_iff.mp hm).1
  have hmax : ∀ m, limits.maximum.filter (fun m => decide (m < (integerRange signed width).high)) =
      some m → (integerRange signed width).holds m = true := fun m hm =>
    h.maximum m (Option.filter_eq_some_iff.mp hm).1
  rw [numbersIn_conjunction, boundTests, List.map_append, List.flatMap_append]
  exact congrArg₂ (· ++ ·) (numbersIn_bound model p .ge (by decide) hmin)
    (numbersIn_bound model p .le (by decide) hmax)

/-- The lines of a function at a place. -/
def functionLines (p : Placement) (s : Signature) (body : List String) : List String :=
  s.head.fill p :: body ++ ["\x7d", ""]

theorem bodyLine_answer (p : Placement) (type : String) :
    bodyLine p (.leave (.callHelper .validate (.here type) (.jsonAs (.owned (.here type))))) =
      "  return " ++ p.scope ++ "Validate" ++ type ++ "(json.get<" ++ p.scope ++ type ++
        ">());" := by
  apply String.toList_inj.mp
  simp [bodyLine, Stmt.line, Expr.callHelper, Expr.jsonAs, Expr.json, Expr.line, Owner.helperLine,
    TypeName.line, Owner.typeLine, Placement.value, Helper.name]

theorem bodyLine_write (p : Placement) :
    bodyLine p (.assign (.deref .json) .val) = "  *json = val;" := by
  apply String.toList_inj.mp
  simp [bodyLine, Stmt.line, Expr.json, Expr.val, Expr.line]

theorem bodyLine_read (p : Placement) (type : String) :
    bodyLine p (.assign (.deref .val) (.jsonAs (.owned (.here type)))) =
      "  *val = json.get<" ++ p.scope ++ type ++ ">();" := by
  apply String.toList_inj.mp
  simp [bodyLine, Stmt.line, Expr.jsonAs, Expr.json, Expr.val, Expr.line, TypeName.line,
    Owner.typeLine, Placement.value]

/-- The lines of the code of an integer. -/
theorem definitions_integer (target : Target) (type : String) (limits : Limits Int)
    (primitive : Primitive) (p : Placement) :
    ((aliasFragment target type (.integer limits) primitive).place p).definitions =
      functionLines p (initSignature type)
        [bodyLine p (.assign (.deref .val)
          (.integer (limits.default.getD (zeroWithin limits)) primitive))] ++
      functionLines p (validateSignature type)
        ((conjunction ((boundTests (.integer limits) primitive).map Expr.paren)).map
          (bodyLine p)) ++
      functionLines p (validateJsonSignature target type)
        ((typeCheck primitive).map (bodyLine p) ++
          ["  return " ++ p.scope ++ "Validate" ++ type ++ "(json.get<" ++ p.scope ++ type ++
            ">());"]) ++
      functionLines p (toJsonSignature target type) ["  *json = val;", "  return true;"] ++
      functionLines p (jsonToSignature target type)
        ((typeCheck primitive).map (bodyLine p) ++
          ["  *val = json.get<" ++ p.scope ++ type ++ ">();", "  return true;"]) := by
  have hfunctions : ((aliasFragment target type (.integer limits) primitive).place p).definitions =
      (helperFunctions target type (aliasBodies type (.integer limits) primitive)).flatMap fun f =>
        functionLines p f.signature (bodyLines p f.body) := by
    simp only [aliasFragment, Code.Fragment.place, List.map_flatMap, fill_functionLines]
    rfl
  have hlines : ∀ stmts, bodyLines p (statements stmts) = stmts.map (bodyLine p) :=
    bodyLines_statements p
  have haccept : bodyLine p .accept = "  return true;" := line_accept p
  rw [hfunctions]
  simp only [helperFunctions, aliasBodies, List.flatMap_cons, List.flatMap_nil, List.append_nil,
    hlines, List.map_append, List.map_cons, List.map_nil, haccept, bodyLine_answer, bodyLine_write,
    bodyLine_read, initialValue, List.append_assoc]

/-- A value of a type is compared with the literal of an integer of the type as with the integer. -/
theorem compare?_literal (model : DataModel) {v : Int} {a c : IntValue}
    (h : (integerRange signed width).holds v = true) (ha : a.type = ⟨signed, width⟩)
    (hvalue : c.value = v) (hsign : signed = true → c.type.signed = true) (op : BinaryOp) :
    model.compare? op a c = op.compare? (.integer a.value) (.integer v) := by
  have hholds : (integerRange signed width).holds a.value = true := by
    have hrange := a.holds
    rwa [ha] at hrange
  rw [← hvalue]
  cases signed with
  | true => exact model.compare?_exact op (.inl (hsign rfl)) (.inl (by rw [ha]))
  | false =>
    have hv : 0 ≤ c.value := hvalue ▸ (IntRange.holds_iff.mp h).1
    exact model.compare?_exact op (.inr (IntRange.holds_iff.mp hholds).1) (.inr hv)

end

/-- **Integer literals.** On every platform, the literal of an integer of a type is read as a
constant expression with the integer as its value, also as an operand among other tokens, and every
number in it is in reach of its suffix.
Assigned to the type it stays the same, and values of the type are compared with it as with the
integer. So different integers of a type have different literals, and the numbers in the code of an
integer are the initial value, the bounds and the ends of the type, if the type holds them, which it
does whenever the limits pass the check. -/
theorem integer_literals_exact (model : DataModel) :
    (∀ signed width v, (integerRange signed width).holds v = true →
      ∃ e c, readConstant? (integerLiteral v (.integer signed width)) = some e ∧
        IsOperand (tokens (integerLiteral v (.integer signed width))) e ∧
        e.value? model = some c ∧ c.value = v ∧ (∀ n ∈ e.numerals, n.InReach) ∧
        IntType.wrap ⟨signed, width⟩ c.value = v ∧
        ∀ a : IntValue, a.type = ⟨signed, width⟩ → ∀ op : BinaryOp,
          model.compare? op a c = op.compare? (.integer a.value) (.integer v)) ∧
    (∀ signed width v v', (integerRange signed width).holds v = true →
      (integerRange signed width).holds v' = true →
      integerLiteral v (.integer signed width) = integerLiteral v' (.integer signed width) →
      v = v') ∧
    (∀ signed width (limits : Limits Int), limits.FitIn (integerRange signed width) →
      ∀ (target : Target) (type : String) (p : Placement), ∃ start checks rejections,
        ((aliasFragment target type (.integer limits) (.integer signed width)).place
          p).definitions =
          functionLines p (initSignature type) [start] ++
          functionLines p (validateSignature type) checks ++
          functionLines p (validateJsonSignature target type) (rejections ++
            ["  return " ++ p.scope ++ "Validate" ++ type ++ "(json.get<" ++ p.scope ++ type ++
              ">());"]) ++
          functionLines p (toJsonSignature target type) ["  *json = val;", "  return true;"] ++
          functionLines p (jsonToSignature target type) (rejections ++
            ["  *val = json.get<" ++ p.scope ++ type ++ ">();", "  return true;"]) ∧
        numbersIn model start = [("=", some (limits.default.getD (zeroWithin limits)))] ∧
        checks.flatMap (numbersIn model) = boundNumbers limits (integerRange signed width) ∧
        rejections.flatMap (numbersIn model) = rangeNumbers (integerRange signed width)) ∧
    ∀ (limits : Limits Int) (location : Location),
      (Node.scalar (.integer limits)).check location = .ok () →
      ∃ signed width, (Scalar.integer limits).primitive = .integer signed width ∧
        limits.FitIn (integerRange signed width) := by
  refine ⟨?_, ?_, ?_, ?_⟩
  · intro signed width v h
    obtain ⟨c, hc, hvalue, hsign⟩ := exists_value?_literalExpr model h
    have hoperand := isOperand_integerLiteral v (.integer signed width)
    refine ⟨_, c, hoperand.readConstant?, hoperand, hc, hvalue, inReach_of_mem_literalExpr h, ?_,
      fun a ha op => compare?_literal model h ha hvalue hsign op⟩
    rw [hvalue]
    exact IntType.wrap_of_holds (t := ⟨signed, width⟩) h
  · intro signed width v v' h h' hsame
    obtain ⟨c, hc, hvalue, -⟩ := exists_value?_literalExpr model h
    obtain ⟨c', hc', hvalue', -⟩ := exists_value?_literalExpr model h'
    have hread := (isOperand_integerLiteral v (.integer signed width)).readConstant?
    rw [hsame, (isOperand_integerLiteral v' (.integer signed width)).readConstant?] at hread
    rw [← Option.some.inj hread, hc', Option.some.injEq] at hc
    rw [← hvalue, ← hvalue', hc]
  · intro signed width limits hfit target type p
    exact ⟨_, _, _, definitions_integer target type limits _ p, numbersIn_assign model p hfit.start,
      numbersIn_validate model p hfit, numbersIn_typeCheck model p signed width⟩
  · intro limits location hcheck
    exact ⟨_, _, rfl, (Limits.consistent_of_check hcheck).fitIn⟩

/-- A platform on which `long` is as wide as `int`. -/
def shortLong : DataModel :=
  ⟨.w32, .w32⟩

/-- An integer that starts with the least value of 64 bits. -/
def depthExample : Limits Int :=
  ⟨some (-9223372036854775808), some 4000000000, some (-9223372036854775808)⟩

theorem depthExample_numbers :
    (Node.scalar (.integer depthExample)).check [] = .ok () ∧
      (∃ e c, readConstant? "(-9223372036854775807LL - 1)" = some e ∧
        e.value? shortLong = some c ∧ c.value = -9223372036854775808) ∧
      ∃ start checks rejections : List String,
        start ++ checks ++ rejections ⊆ ((aliasFragment Options.default.target "Depth"
          (.integer depthExample) (.integer true .w64)).place .topLevel).definitions ∧
        start.flatMap (numbersIn shortLong) = [("=", some (-9223372036854775808))] ∧
        checks.flatMap (numbersIn shortLong) = [("<=", some 4000000000)] ∧
        rejections.flatMap (numbersIn shortLong) = [(">", some 9223372036854775807)] := by
  have hcheck : (Node.scalar (.integer depthExample)).check [] = .ok () := by decide
  obtain ⟨hvalues, -, hcode, hfit⟩ := integer_literals_exact shortLong
  obtain ⟨e, c, hread, -, hc, hvalue, -⟩ := hvalues true .w64 (-9223372036854775808) (by decide)
  obtain ⟨signed, width, htype, hfit⟩ := hfit depthExample [] hcheck
  have hwide : (Scalar.integer depthExample).primitive = .integer true .w64 := by decide
  obtain ⟨rfl, rfl⟩ := Primitive.integer.inj (htype.symm.trans hwide)
  obtain ⟨start, checks, rejections, hlines, hstart, hchecks, hrejections⟩ :=
    hcode true .w64 depthExample hfit Options.default.target "Depth" .topLevel
  refine ⟨hcheck, ⟨e, c, hread, hc, hvalue⟩, [start], checks, rejections, ?_, ?_, ?_, ?_⟩
  · rw [hlines]
    intro line hline
    simp only [List.mem_append, List.mem_singleton] at hline
    simp only [functionLines, List.mem_append, List.mem_cons]
    tauto
  · rw [List.flatMap_singleton, hstart]
    decide
  · rw [hchecks]
    decide
  · rw [hrejections]
    decide

end ConfigForge
