import ConfigForge.Emit.TypeFunctions
import ConfigForge.Schema.Node

/-!
# Code of scalars

A scalar becomes a typedef of its primitive type. `Init` assigns the default, or else the value
nearest to zero within the bounds. `Validate` checks the bounds that the type does not imply. The
JSON helpers first check that the node holds a value of the type.
-/

namespace ConfigForge.Emit

open Code (Line Fragment)
open Cpp

/-! ## JSON nodes that hold a value of a type -/

/-- The type of JSON integers without sign. -/
def wideUnsigned : Primitive := .integer false .w64

/-- The type of JSON integers with sign. -/
def wideSigned : Primitive := .integer true .w64

/-- The test whether a JSON integer is held without sign. -/
def jsonIsUnsigned : Expr :=
  Expr.json.ask "is_number_unsigned"

/-- The JSON node as an integer of 64 bits. -/
def jsonAsInteger (type : Primitive) : Expr :=
  Expr.jsonAs (.plain type.cppName)

/-- The rejection of JSON integers without sign that are too large. -/
def unsignedCheck (range : IntRange) : List Stmt :=
  if range.high < (integerRange false .w64).high then
    [.rejectIf (.binary .and jsonIsUnsigned
      (.binary .gt (jsonAsInteger wideUnsigned) (.integer range.high wideUnsigned)))]
  else []

/-- The comparisons that reject JSON integers with sign. -/
def signedTests (range : IntRange) : List Expr :=
  (if (integerRange true .w64).low < range.low then
    [.binary .lt (jsonAsInteger wideSigned) (.integer range.low wideSigned)] else []) ++
  (if range.high < (integerRange true .w64).high then
    [.binary .gt (jsonAsInteger wideSigned) (.integer range.high wideSigned)] else [])

/-- The rejection of JSON integers with sign that are out of range. -/
def signedCheck (range : IntRange) : List Stmt :=
  match signedTests range with
  | [] => []
  | test :: tests =>
    [.rejectIf (.binary .and (.not jsonIsUnsigned)
      (.paren (tests.foldl (fun e t => .binary .or e t) test)))]

/-- The statements that reject a JSON node that holds no value of a type (`json_type_check`). -/
def typeCheck (type : Primitive) : List Stmt :=
  let requireTag (tag : String) : Stmt := .rejectIf (.not (Expr.json.ask tag))
  match type with
  | .bool => [requireTag "is_boolean"]
  | .string => [requireTag "is_string"]
  | .double => [requireTag "is_number"]
  | .integer signed width =>
    requireTag "is_number_integer" ::
      unsignedCheck (integerRange signed width) ++ signedCheck (integerRange signed width)

/-! ## Initial values -/

/-- Zero moved into the bounds of an integer (`integer_zero`). -/
def zeroWithin (limits : Limits Int) : Int :=
  let raised := (limits.minimum.map (max 0)).getD 0
  (limits.maximum.map (min raised)).getD raised

/-- Zero moved into the bounds of a number (`number_zero`): a minimum above it and then a maximum
below it take its place. A NaN is above and below nothing. -/
def numberZeroWithin (limits : Limits Binary64) : Binary64 :=
  let raised := match limits.minimum with
    | some minimum => if Binary64.zero.lt minimum then minimum else Binary64.zero
    | none => Binary64.zero
  match limits.maximum with
  | some maximum => if maximum.lt raised then maximum else raised
  | none => raised

/-- A text as the initial value of a string. A text with a NUL needs its length in bytes. -/
def textValue (s : String) : Expr :=
  if s.toList.contains (Char.ofNat 0) then
    .call (.type (.plain "std::string")) (.comma (.text s) (.count s.utf8ByteSize))
  else .text s

/-- The value that `Init` assigns (`initial_value`). -/
def initialValue (s : Scalar) (type : Primitive) : Expr :=
  match s with
  | .bool value => .bool (value.getD false)
  | .integer limits => .integer (limits.default.getD (zeroWithin limits)) type
  | .number limits => .double (limits.default.getD (numberZeroWithin limits))
  | .string value => textValue (value.getD "")

/-! ## Bounds -/

/-- The integers that a bound may come from. -/
def widestRange : IntRange :=
  ⟨-(1 <<< 127 : Nat), (1 <<< 127 : Nat) - 1⟩

/-- The comparisons with the bounds that the type does not imply (`bound_checks`). -/
def boundTests (s : Scalar) (type : Primitive) : List Expr :=
  match s with
  | .integer limits =>
    let range := type.range?.getD widestRange
    ((limits.minimum.filter (range.low < ·)).map fun m =>
      Expr.binary .ge .val (.integer m type)).toList ++
    ((limits.maximum.filter (· < range.high)).map fun m =>
      Expr.binary .le .val (.integer m type)).toList
  | .number limits =>
    (limits.minimum.map fun m => Expr.binary .ge .val (.double m)).toList ++
    (limits.maximum.map fun m => Expr.binary .le .val (.double m)).toList
  | .bool _ | .string _ => []

/-! ## The code -/

/-- The bodies of the helpers of a scalar. -/
def aliasBodies (type : String) (s : Scalar) (primitive : Primitive) : HelperBodies where
  init := statements [.assign (.deref .val) (initialValue s primitive)]
  validate := statements (conjunction ((boundTests s primitive).map Expr.paren))
  validateJson := statements (typeCheck primitive ++
    [.leave (.callHelper .validate (.here type) (.jsonAs (.owned (.here type))))])
  toJson := statements [.assign (.deref .json) .val, .accept]
  jsonTo := statements (typeCheck primitive ++
    [.assign (.deref .val) (.jsonAs (.owned (.here type))), .accept])

/-- The code of a scalar type. -/
def aliasFragment (target : Target) (type : String) (s : Scalar) (primitive : Primitive) :
    Fragment where
  forward := [Line.ofText ("typedef " ++ primitive.cppName ++ " " ++ type ++ ";")]
  declarations := prototypes target type
  definitions :=
    (helperFunctions target type (aliasBodies type s primitive)).flatMap Function.lines

end ConfigForge.Emit
