import ConfigForge.Schema.Error
import ConfigForge.Schema.Node

/-!
# Consistent limits

The limits of a schema are consistent when the bounds of every scalar and array are in order, the
bounds of every integer fit a type, and every default lies inside its bounds. Nodes are examined in
the order of declaration, an array before its item, and the first contradiction is reported.

Results:

* `check_scalar`, `check_array`: a node is examined on its own before anything in it.
-/

namespace ConfigForge

/-- The contradiction in the limits of an integer (`validate_integer`): bounds out of order, then
bounds that no type holds, then a default outside the bounds. The type's own range stands in for an
absent bound of the default. -/
def Limits.integerFault? (limits : Limits Int) : Option ConstraintFault :=
  let range := integerRange (signFor limits.minimum) (widthFor limits.minimum limits.maximum)
  let outside (bound : Option Int) : Bool := bound.any fun b => !range.holds b
  let low := limits.minimum.getD range.low
  let high := limits.maximum.getD range.high
  let order := limits.minimum.bind fun minimum => limits.maximum.bind fun maximum =>
    if maximum < minimum then some (ConstraintFault.integerRange minimum maximum) else none
  let fit := if outside limits.minimum ∨ outside limits.maximum then
      some (ConstraintFault.unrepresentable (limits.minimum.getD 0) (limits.maximum.getD 0))
    else none
  let start := limits.default.bind fun value =>
    if value < low ∨ high < value then some (ConstraintFault.integerDefault value low high)
    else none
  order.or (fit.or start)

/-- The contradiction in the limits of a number (`validate_number`): bounds out of order, then a
default outside the bounds. Comparisons with a NaN do not hold. -/
def Limits.numberFault? (limits : Limits Binary64) : Option ConstraintFault :=
  let order := limits.minimum.bind fun minimum => limits.maximum.bind fun maximum =>
    if maximum.lt minimum then some (ConstraintFault.numberRange minimum maximum) else none
  let start := limits.default.bind fun value =>
    if limits.minimum.any (value.lt ·) ∨ limits.maximum.any (·.lt value) then
      some (ConstraintFault.numberDefault value limits.minimum limits.maximum)
    else none
  order.or start

/-- The contradiction in a scalar. -/
def Scalar.fault? : Scalar → Option ConstraintFault
  | .integer limits => limits.integerFault?
  | .number limits => limits.numberFault?
  | .bool _ | .string _ => none

/-- The contradiction in the bounds of an array (`validate_array`). -/
def ItemBounds.fault? (bounds : ItemBounds) : Option ConstraintFault :=
  bounds.least.bind fun least => bounds.most.bind fun most =>
    if most < least then some (.itemRange least most) else none

/-- Fails with a fault, if there is one. -/
def rejectFault (location : Location) : Option ConstraintFault → Except ConstraintError Unit
  | some fault => .error ⟨location, fault⟩
  | none => .ok ()

namespace Node

mutual

/-- Examines a node and everything in it (`validate_node`). -/
def check (location : Location) : Node → Except ConstraintError Unit
  | .scalar s => rejectFault location s.fault?
  | .object members => checkMembers location members
  | .array item bounds => do
    rejectFault location bounds.fault?
    check (location ++ ["items"]) item
  | .reference _ => .ok ()

/-- Examines named nodes one after the other. -/
def checkMembers (location : Location) : List (String × Node) → Except ConstraintError Unit
  | [] => .ok ()
  | (name, node) :: rest => do
    check (location ++ [name]) node
    checkMembers location rest

end

theorem check_scalar (location : Location) (s : Scalar) :
    check location (.scalar s) = rejectFault location s.fault? := rfl

theorem check_array (location : Location) (item : Node) (bounds : ItemBounds) :
    check location (.array item bounds) =
      match bounds.fault? with
      | some fault => .error ⟨location, fault⟩
      | none => check (location ++ ["items"]) item := by
  rw [check]
  cases bounds.fault? <;> rfl

end Node

/-- Examines all entries of a schema (`validate_schema`). -/
def Schema.check (s : Schema) : Except ConstraintError Unit :=
  Node.checkMembers [] s.entries

end ConfigForge
