import ConfigForge.Number.Layout
import ConfigForge.Text.Split

/-!
# Errors of schemas

A schema is rejected for a fault of structure, found while it is read, or for a contradiction
between its bounds and defaults. Every fault of a node comes with the names that lead to the node.
The wording of all messages is here.
-/

namespace ConfigForge

/-- The names that lead from the root of a schema to a node; the item of an array is called
`items`. -/
abbrev Location := List String

/-- A location as text. -/
def Location.render : Location → String
  | [] => "<root>"
  | segments => Text.joinWith "." segments

/-! ## Faults of structure -/

/-- What the value of a keyword should have been. -/
inductive Expectation where
  | tag
  | object
  | itemSchema
  | dottedText
  | dottedNames
  | boolean
  | integer
  | number
  | string
  | count
deriving DecidableEq, Repr

/-- The wording of an expectation. -/
def Expectation.text : Expectation → String
  | .tag => "a type name"
  | .object => "an object"
  | .itemSchema => "a single item schema"
  | .dottedText => "a dotted path string"
  | .dottedNames => "a dotted path of member names"
  | .boolean => "a boolean"
  | .integer => "an integer"
  | .number => "a number"
  | .string => "a string"
  | .count => "a non-negative integer"

/-- What is wrong with a node. -/
inductive SchemaFault where
  /-- The node is not a JSON object. -/
  | notAnObject
  /-- The node has neither a type nor a reference. -/
  | missingType
  /-- The node has a type and a reference. -/
  | typeAndReference
  /-- The tag names no kind of node. -/
  | unknownType (tag : String)
  /-- An object without `properties`. -/
  | missingProperties
  /-- An array without `items`. -/
  | missingItems
  /-- A keyword with a value of the wrong form. -/
  | invalidKeyword (keyword : String) (expected : Expectation)
  /-- A member name that cannot be an identifier. -/
  | invalidName (name : String)
  /-- Two members with the same type name. -/
  | duplicateMember (first second : String) (type : String)
  /-- A reference as an entry of the schema. -/
  | topLevelReference
deriving DecidableEq, Repr

/-- The message of a fault at a location. -/
def SchemaFault.message (location : String) : SchemaFault → String
  | .notAnObject => s!"node '{location}' must be a JSON object"
  | .missingType => s!"node '{location}' has neither 'type' nor '$ref'"
  | .typeAndReference => s!"node '{location}' has both 'type' and '$ref'"
  | .unknownType tag => s!"unknown type '{tag}' at '{location}'"
  | .missingProperties => s!"object '{location}' has no 'properties'"
  | .missingItems => s!"array '{location}' has no 'items'"
  | .invalidKeyword keyword expected =>
    s!"invalid value for '{keyword}' at '{location}': expected {expected.text}"
  | .invalidName name => s!"invalid member name '{name}' at '{location}'"
  | .duplicateMember first second type =>
    s!"members '{first}' and '{second}' at '{location}' both map to type '{type}'"
  | .topLevelReference => s!"top-level entry '{location}' cannot be a reference"

/-- Why a schema cannot be read. -/
inductive SchemaError where
  /-- The text is not JSON. -/
  | notJson
  /-- A node is at fault. -/
  | at (location : Location) (fault : SchemaFault)
deriving DecidableEq, Repr

namespace SchemaError

/-- The location of the node at fault. -/
def location? : SchemaError → Option Location
  | .notJson => none
  | .at location _ => some location

/-- The message of an error. -/
def message : SchemaError → String
  | .notJson => "JSON parsing error"
  | .at location fault => fault.message location.render

end SchemaError

/-! ## Contradictions -/

/-- How the limits of a node contradict each other. -/
inductive ConstraintFault where
  /-- The minimum of an integer exceeds its maximum. -/
  | integerRange (minimum maximum : Int)
  /-- The minimum of a number exceeds its maximum. -/
  | numberRange (minimum maximum : Binary64)
  /-- No integer type holds the bounds. -/
  | unrepresentable (minimum maximum : Int)
  /-- The default of an integer is outside its bounds. -/
  | integerDefault (default minimum maximum : Int)
  /-- The default of a number is outside its bounds. -/
  | numberDefault (default : Binary64) (minimum maximum : Option Binary64)
  /-- An array needs more items than it may have. -/
  | itemRange (least most : Nat)
deriving DecidableEq, Repr

/-- Numbers in messages are written positionally, whole numbers without a point. -/
def messageLayout : NumberLayout :=
  ⟨none, ""⟩

/-- The message of a contradiction at a location. -/
def ConstraintFault.message (location : String) : ConstraintFault → String
  | .integerRange minimum maximum =>
    s!"minimum {minimum} is greater than maximum {maximum} at '{location}'"
  | .numberRange minimum maximum =>
    let low := messageLayout.render minimum
    let high := messageLayout.render maximum
    s!"minimum {low} is greater than maximum {high} at '{location}'"
  | .unrepresentable minimum maximum =>
    s!"integer range [{minimum}, {maximum}] at '{location}' does not fit in 64 bits"
  | .integerDefault value minimum maximum =>
    s!"default {value} is outside [{minimum}, {maximum}] at '{location}'"
  | .numberDefault value minimum maximum =>
    let shown := messageLayout.render value
    let low := (minimum.map messageLayout.render).getD "-inf"
    let high := (maximum.map messageLayout.render).getD "inf"
    s!"default {shown} is outside [{low}, {high}] at '{location}'"
  | .itemRange least most =>
    s!"minItems {least} is greater than maxItems {most} at '{location}'"

/-- A contradiction and the node it is found in. -/
structure ConstraintError where
  location : Location
  fault : ConstraintFault
deriving DecidableEq, Repr

/-- The message of an error. -/
def ConstraintError.message (e : ConstraintError) : String :=
  e.fault.message e.location.render

end ConfigForge
