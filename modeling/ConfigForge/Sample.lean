import ConfigForge.Json.Value

/-!
# Sample schemas

Schemas of any size, as JSON values: one object with many members, objects nested in one another,
and one object that many others refer to. Between them they use every kind of node.
-/

namespace ConfigForge.Sample

open Json

/-! ## Building blocks -/

/-- An integer as a JSON value. -/
def int (i : Int) : Value :=
  .number (.integer i)

/-- A whole number written with a point, as a JSON value. -/
def whole (i : Int) : Value :=
  .number (.double (.ofInt i))

/-- A node with a `type` tag. -/
def typed (tag : String) (fields : List (String × Value)) : Value :=
  .object (("type", .string tag) :: fields)

/-- An object node. -/
def object (members : List (String × Value)) : Value :=
  typed "object" [("properties", .object members)]

/-- A reference node. -/
def reference (target : String) : Value :=
  .object [("$ref", .string target)]

/-! ## Members -/

/-- An integer whose bounds ask for another width with every index. -/
def integerMember (index : Nat) : Value :=
  match index % 4 with
  | 0 => typed "integer" [("minimum", int 0), ("maximum", int 200)]
  | 1 => typed "integer" [("minimum", int (-129)), ("maximum", int 128)]
  | 2 => typed "integer" [("minimum", int 0), ("maximum", int 70000), ("default", int 8080)]
  | _ => typed "integer" []

/-- A scalar of another kind with every index. -/
def scalarMember (index : Nat) : Value :=
  match index % 4 with
  | 0 => integerMember (index / 4)
  | 1 => typed "number" [("minimum", whole 0), ("maximum", whole 1)]
  | 2 => typed "string" [("default", .string "value")]
  | _ => typed "bool" [("default", .bool true)]

/-- An array of one to eight numbers. -/
def boundedArray : Value :=
  typed "array" [("minItems", int 1), ("maxItems", int 8), ("items", typed "number" [])]

/-! ## Schemas -/

/-- A name with an index. -/
def indexed (name : String) (index : Nat) : String :=
  name ++ "_" ++ toString index

/-- One object with so many scalar members. -/
def wide (members : Nat) : Value :=
  .object [("root", object ((List.range members).map fun index =>
    (indexed "field" index, scalarMember index)))]

/-- So many objects, each inside the one before it, around an object with one member. The outermost
object has the index `level`. -/
def nestedNode (level : Nat) : Nat → Value
  | 0 => object [("leaf", typed "integer" [("minimum", int 0), ("maximum", int 10)])]
  | depth + 1 => object
    [("value", scalarMember level), ("items", boundedArray),
      (indexed "level" level, nestedNode (level + 1) depth)]

/-- Objects nested so many levels deep. -/
def nested (depth : Nat) : Value :=
  .object [("root", nestedNode 0 depth)]

/-- The object that all others refer to. -/
def sharedNode : Value :=
  object [("id", typed "string" []), ("weight", typed "number" [("default", whole 1)])]

/-- An object that refers to the shared one twice. -/
def holderNode : Value :=
  object [("single", reference "shared"), ("many", typed "array" [("items", reference "shared")])]

/-- One object and so many others that refer to it. -/
def fanout (holders : Nat) : Value :=
  .object (("shared", sharedNode) ::
    (List.range holders).map fun index => (indexed "holder" index, holderNode))

end ConfigForge.Sample
