import ConfigForge.Entries
import ConfigForge.Number.Binary64
import ConfigForge.Schema.Primitive
import ConfigForge.Text.Split

/-!
# Schemas

A schema is an ordered list of named nodes. A node describes a scalar with its limits, an object
with named members, an array with one item type, or a reference to an object declared elsewhere.

Results:

* `target_ofText`: a reference is written the way it was read.
-/

namespace ConfigForge

/-- The limits of a scalar: bounds, ends included, and the value it starts with. -/
structure Limits (α : Type) where
  minimum : Option α
  maximum : Option α
  default : Option α
deriving DecidableEq, Repr

/-- The limits that limit nothing. -/
def Limits.free {α : Type} : Limits α :=
  ⟨none, none, none⟩

/-- Scalar nodes. -/
inductive Scalar where
  | bool (default : Option Bool)
  | integer (limits : Limits Int)
  | number (limits : Limits Binary64)
  | string (default : Option String)
deriving DecidableEq, Repr

/-- The type in which a scalar is stored. -/
def Scalar.primitive : Scalar → Primitive
  | .bool _ => .bool
  | .integer limits => .forBounds limits.minimum limits.maximum
  | .number _ => .double
  | .string _ => .string

/-- The number of items that an array may have. -/
structure ItemBounds where
  least : Option Nat
  most : Option Nat
deriving DecidableEq, Repr

/-- The number of items that an array starts with (`initial_len`). -/
def ItemBounds.initialLength (bounds : ItemBounds) : Nat :=
  bounds.least.getD 0

/-- A reference to an object by the names that lead to it. -/
structure Reference where
  segments : List String
deriving DecidableEq, Repr

namespace Reference

/-- The reference that a dotted text writes. -/
def ofText (text : String) : Reference :=
  ⟨(Text.split '.' text.toList).map String.ofList⟩

/-- The dotted text of a reference. -/
def target (r : Reference) : String :=
  Text.joinWith "." r.segments

end Reference

/-- Schema nodes. -/
inductive Node where
  | scalar (s : Scalar)
  | object (members : List (String × Node))
  | array (item : Node) (bounds : ItemBounds)
  | reference (r : Reference)

/-- The kinds of nodes. -/
inductive Kind where
  | bool
  | integer
  | number
  | string
  | object
  | array
  | reference
deriving DecidableEq, Repr

namespace Kind

/-- The kind that a `type` tag names. -/
def ofTag? : String → Option Kind
  | "bool" => some .bool
  | "boolean" => some .bool
  | "integer" => some .integer
  | "number" => some .number
  | "string" => some .string
  | "object" => some .object
  | "array" => some .array
  | _ => none

/-- The usual tag of a kind; a reference has its keyword. -/
def tag : Kind → String
  | .bool => "bool"
  | .integer => "integer"
  | .number => "number"
  | .string => "string"
  | .object => "object"
  | .array => "array"
  | .reference => "$ref"

end Kind

namespace Node

/-- The kind of a node. -/
def kind : Node → Kind
  | .scalar (.bool _) => .bool
  | .scalar (.integer _) => .integer
  | .scalar (.number _) => .number
  | .scalar (.string _) => .string
  | .object _ => .object
  | .array _ _ => .array
  | .reference _ => .reference

/-- Whether a node is a scalar. -/
def isScalar : Node → Bool
  | .scalar _ => true
  | _ => false

/-- Whether a node is an object. -/
def isObject : Node → Bool
  | .object _ => true
  | _ => false

/-- Whether a node is an array. -/
def isArray : Node → Bool
  | .array _ _ => true
  | _ => false

/-- Whether a node is a reference. -/
def isReference : Node → Bool
  | .reference _ => true
  | _ => false

end Node

/-- A schema: its entries in the order in which their names were declared. -/
structure Schema where
  entries : List (String × Node)

namespace Schema

/-- The schema without entries. -/
def empty : Schema :=
  ⟨[]⟩

/-- The entry with a name. -/
def get? (s : Schema) (name : String) : Option Node :=
  Entries.get? s.entries name

/-- The schema with a node under a name, in the place of an earlier one or at the end
(`add_entry`). -/
def put (s : Schema) (name : String) (node : Node) : Schema :=
  ⟨Entries.put s.entries name node⟩

/-- The schema with the given entries, put one after the other. -/
def ofList (entries : List (String × Node)) : Schema :=
  ⟨Entries.ofList entries⟩

end Schema

/-! ## References as text -/

private theorem toList_joinWith_dot (pieces : List (List Char)) :
    (Text.joinWith "." (pieces.map String.ofList)).toList =
      (pieces.intersperse ['.']).flatten := by
  induction pieces with
  | nil => rfl
  | cons piece pieces ih =>
    cases pieces with
    | nil => simp
    | cons next rest =>
      simp only [List.map_cons, Text.joinWith, String.toList_append, String.toList_ofList] at ih ⊢
      rw [ih]
      simp

theorem Reference.target_ofText (text : String) : (Reference.ofText text).target = text := by
  apply String.toList_inj.mp
  rw [Reference.target, Reference.ofText, toList_joinWith_dot, Text.flatten_intersperse_split]

end ConfigForge
