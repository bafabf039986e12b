import ConfigForge.Json.Value
import ConfigForge.Naming
import ConfigForge.Schema.Error
import ConfigForge.Schema.Node

/-!
# Reading schemas

A schema is read from a JSON object whose fields are the entries. A node is a JSON object with
either a `type` or a `$ref`. The type decides which other keywords are looked at; all others are
ignored. The first fault in the order of the text is reported, except that a reference among the
entries is reported only when nothing else is wrong.

Results:

* `readProperties_eq`, `readItem_eq`: what is read from the keyword `properties` of an object and
  from the keyword `items` of an array.
-/

namespace ConfigForge

open Json (Value)

/-! ## Values of keywords -/

namespace Json.Value

/-- A truth value (`read_bool`). -/
def bool? : Value → Option Bool
  | .bool b => some b
  | _ => none

/-- A text (`read_string`). -/
def string? : Value → Option String
  | .string s => some s
  | _ => none

/-- An integer from `-2 ^ 63` to `2 ^ 64 - 1` (`read_integer`). -/
def integer? : Value → Option Int
  | .number (.integer i) =>
    if (integerRange true .w64).low ≤ i ∧ i ≤ (integerRange false .w64).high then some i
    else none
  | _ => none

/-- A number, rounded if it is an integer (`read_number`). -/
def number? : Value → Option Binary64
  | .number (.integer i) => some (.ofInt i)
  | .number (.double x) => some x
  | _ => none

/-- An integer from 0 to `2 ^ 64 - 1` (`read_count`). -/
def count? : Value → Option Nat
  | .number (.integer i) =>
    if (integerRange false .w64).holds i then some i.toNat else none
  | _ => none

/-- Whether a value is an array. -/
def isArray : Value → Bool
  | .array _ => true
  | _ => false

end Json.Value

/-- Reads a keyword that may be absent. -/
def readKeyword {α : Type} (location : Location) (fields : List (String × Value))
    (keyword : String) (read? : Value → Option α) (expected : Expectation) :
    Except SchemaError (Option α) :=
  match Entries.get? fields keyword with
  | none => .ok none
  | some v =>
    match read? v with
    | some a => .ok (some a)
    | none => .error (.at location (.invalidKeyword keyword expected))

/-- Reads the limits of a scalar: minimum, maximum, then default. -/
def readLimits {α : Type} (location : Location) (fields : List (String × Value))
    (read? : Value → Option α) (expected : Expectation) : Except SchemaError (Limits α) := do
  let minimum ← readKeyword location fields "minimum" read? expected
  let maximum ← readKeyword location fields "maximum" read? expected
  let value ← readKeyword location fields "default" read? expected
  return ⟨minimum, maximum, value⟩

/-- Reads a reference (`parse_reference`): a dotted list of identifiers. -/
def readReference (location : Location) (v : Value) : Except SchemaError Node :=
  match v.string? with
  | none => .error (.at location (.invalidKeyword "$ref" .dottedText))
  | some text =>
    let r := Reference.ofText text
    if r.segments.all isIdentifier then .ok (.reference r)
    else .error (.at location (.invalidKeyword "$ref" .dottedNames))

/-! ## Nodes -/

mutual

/-- Reads a node (`parse_node`). -/
def readNode (location : Location) : Value → Except SchemaError Node
  | .object fields =>
    match Entries.get? fields "type", Entries.get? fields "$ref" with
    | some _, some _ => .error (.at location .typeAndReference)
    | none, none => .error (.at location .missingType)
    | none, some r => readReference location r
    | some t, none =>
      match t.string? with
      | none => .error (.at location (.invalidKeyword "type" .tag))
      | some tag =>
        match Kind.ofTag? tag with
        | some .bool => do
          let value ← readKeyword location fields "default" Value.bool? .boolean
          return .scalar (.bool value)
        | some .integer => do
          let limits ← readLimits location fields Value.integer? .integer
          return .scalar (.integer limits)
        | some .number => do
          let limits ← readLimits location fields Value.number? .number
          return .scalar (.number limits)
        | some .string => do
          let value ← readKeyword location fields "default" Value.string? .string
          return .scalar (.string value)
        | some .object => do
          let members ← readProperties location fields
          return .object members
        | some .array => do
          let item ← readItem location fields
          let least ← readKeyword location fields "minItems" Value.count? .count
          let most ← readKeyword location fields "maxItems" Value.count? .count
          return .array item ⟨least, most⟩
        | some .reference | none => .error (.at location (.unknownType tag))
  | _ => .error (.at location .notAnObject)

/-- Reads the members under the keyword `properties` (`parse_object`). -/
def readProperties (location : Location) :
    List (String × Value) → Except SchemaError (List (String × Node))
  | [] => .error (.at location .missingProperties)
  | (keyword, v) :: rest =>
    if keyword = "properties" then
      match v with
      | .object fields => readMembers location [] fields
      | _ => .error (.at location (.invalidKeyword "properties" .object))
    else readProperties location rest

/-- Reads the item under the keyword `items` (`parse_array`). -/
def readItem (location : Location) : List (String × Value) → Except SchemaError Node
  | [] => .error (.at location .missingItems)
  | (keyword, v) :: rest =>
    if keyword = "items" then
      if v.isArray then .error (.at location (.invalidKeyword "items" .itemSchema))
      else readNode (location ++ ["items"]) v
    else readItem location rest

/-- Reads named nodes (`parse_members`). `seen` are the type names so far, each with the member it
belongs to. -/
def readMembers (location : Location) (seen : List (String × String)) :
    List (String × Value) → Except SchemaError (List (String × Node))
  | [] => .ok []
  | (name, v) :: rest =>
    if isIdentifier name then
      match Entries.get? seen (typeName name) with
      | some first => .error (.at location (.duplicateMember first name (typeName name)))
      | none => do
        let node ← readNode (location ++ [name]) v
        let members ← readMembers location ((typeName name, name) :: seen) rest
        return (name, node) :: members
    else .error (.at location (.invalidName name))

end

theorem readProperties_eq (location : Location) (fields : List (String × Value)) :
    readProperties location fields =
      match Entries.get? fields "properties" with
      | none => .error (.at location .missingProperties)
      | some (.object members) => readMembers location [] members
      | some _ => .error (.at location (.invalidKeyword "properties" .object)) := by
  induction fields with
  | nil => simp [readProperties, Entries.get?]
  | cons field rest ih =>
    obtain ⟨keyword, v⟩ := field
    by_cases h : keyword = "properties"
    · cases v <;> simp [readProperties, Entries.get?, h]
    · cases v <;> simp [readProperties, Entries.get?, h, ih]

theorem readItem_eq (location : Location) (fields : List (String × Value)) :
    readItem location fields =
      match Entries.get? fields "items" with
      | none => .error (.at location .missingItems)
      | some v =>
        if v.isArray then .error (.at location (.invalidKeyword "items" .itemSchema))
        else readNode (location ++ ["items"]) v := by
  induction fields with
  | nil => simp [readItem, Entries.get?]
  | cons field rest ih =>
    obtain ⟨keyword, v⟩ := field
    rw [readItem, Entries.get?]
    by_cases h : keyword = "items"
    · rw [if_pos h, if_pos h]
    · rw [if_neg h, if_neg h, ih]

/-! ## Schemas -/

namespace Schema

/-- The first entry that is a reference. -/
def firstReference? (entries : List (String × Node)) : Option String :=
  (entries.find? (·.2.isReference)).map Prod.fst

/-- The schema that a JSON value describes (`parse_schema`). -/
def ofJson (v : Value) : Except SchemaError Schema :=
  match v with
  | .object fields => do
    let entries ← readMembers [] [] fields
    match firstReference? entries with
    | some name => .error (.at [name] .topLevelReference)
    | none => .ok ⟨entries⟩
  | _ => .error (.at [] .notAnObject)

/-- The schema that a JSON text describes (`parse_schema_str`). -/
def ofText (text : String) : Except SchemaError Schema :=
  match Value.ofText? text with
  | some v => ofJson v
  | none => .error .notJson

end Schema

end ConfigForge
