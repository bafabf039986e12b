import ConfigForge.Entries
import ConfigForge.Json.Document
import ConfigForge.Number.Layout
import ConfigForge.Text.Split

/-!
# JSON values

The value of a JSON document: its numbers are integers or floating point numbers, its strings are
characters, and the fields of an object have distinct names. When a text repeats a field, the last
value counts and stands in the place of the first.

Values are read from text, with at most 127 containers nested in one another, and written back as
text without blanks.

Results:

* `get?_object`: looking up a field of an object.
-/

namespace ConfigForge.Json

/-- A JSON value. -/
inductive Value where
  | null
  | bool (b : Bool)
  | number (n : Number)
  | string (s : String)
  | array (items : List Value)
  | object (fields : List (String × Value))

namespace Value

/-- The value of a field of an object. -/
def get? (v : Value) (name : String) : Option Value :=
  match v with
  | .object fields => Entries.get? fields name
  | _ => none

theorem get?_object (fields : List (String × Value)) (name : String) :
    (Value.object fields).get? name = Entries.get? fields name := rfl

/-! ## Reading -/

mutual

/-- The value of a document; none if a number is beyond the finite numbers or a string holds half
of a surrogate pair. -/
def ofDocument? : Document → Option Value
  | .null => some .null
  | .bool b => some (.bool b)
  | .numeral n => n.toNumber?.map .number
  | .string units => (decodeText units).map fun cs => .string (String.ofList cs)
  | .array items => (ofItems? items).map .array
  | .object fields => (ofFields? fields).map fun entries => .object (Entries.ofList entries)

/-- The values of a list of documents. -/
def ofItems? : List Document → Option (List Value)
  | [] => some []
  | d :: rest => do
    let v ← ofDocument? d
    let vs ← ofItems? rest
    return v :: vs

/-- The fields as written, repeated names included. -/
def ofFields? : List (List TextUnit × Document) → Option (List (String × Value))
  | [] => some []
  | (key, d) :: rest => do
    let name ← decodeText key
    let v ← ofDocument? d
    let vs ← ofFields? rest
    return (String.ofList name, v) :: vs

end

/-- How many containers may be nested in one another. -/
def maxDepth : Nat := 127

/-- The value that a text writes. -/
def ofText? (text : String) : Option Value := do
  let d ← Document.ofText? text
  if d.depth ≤ maxDepth then ofDocument? d else none

/-! ## Writing -/

/-- Numbers in JSON text are written positionally from `1e-5` up to, not including, `1e16`. -/
def numberLayout : NumberLayout :=
  ⟨some (-5, 15), ".0"⟩

/-- A hexadecimal digit. -/
def hexChar (n : Nat) : Char :=
  Nat.digitChar n

/-- A character of a string as it is written between the quotes. -/
def escapeChar (c : Char) : List Char :=
  if c = '"' then ['\\', '"']
  else if c = '\\' then ['\\', '\\']
  else if c = '\n' then ['\\', 'n']
  else if c = '\r' then ['\\', 'r']
  else if c = '\t' then ['\\', 't']
  else if c.toNat = 0x08 then ['\\', 'b']
  else if c.toNat = 0x0C then ['\\', 'f']
  else if c.toNat < 0x20 then
    ['\\', 'u', '0', '0', hexChar (c.toNat / 16), hexChar (c.toNat % 16)]
  else [c]

/-- A string in quotes. -/
def quote (s : String) : String :=
  "\"" ++ String.ofList (s.toList.flatMap escapeChar) ++ "\""

/-- The text of a number. -/
def renderNumber : Number → String
  | .integer i => toString i
  | .double x => if x.isNaN || x.isInfinite then "null" else numberLayout.render x

mutual

/-- The text of a value, without blanks. -/
def render : Value → String
  | .null => "null"
  | .bool b => if b then "true" else "false"
  | .number n => renderNumber n
  | .string s => quote s
  | .array items => "[" ++ Text.joinWith "," (renderItems items) ++ "]"
  | .object fields => "\x7b" ++ Text.joinWith "," (renderFields fields) ++ "\x7d"

/-- The texts of a list of values. -/
def renderItems : List Value → List String
  | [] => []
  | v :: rest => v.render :: renderItems rest

/-- The texts of fields. -/
def renderFields : List (String × Value) → List String
  | [] => []
  | (name, v) :: rest => (quote name ++ ":" ++ v.render) :: renderFields rest

end

end Value

end ConfigForge.Json
