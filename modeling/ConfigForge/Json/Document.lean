import ConfigForge.Json.Token

/-!
# JSON documents as written

A document is the tree of a JSON text with its numerals and strings as they were written, so that a
reader may pass over a part without asking for its value. It is built by a machine that takes one
token after the other and keeps the containers that are still open.
-/

namespace ConfigForge.Json

/-- The tree of a JSON text. -/
inductive Document where
  | null
  | bool (b : Bool)
  | numeral (n : Numeral)
  | string (units : List TextUnit)
  | array (items : List Document)
  | object (fields : List (List TextUnit × Document))

/-- A container that is still open, with what it holds so far in reverse. An object also waits for
the value of a field. -/
inductive OpenContainer where
  | array (items : List Document)
  | object (fields : List (List TextUnit × Document)) (key : List TextUnit)

/-- What the machine waits for. `around` are the open containers, innermost first. -/
inductive Awaiting where
  | value (around : List OpenContainer)
  | firstItem (around : List OpenContainer)
  | nextItem (around : List OpenContainer) (items : List Document)
  | firstKey (around : List OpenContainer)
  | key (around : List OpenContainer) (fields : List (List TextUnit × Document))
  | colon (around : List OpenContainer) (fields : List (List TextUnit × Document))
      (key : List TextUnit)
  | nextField (around : List OpenContainer) (fields : List (List TextUnit × Document))
  | nothing (document : Document)

/-- Hands a complete value to the innermost open container. -/
def deliver (d : Document) : List OpenContainer → Awaiting
  | [] => .nothing d
  | .array items :: around => .nextItem around (d :: items)
  | .object fields key :: around => .nextField around ((key, d) :: fields)

/-- Takes the first token of a value. -/
def beginValue? (around : List OpenContainer) : Token → Option Awaiting
  | .null => some (deliver .null around)
  | .bool b => some (deliver (.bool b) around)
  | .numeral n => some (deliver (.numeral n) around)
  | .string units => some (deliver (.string units) around)
  | .beginArray => some (.firstItem around)
  | .beginObject => some (.firstKey around)
  | .endArray | .endObject | .colon | .comma => none

/-- Takes one token; none if it cannot stand here. -/
def Awaiting.step? : Awaiting → Token → Option Awaiting
  | .value around, t => beginValue? around t
  | .firstItem around, .endArray => some (deliver (.array []) around)
  | .firstItem around, t => beginValue? (.array [] :: around) t
  | .nextItem around items, .comma => some (.value (.array items :: around))
  | .nextItem around items, .endArray => some (deliver (.array items.reverse) around)
  | .firstKey around, .string name => some (.colon around [] name)
  | .firstKey around, .endObject => some (deliver (.object []) around)
  | .key around fields, .string name => some (.colon around fields name)
  | .colon around fields name, .colon => some (.value (.object fields name :: around))
  | .nextField around fields, .comma => some (.key around fields)
  | .nextField around fields, .endObject => some (deliver (.object fields.reverse) around)
  | _, _ => none

namespace Document

/-- Runs the machine to the end of the tokens. -/
def read? (state : Awaiting) : List Token → Option Document
  | [] => match state with
    | .nothing d => some d
    | _ => none
  | t :: rest => match state.step? t with
    | some next => read? next rest
    | none => none

/-- The document that tokens write. -/
def ofTokens? (tokens : List Token) : Option Document :=
  read? (.value []) tokens

/-- The document that a text writes. -/
def ofText? (text : String) : Option Document :=
  (tokens? text.toList).bind ofTokens?

/-! ## Nesting -/

mutual

/-- How many containers are nested in one another. -/
def depth : Document → Nat
  | .array items => depthOfItems items + 1
  | .object fields => depthOfFields fields + 1
  | _ => 0

/-- The greatest depth in a list. -/
def depthOfItems : List Document → Nat
  | [] => 0
  | d :: rest => max d.depth (depthOfItems rest)

/-- The greatest depth among the values of fields. -/
def depthOfFields : List (List TextUnit × Document) → Nat
  | [] => 0
  | (_, d) :: rest => max d.depth (depthOfFields rest)

end

end Document

end ConfigForge.Json
