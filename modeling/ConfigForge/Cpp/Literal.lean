import ConfigForge.Number.Layout
import ConfigForge.Schema.Primitive

/-!
# C++ literals

The values of defaults and bounds, and the names of fields, as they are written in C++.
-/

namespace ConfigForge.Cpp

/-- A truth value (`bool_literal`). -/
def boolLiteral (b : Bool) : String :=
  if b then "true" else "false"

/-- An integer of a type (`integer_literal`). Values of 64 bits have a suffix; the least value with
sign is an expression, because its magnitude is no literal of the type. -/
def integerLiteral (value : Int) (type : Primitive) : String :=
  match type with
  | .integer true .w64 =>
    if value = (integerRange true .w64).low then "(-9223372036854775807LL - 1)" else toString value ++ "LL"
  | .integer false .w64 => toString value ++ "ULL"
  | _ => toString value

/-- Numbers are written positionally from `1e-4` up to, not including, `1e16`, and a whole number
has one decimal place. -/
def literalLayout : NumberLayout :=
  ⟨some (-4, 15), ".0"⟩

/-- A floating point number (`number_literal`). -/
def numberLiteral (x : Binary64) : String :=
  literalLayout.render x

/-- An octal digit. -/
def octalChar (n : Nat) : Char :=
  Char.ofNat ('0'.toNat + n % 8)

/-- A character inside a string literal. Control characters without a short escape are written with
three octal digits, so that a digit after them cannot become part of the escape. -/
def stringChar (c : Char) : List Char :=
  if c = '"' then ['\\', '"']
  else if c = '\\' then ['\\', '\\']
  else if c = '\n' then ['\\', 'n']
  else if c = '\r' then ['\\', 'r']
  else if c = '\t' then ['\\', 't']
  else if c.toNat < 0x20 ∨ c.toNat = 0x7F then
    ['\\', octalChar (c.toNat / 64), octalChar (c.toNat / 8), octalChar c.toNat]
  else [c]

/-- Characters inside a string literal. -/
def stringChars (cs : List Char) : List Char :=
  cs.flatMap stringChar

/-- A text in quotes (`string_literal`). -/
def stringLiteral (s : String) : String :=
  "\"" ++ String.ofList (stringChars s.toList) ++ "\""

end ConfigForge.Cpp
