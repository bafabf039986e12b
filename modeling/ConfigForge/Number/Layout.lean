import ConfigForge.Number.Shortest

/-!
# Decimal text of floating point numbers

A number is written with its shortest decimal. A layout says which numbers are written positionally
and what follows a whole number; all others are written with an exponent, such as `1.5e-7`.
-/

namespace ConfigForge

/-- The choices in writing a number. -/
structure NumberLayout where
  /-- The least and the greatest leading exponent that is written positionally; without them every
  number is. -/
  positional : Option (Int × Int)
  /-- What follows the digits of a whole number in positional form. -/
  wholeEnd : String

namespace NumberLayout

/-- Zeros, as text. -/
def zeros (n : Nat) : List Char :=
  List.replicate n '0'

/-- Digits with the decimal point after the first `point` of them; a point outside the digits is
reached over zeros. -/
def positionalChars (layout : NumberLayout) (digits : List Char) (point : Int) : List Char :=
  if point ≤ 0 then "0.".toList ++ zeros (-point).toNat ++ digits
  else if point.toNat < digits.length then
    digits.take point.toNat ++ '.' :: digits.drop point.toNat
  else digits ++ zeros (point.toNat - digits.length) ++ layout.wholeEnd.toList

/-- Digits with the decimal point after the first one, and an exponent. -/
def exponentChars (digits : List Char) (exponent : Int) : List Char :=
  let rest := digits.drop 1
  digits.take 1 ++ (if rest.isEmpty then [] else '.' :: rest) ++ 'e' :: (toString exponent).toList

/-- The text of a positive decimal. -/
def decimalChars (layout : NumberLayout) (d : Decimal) : List Char :=
  let digits := Nat.toDigits 10 d.digits
  let point : Int := (digits.length : Int) + d.exponent
  match layout.positional with
  | none => layout.positionalChars digits point
  | some (least, greatest) =>
    if least ≤ point - 1 ∧ point - 1 ≤ greatest then layout.positionalChars digits point
    else exponentChars digits (point - 1)

/-- The text of a number. A NaN has neither sign nor payload. -/
def render (layout : NumberLayout) (x : Binary64) : String :=
  if x.isNaN then "NaN"
  else
    let sign := if x.isNegative then "-" else ""
    if x.isInfinite then sign ++ "inf"
    else if x.isZero then sign ++ "0" ++ layout.wholeEnd
    else sign ++ String.ofList (layout.decimalChars (Decimal.shortest x))

end NumberLayout

end ConfigForge
