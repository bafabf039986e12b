import ConfigForge.Number.Binary64

/-!
# Numerals of JSON text

A numeral is kept as it was written: sign, digits before and after the point, and exponent. Its
value is an integer when it has neither point nor exponent and lies between `-2 ^ 63` and
`2 ^ 64 - 1`, minus zero excepted; otherwise it is a floating point number.

The floating point number is built in few steps rather than rounded once. The digits are collected
into a significand as long as it stays below `2 ^ 64`. Digits before the point that no longer fit
raise the decimal exponent by one each, digits after the point that no longer fit are dropped. The
significand is then rounded, and multiplied or divided by the rounded power of ten.
-/

namespace ConfigForge.Json

/-- A number of a JSON document. -/
inductive Number where
  | integer (value : Int)
  | double (value : Binary64)
deriving DecidableEq, Repr

/-- A numeral as written; digits are values from 0 to 9. The exponent holds whether it is negative
and its digits. -/
structure Numeral where
  negative : Bool
  whole : List Nat
  fraction : List Nat
  exponent : Option (Bool × List Nat)
deriving DecidableEq, Repr

namespace Numeral

/-- The natural number that digits write. -/
def digitsValue (digits : List Nat) : Nat :=
  digits.foldl (fun n d => 10 * n + d) 0

/-- Collects digits into a significand while it stays below `2 ^ 64`; the digits that are left come
along. -/
def collect (significand : Nat) : List Nat → Nat × List Nat
  | [] => (significand, [])
  | d :: rest =>
    if 10 * significand + d < 1 <<< 64 then collect (10 * significand + d) rest
    else (significand, d :: rest)

/-- The number `10 ^ n` rounded. -/
def powerOfTen (n : Nat) : Binary64 :=
  Binary64.ofRatio (Nat.pow 10 n) 1

/-- Divides by `10 ^ n`, in steps of `10 ^ 308` as long as more is left than one power of ten can
hold. -/
def scaleDown (x : Binary64) (n : Nat) : Binary64 :=
  if n ≤ 308 then x.div (powerOfTen n)
  else if x.isZero then x
  else scaleDown (x.div (powerOfTen 308)) (n - 308)
termination_by n

/-- Multiplies by `10 ^ n`; a result beyond the finite numbers is none. -/
def scaleUp? (x : Binary64) (n : Nat) : Option Binary64 :=
  if n ≤ 308 then
    let y := x.mul (powerOfTen n)
    if y.isInfinite then none else some y
  else if x.isZero then some x
  else none

/-- The magnitude of a numeral as a floating point number. -/
def toDouble? (n : Numeral) : Option Binary64 :=
  let whole := collect 0 n.whole
  let both := collect whole.1 n.fraction
  let written : Int := match n.exponent with
    | none => 0
    | some (negative, digits) => if negative then -(digitsValue digits : Int) else digitsValue digits
  let exponent : Int := (whole.2.length : Int) - ((n.fraction.length - both.2.length : Nat) : Int) + written
  let x := Binary64.ofRatio both.1 1
  if 0 ≤ exponent then scaleUp? x exponent.toNat else some (scaleDown x (-exponent).toNat)

/-- The value of a numeral; none if it is beyond the finite numbers. -/
def toNumber? (n : Numeral) : Option Number :=
  let magnitude := digitsValue n.whole
  let plain := n.fraction.isEmpty && n.exponent.isNone
  if plain && !n.negative && magnitude < 1 <<< 64 then some (.integer magnitude)
  else if plain && n.negative && 0 < magnitude && magnitude ≤ 1 <<< 63 then
    some (.integer (-(magnitude : Int)))
  else n.toDouble?.map fun x => .double (x.withSign n.negative)

end Numeral

end ConfigForge.Json
