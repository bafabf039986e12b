/-!
# Binary floating point numbers of 64 bits

A number is its 64 bits in the interchange format of IEEE 754: a sign, eleven bits of exponent and
52 bits of fraction. Comparison looks at the bits, and arithmetic goes through exact fractions of
natural numbers that are rounded once, to the nearest number and on a tie to the even one. Nothing
depends on the machine's own arithmetic.

Results:

* `not_lt_self`: no number is below itself.
-/

namespace ConfigForge

/-- A floating point number of 64 bits. -/
structure Binary64 where
  bits : UInt64
deriving DecidableEq, Repr

namespace Binary64

/-! ## Parts -/

/-- The bits as a natural number. -/
def code (x : Binary64) : Nat :=
  x.bits.toNat

/-- Whether the sign bit is set. -/
def isNegative (x : Binary64) : Bool :=
  1 <<< 63 ≤ x.code

/-- The bits without the sign. -/
def magnitude (x : Binary64) : Nat :=
  x.code % (1 <<< 63)

/-- The eleven bits of the exponent. -/
def exponentField (x : Binary64) : Nat :=
  x.magnitude / (1 <<< 52)

/-- The 52 bits of the fraction. -/
def fractionField (x : Binary64) : Nat :=
  x.magnitude % (1 <<< 52)

/-- Whether the number is not a number. -/
def isNaN (x : Binary64) : Bool :=
  x.exponentField = 2047 && x.fractionField ≠ 0

/-- Whether the number is infinite. -/
def isInfinite (x : Binary64) : Bool :=
  x.exponentField = 2047 && x.fractionField = 0

/-- Whether the number is a zero of either sign. -/
def isZero (x : Binary64) : Bool :=
  x.magnitude = 0

/-- The significand `m` of the magnitude `m · 2 ^ q` of a finite number. -/
def significand (x : Binary64) : Nat :=
  if x.exponentField = 0 then x.fractionField else x.fractionField + (1 <<< 52)

/-- The binary exponent `q` of the magnitude `m · 2 ^ q` of a finite number. -/
def binaryExponent (x : Binary64) : Int :=
  if x.exponentField = 0 then -1074 else (x.exponentField : Int) - 1075

/-! ## Comparison -/

/-- The place of a number on the line of all numbers; both zeros are at `0`. -/
def place (x : Binary64) : Int :=
  if x.isNegative then -(x.magnitude : Int) else x.magnitude

/-- The order of IEEE 754: no comparison with a NaN holds. -/
def lt (x y : Binary64) : Bool :=
  !x.isNaN && !y.isNaN && x.place < y.place

theorem not_lt_self (x : Binary64) : lt x x = false := by
  simp [lt]

/-! ## Numbers with a given magnitude -/

/-- The number with the given magnitude bits. -/
def ofMagnitude (magnitude : Nat) : Binary64 :=
  ⟨UInt64.ofNat magnitude⟩

/-- Positive zero. -/
def zero : Binary64 :=
  ofMagnitude 0

/-- The magnitude bits of infinity. -/
def infinityMagnitude : Nat :=
  2047 <<< 52

/-- The number with its sign bit set to the given sign. -/
def withSign (negative : Bool) (x : Binary64) : Binary64 :=
  ofMagnitude (if negative then (1 <<< 63) + x.magnitude else x.magnitude)

/-! ## Rounding -/

/-- The quotient of two natural numbers rounded to the nearest one, on a tie to the even one. -/
def roundHalfEven (num den : Nat) : Nat :=
  let q := num / den
  let r := num % den
  if den < 2 * r ∨ (2 * r = den ∧ q % 2 = 1) then q + 1 else q

/-- The exponent `e` for which `num / den` lies in `[2 ^ 52, 2 ^ 53) · 2 ^ e`, but at least the
exponent of the least positive number. -/
def scaleExponent (num den : Nat) : Int :=
  let l : Int := (num.log2 : Int) - (den.log2 : Int)
  let reaches := den <<< l.toNat ≤ num <<< (-l).toNat
  max (-1074) (if reaches then l - 52 else l - 53)

/-- The number nearest to `num / den`; a quotient beyond the finite numbers gives infinity. -/
def ofRatio (num den : Nat) : Binary64 :=
  if num = 0 then zero
  else
    let e := scaleExponent num den
    let m := roundHalfEven (num <<< (-e).toNat) (den <<< e.toNat)
    ofMagnitude (min infinityMagnitude ((e + 1074).toNat <<< 52 + m))

/-- The number nearest to an integer. -/
def ofInt (i : Int) : Binary64 :=
  withSign (i < 0) (ofRatio i.natAbs 1)

/-! ## Products and quotients -/

/-- The magnitude of a finite number as a fraction. -/
def fraction (x : Binary64) : Nat × Nat :=
  (x.significand <<< x.binaryExponent.toNat, 1 <<< (-x.binaryExponent).toNat)

/-- The product of the magnitudes of two finite numbers. -/
def mul (x y : Binary64) : Binary64 :=
  ofRatio (x.fraction.1 * y.fraction.1) (x.fraction.2 * y.fraction.2)

/-- The quotient of the magnitudes of two finite numbers, the second not zero. -/
def div (x y : Binary64) : Binary64 :=
  ofRatio (x.fraction.1 * y.fraction.2) (x.fraction.2 * y.fraction.1)

end Binary64

end ConfigForge
