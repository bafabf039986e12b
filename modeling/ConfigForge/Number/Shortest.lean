import ConfigForge.Number.Binary64

/-!
# Shortest decimals

The decimal written for a finite floating point number has as few digits as possible among the
decimals that are rounded to the number, and of those it is the nearest; of two equally near ones
it is the larger.

A positive number `m · 2 ^ q` is the rounding of the decimals in an interval around it. The
interval is written in units of `2 ^ (q - 2)`, so that its ends are natural numbers, and it holds
its ends if and only if `m` is even. For one digit, two digits, and so on, the two neighbours of
the number among the decimals of that many digits are tried.
-/

namespace ConfigForge

/-- The decimal `digits · 10 ^ exponent`. -/
structure Decimal where
  digits : Nat
  exponent : Int
deriving DecidableEq, Repr

namespace Decimal

/-- The number of decimal digits of a natural number; zero has none. -/
def digitCount (n : Nat) : Nat :=
  if n = 0 then 0 else (Nat.toDigits 10 n).length

/-- The largest `d` with `10 ^ d ≤ num / den`, for a positive fraction. -/
def leadingExponent (num den : Nat) : Int :=
  if den ≤ num then (digitCount (num / den) : Int) - 1
  else -(digitCount ((den + num - 1) / num - 1) : Int)

/-- A decimal without the zeros at its end, which move into the exponent; at most `fuel` are
dropped. -/
def stripZeros : Nat → Decimal → Decimal
  | 0, d => d
  | fuel + 1, d =>
    if d.digits ≠ 0 ∧ d.digits % 10 = 0 then stripZeros fuel ⟨d.digits / 10, d.exponent + 1⟩ else d

/-- The decimals that are rounded to a positive number. The ends count in units of
`2 ^ (q - 2)`. -/
structure Interval where
  low : Nat
  high : Nat
  closed : Bool
  unitExponent : Int

/-- The interval of a finite positive number. Below a power of two the numbers lie twice as
dense, so that end is half as far away. -/
def Interval.of (x : Binary64) : Interval :=
  let m := x.significand
  { low := if m = 1 <<< 52 ∧ x.exponentField > 1 then 4 * m - 1 else 4 * m - 2
    high := 4 * m + 2
    closed := m % 2 = 0
    unitExponent := x.binaryExponent - 2 }

/-- Two fractions brought to a common denominator: `a · 10 ^ p` and `b · 2 ^ q` as natural numbers
that compare like them. -/
def commonScale (a : Nat) (p : Int) (b : Nat) (q : Int) : Nat × Nat :=
  ((a * Nat.pow 10 p.toNat) <<< (-q).toNat, (b * Nat.pow 10 (-p).toNat) <<< q.toNat)

/-- Whether the decimal `a · 10 ^ p` is rounded to the number of the interval. -/
def Interval.holds (i : Interval) (a : Nat) (p : Int) : Bool :=
  let l := commonScale a p i.low i.unitExponent
  let h := commonScale a p i.high i.unitExponent
  if i.closed then l.2 ≤ l.1 && h.1 ≤ h.2 else l.2 < l.1 && h.1 < h.2

/-- The better of the two neighbours of `num / den` among the multiples of `10 ^ p`, if one of
them lies in the interval. -/
def nearestOnGrid (i : Interval) (num den : Nat) (p : Int) : Option Decimal :=
  let n := num * Nat.pow 10 (-p).toNat
  let d := den * Nat.pow 10 p.toNat
  let below := n / d
  let upward := d ≤ 2 * (n % d)
  match i.holds below p, i.holds (below + 1) p with
  | false, false => none
  | true, false => some ⟨below, p⟩
  | false, true => some ⟨below + 1, p⟩
  | true, true => some ⟨if upward then below + 1 else below, p⟩

/-- The shortest decimal of a finite positive number. Seventeen digits always suffice. -/
def shortest (x : Binary64) : Decimal :=
  let f := x.fraction
  let lead := leadingExponent f.1 f.2
  let i := Interval.of x
  let found := (List.range 17).findSome? fun (k : Nat) =>
    nearestOnGrid i f.1 f.2 (lead - (k : Int))
  match found with
  | some d => stripZeros 17 d
  | none => ⟨0, 0⟩

end Decimal

end ConfigForge
