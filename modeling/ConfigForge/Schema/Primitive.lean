/-!
# Primitive types

The C++ types that scalars are stored in: integers of four widths with or without sign, doubles,
truth values and texts. Integer types are chosen by the bounds that a schema declares.

Results:

* `mem_range_iff`: the values of an integer type.
* `range_mono`: a wider type of the same signedness holds all values of a narrower one.
-/

namespace ConfigForge

/-- The widths of integer types. -/
inductive Width where
  | w8
  | w16
  | w32
  | w64
deriving DecidableEq, Repr

namespace Width

/-- The widths, narrowest first. -/
def all : List Width :=
  [.w8, .w16, .w32, .w64]

/-- The number of bits. -/
def bits : Width → Nat
  | .w8 => 8
  | .w16 => 16
  | .w32 => 32
  | .w64 => 64

/-- The width of so many bits. -/
def ofBits? (bits : Nat) : Option Width :=
  all.find? (·.bits == bits)

end Width

/-- An interval of integers, ends included. -/
structure IntRange where
  low : Int
  high : Int
deriving DecidableEq, Repr

/-- Whether a value lies in the interval. -/
def IntRange.holds (r : IntRange) (value : Int) : Bool :=
  r.low ≤ value && value ≤ r.high

/-- The values of an integer type. -/
def integerRange (signed : Bool) (width : Width) : IntRange :=
  if signed then ⟨-(1 <<< (width.bits - 1) : Nat), (1 <<< (width.bits - 1) : Nat) - 1⟩
  else ⟨0, (1 <<< width.bits : Nat) - 1⟩

/-- The types of scalars. -/
inductive Primitive where
  | integer (signed : Bool) (width : Width)
  | double
  | bool
  | string
deriving DecidableEq, Repr

namespace Primitive

/-- The number of bits of an integer type. -/
def bits? : Primitive → Option Nat
  | .integer _ width => some width.bits
  | _ => none

/-- Whether the type is an integer type with sign. -/
def isSigned : Primitive → Bool
  | .integer signed _ => signed
  | _ => false

/-- Whether the type is an integer type without sign. -/
def isUnsigned : Primitive → Bool
  | .integer signed _ => !signed
  | _ => false

/-- Whether the type is an integer type. -/
def isInteger : Primitive → Bool
  | .integer _ _ => true
  | _ => false

/-- The values of an integer type (`integer_range`). -/
def range? : Primitive → Option IntRange
  | .integer signed width => some (integerRange signed width)
  | _ => none

/-- The C++ name of the type (`cpp_type`). -/
def cppName : Primitive → String
  | .integer true .w8 => "int8_t"
  | .integer true .w16 => "int16_t"
  | .integer true .w32 => "int32_t"
  | .integer true .w64 => "int64_t"
  | .integer false .w8 => "uint8_t"
  | .integer false .w16 => "uint16_t"
  | .integer false .w32 => "uint32_t"
  | .integer false .w64 => "uint64_t"
  | .double => "double"
  | .bool => "bool"
  | .string => "std::string"

end Primitive

/-! ## Types for bounds -/

/-- Whether the integer type for declared bounds has a sign: it has none if and only if there is a
minimum that is not negative. -/
def signFor (minimum : Option Int) : Bool :=
  !(minimum.any (0 ≤ ·))

/-- Whether an integer type holds two values (`fits`). -/
def holdsBoth (signed : Bool) (low high : Int) (width : Width) : Bool :=
  (integerRange signed width).holds low && (integerRange signed width).holds high

/-- The width of the integer type for declared bounds: the narrowest one that holds both, an absent
bound counting as zero. When both count as zero it is 32 bits, and when no type holds them 64. -/
def widthFor (minimum maximum : Option Int) : Width :=
  let low := minimum.getD 0
  let high := maximum.getD 0
  if low = 0 ∧ high = 0 then .w32
  else (Width.all.find? (holdsBoth (signFor minimum) low high)).getD .w64

/-- The integer type for declared bounds (`resolve_integer`). -/
def Primitive.forBounds (minimum maximum : Option Int) : Primitive :=
  .integer (signFor minimum) (widthFor minimum maximum)

/-! ## Small laws -/

theorem mem_range_iff (signed : Bool) (width : Width) (value : Int) :
    (integerRange signed width).holds value = true ↔
      if signed then
        -(1 <<< (width.bits - 1) : Nat) ≤ value ∧ value < (1 <<< (width.bits - 1) : Nat)
      else 0 ≤ value ∧ value < (1 <<< width.bits : Nat) := by
  cases signed with
  | true =>
    rw [if_pos rfl, integerRange, if_pos rfl, IntRange.holds, Bool.and_eq_true, decide_eq_true_eq,
      decide_eq_true_eq, Int.le_sub_one_iff]
  | false =>
    rw [if_neg Bool.false_ne_true, integerRange, if_neg Bool.false_ne_true, IntRange.holds,
      Bool.and_eq_true, decide_eq_true_eq, decide_eq_true_eq, Int.le_sub_one_iff]

theorem range_mono (signed : Bool) {narrow wide : Width} (h : narrow.bits ≤ wide.bits)
    {value : Int} (hv : (integerRange signed narrow).holds value = true) :
    (integerRange signed wide).holds value = true := by
  revert h hv
  cases signed <;> cases narrow <;> cases wide <;>
    simp [integerRange, IntRange.holds, Width.bits] <;> omega

end ConfigForge
