import ConfigForge.Proofs.IntegerHelpers
import ConfigForge.Proofs.Tokens

/-!
# Integer constants as C++ reads them

A number is a token of digits with a suffix. There are no negative numbers: a minus is an operator,
and its operand has a type of its own. The type of a number is the first one of a list that holds it; the
list depends on the suffix, and a number that no type of its list holds is an error. Arithmetic
leaves a type with sign only by an error, and a type without sign never, since it wraps around.

How wide `int` and `long` are is left open, and nothing is assumed about it. The meaning of a type
depends on its sign and its width only, so two types of equal sign and width count as one.

Results:

* `IsOperand.numeral`, `IsOperand.negation`, `IsOperand.difference`: how operands are put together.
* `Numeral.value?_of_inReach`: numbers in reach of their suffix have a type.
* `compare?_exact`: comparisons that do not depend on types.
-/

namespace ConfigForge.Cpp

/-! ## Expressions -/

/-- Integer constant expressions. -/
inductive ConstExpr where
  | numeral (n : Numeral)
  | negation (e : ConstExpr)
  | difference (left right : ConstExpr)
deriving DecidableEq, Repr

/-- The numbers that an expression is made of. -/
def ConstExpr.numerals : ConstExpr → List Numeral
  | .numeral n => [n]
  | .negation e => e.numerals
  | .difference left right => left.numerals ++ right.numerals

/-- What is to be done with the next operand. -/
inductive Pending where
  | negate
  | subtractFrom (left : ConstExpr)
  /-- It stands behind an opening bracket. -/
  | group
deriving DecidableEq, Repr

/-- How far an expression has been read: what is pending, innermost first, and the operand that has
just been read, if there is one. -/
structure Reading where
  pending : List Pending
  operand? : Option ConstExpr
deriving DecidableEq, Repr

namespace Reading

/-- Before an operand. -/
def start (pending : List Pending) : Reading :=
  ⟨pending, none⟩

/-- Behind an operand: what is pending is done, up to the innermost bracket. -/
def behind : List Pending → ConstExpr → Reading
  | .negate :: pending, e => behind pending (.negation e)
  | .subtractFrom left :: pending, e => behind pending (.difference left e)
  | pending, e => ⟨pending, some e⟩

/-- The operand that has been read, if nothing is pending. -/
def complete? : Reading → Option ConstExpr
  | ⟨[], operand?⟩ => operand?
  | _ => none

/-- Reads a token. -/
def step? (r : Reading) (token : List Char) : Option Reading :=
  match r.operand? with
  | none =>
    if token = ['-'] then some (start (.negate :: r.pending))
    else if token = ['('] then some (start (.group :: r.pending))
    else (readNumeral? token).map fun n => behind r.pending (.numeral n)
  | some e =>
    if token = ['-'] then some (start (.subtractFrom e :: r.pending))
    else match token, r.pending with
      | [')'], .group :: pending => some (behind pending e)
      | _, _ => none

/-- Reads an operand to its end and gives the tokens behind it. -/
def run (r : Reading) : List (List Char) → Option (ConstExpr × List (List Char))
  | [] => r.complete?.map (·, [])
  | token :: rest =>
    match r.complete? with
    | some e => some (e, token :: rest)
    | none => (r.step? token).bind fun r => r.run rest

theorem run_of_complete {r : Reading} {e : ConstExpr} (h : r.complete? = some e)
    (rest : List (List Char)) : r.run rest = some (e, rest) := by
  cases rest with
  | nil => rw [run, h, Option.map_some]
  | cons token rest => rw [run, h]

theorem run_cons {r r' : Reading} {token : List Char} (h : r.complete? = none)
    (hstep : r.step? token = some r') (rest : List (List Char)) :
    r.run (token :: rest) = r'.run rest := by
  rw [run, h, hstep, Option.bind_some]

theorem complete?_start (pending : List Pending) : (start pending).complete? = none := by
  cases pending <;> rfl

end Reading

open Reading

/-- The expression that a text is. -/
def readConstant? (text : String) : Option ConstExpr :=
  match (start []).run (tokens text) with
  | some (e, []) => some e
  | _ => none

/-- Whether tokens are read as an operand, whatever is pending and whatever follows. -/
def IsOperand (ts : List (List Char)) (e : ConstExpr) : Prop :=
  ∀ pending rest, (start pending).run (ts ++ rest) = (behind pending e).run rest

namespace IsOperand

variable {ts ts' : List (List Char)} {e e' : ConstExpr}

theorem numeral {token : List Char} {n : Numeral} (h : readNumeral? token = some n) :
    IsOperand [token] (.numeral n) := by
  intro pending rest
  have hminus : token ≠ ['-'] := by
    rintro rfl
    cases h
  have hopen : token ≠ ['('] := by
    rintro rfl
    cases h
  refine run_cons (complete?_start pending) ?_ rest
  rw [step?, start]
  simp only [if_neg hminus, if_neg hopen, h, Option.map_some]

theorem negation (h : IsOperand ts e) : IsOperand (['-'] :: ts) (.negation e) := by
  intro pending rest
  have hminus : (start pending).run (['-'] :: (ts ++ rest)) =
      (start (.negate :: pending)).run (ts ++ rest) :=
    run_cons (complete?_start pending) rfl _
  rw [List.cons_append, hminus, h]
  rfl

theorem difference (h : IsOperand ts e) (h' : IsOperand ts' e') :
    IsOperand (['('] :: (ts ++ ['-'] :: (ts' ++ [[')']]))) (.difference e e') := by
  intro pending rest
  have hopen : (start pending).run (['('] :: (ts ++ ['-'] :: (ts' ++ [')'] :: rest))) =
      (start (.group :: pending)).run (ts ++ ['-'] :: (ts' ++ [')'] :: rest)) :=
    run_cons (complete?_start pending) rfl _
  have hminus : (behind (.group :: pending) e).run (['-'] :: (ts' ++ [')'] :: rest)) =
      (start (.subtractFrom e :: .group :: pending)).run (ts' ++ [')'] :: rest) :=
    run_cons rfl rfl _
  have hclose : (behind (.subtractFrom e :: .group :: pending) e').run ([')'] :: rest) =
      (behind pending (.difference e e')).run rest :=
    run_cons rfl rfl _
  simp only [List.cons_append, List.append_assoc, List.nil_append]
  rw [hopen, h, hminus, h', hclose]

/-- An operand is read up to its end. -/
theorem run_start (h : IsOperand ts e) (rest : List (List Char)) :
    (start []).run (ts ++ rest) = some (e, rest) :=
  (h [] rest).trans (run_of_complete rfl rest)

theorem readConstant? {text : String} (h : IsOperand (tokens text) e) :
    Cpp.readConstant? text = some e := by
  have hrun := h.run_start []
  rw [List.append_nil] at hrun
  rw [Cpp.readConstant?, hrun]

end IsOperand

/-! ## Types -/

/-- Integer types, as far as their values are concerned. -/
structure IntType where
  signed : Bool
  width : Width
deriving DecidableEq, Repr

/-- The values of a type. -/
def IntType.range (t : IntType) : IntRange :=
  integerRange t.signed t.width

/-- What platforms differ in: the widths of `int` and `long`. That of `long long` is 64 bits. -/
structure DataModel where
  int : Width
  long : Width
deriving DecidableEq, Repr

/-- A value with its type. -/
structure IntValue where
  type : IntType
  value : Int
  holds : type.range.holds value = true

/-- An integer as a value of a type that holds it. -/
def IntType.value? (t : IntType) (i : Int) : Option IntValue :=
  if h : t.range.holds i = true then some ⟨t, i, h⟩ else none

/-- The integer that a conversion to a type makes of an integer. -/
def IntType.wrap (t : IntType) (i : Int) : Int :=
  convert t.signed t.width i

/-- The result of an operation in a type: out of range, it wraps around or is an error. -/
def IntType.result? (t : IntType) (i : Int) : Option IntValue :=
  t.value? (if t.signed then i else t.wrap i)

/-- The type in which two operands meet: the wider one, and at equal width the one without sign. -/
def IntType.common (s t : IntType) : IntType :=
  if s.width.bits < t.width.bits then t
  else if t.width.bits < s.width.bits then s
  else ⟨s.signed && t.signed, s.width⟩

/-- The type of an operand: one that is narrower than `int` becomes `int`. -/
def DataModel.promote (model : DataModel) (t : IntType) : IntType :=
  if t.width.bits < model.int.bits then ⟨true, model.int⟩ else t

/-- The widths that a number with a suffix can have, in order. -/
def DataModel.widths (model : DataModel) : Suffix → List Width
  | .plain | .u => [model.int, model.long, .w64]
  | .l | .ul => [model.long, .w64]
  | .ll | .ull => [.w64]

/-- Whether the types of a number have a sign, in order. Only octal numbers have a choice. -/
def Numeral.signs (n : Numeral) : List Bool :=
  match n.suffix with
  | .u | .ul | .ull => [false]
  | .plain | .l | .ll => if n.octal then [true, false] else [true]

/-- The types that a number can have, in order. -/
def Numeral.types (n : Numeral) (model : DataModel) : List IntType :=
  (model.widths n.suffix).flatMap fun width => n.signs.map fun signed => ⟨signed, width⟩

/-- The value of a number, of the first type that holds it. -/
def Numeral.value? (n : Numeral) (model : DataModel) : Option IntValue :=
  (n.types model).findSome? fun t => t.value? n.value

/-- The negation of an operand. -/
def IntValue.neg? (a : IntValue) : Option IntValue :=
  a.type.result? (-a.value)

/-- The difference of two operands. -/
def IntValue.sub? (a b : IntValue) : Option IntValue :=
  let t := a.type.common b.type
  t.result? (t.wrap a.value - t.wrap b.value)

/-- The value of an expression. The types of numbers are never narrower than `int`. -/
def ConstExpr.value? (model : DataModel) : ConstExpr → Option IntValue
  | .numeral n => n.value? model
  | .negation e => (e.value? model).bind IntValue.neg?
  | .difference left right =>
    (left.value? model).bind fun a => (right.value? model).bind fun b => a.sub? b

/-- The comparison of two values. -/
def DataModel.compare? (model : DataModel) (op : BinaryOp) (a b : IntValue) : Option Bool :=
  let t := (model.promote a.type).common (model.promote b.type)
  op.compare? (.integer (t.wrap a.value)) (.integer (t.wrap b.value))

/-- Whether a number is in reach of its suffix: without suffix and with `LL` that of 64 bits with
sign, with `ULL` that of 64 bits without. -/
def Numeral.InReach (n : Numeral) : Prop :=
  (n.suffix = .plain ∨ n.suffix = .ll) ∧ (integerRange true .w64).holds n.value = true ∨
    n.suffix = .ull ∧ (integerRange false .w64).holds n.value = true

/-! ## Values -/

theorem IntType.value?_of_holds {t : IntType} {i : Int} (h : t.range.holds i = true) :
    t.value? i = some ⟨t, i, h⟩ :=
  dif_pos h

theorem IntType.eq_of_value? {t : IntType} {i : Int} {a : IntValue} (h : t.value? i = some a) :
    a.type = t ∧ a.value = i := by
  rw [IntType.value?] at h
  split at h
  · obtain rfl := Option.some.inj h
    exact ⟨rfl, rfl⟩
  · cases h

theorem IntType.wrap_of_holds {t : IntType} {i : Int} (h : t.range.holds i = true) :
    t.wrap i = i :=
  convert_of_holds h

theorem DataModel.w64_mem_widths (model : DataModel) (s : Suffix) : .w64 ∈ model.widths s := by
  cases s <;> simp [DataModel.widths]

/-- A number that 64 bits hold has a value, of one of its types. -/
theorem Numeral.exists_value? {n : Numeral} (model : DataModel) {signed : Bool}
    (hsign : signed ∈ n.signs) (h : (integerRange signed .w64).holds n.value = true) :
    ∃ a, n.value? model = some a ∧ a.type.signed ∈ n.signs ∧ a.value = n.value := by
  have hmem : (⟨signed, .w64⟩ : IntType) ∈ n.types model :=
    List.mem_flatMap.mpr ⟨.w64, model.w64_mem_widths _, List.mem_map.mpr ⟨signed, hsign, rfl⟩⟩
  have hsome : (n.value? model).isSome = true := by
    rw [Numeral.value?, List.findSome?_isSome_iff]
    exact ⟨_, hmem, Option.isSome_iff_exists.mpr ⟨_, IntType.value?_of_holds (t := ⟨signed, .w64⟩) h⟩⟩
  obtain ⟨a, ha⟩ := Option.isSome_iff_exists.mp hsome
  obtain ⟨t, ht, hat⟩ := List.exists_of_findSome?_eq_some ha
  obtain ⟨rfl, hvalue⟩ := IntType.eq_of_value? hat
  obtain ⟨width, -, ht⟩ := List.mem_flatMap.mp ht
  obtain ⟨sign, hsign, ht⟩ := List.mem_map.mp ht
  exact ⟨a, ha, by rwa [← ht], hvalue⟩

/-- A number without suffix or with `LL` has a type with sign. An octal one might have a type
without, but zero has not. -/
theorem Numeral.value?_signed (model : DataModel) {n : Nat} {s : Suffix} (hs : s = .plain ∨ s = .ll)
    (h : (integerRange true .w64).holds n = true) :
    ∃ a, (Numeral.decimal n s).value? model = some a ∧ a.value = n ∧ a.type.signed = true := by
  by_cases hn : n = 0
  · subst hn
    -- Zero is octal, so both signs are tried, but the first type of the list holds it.
    obtain ⟨width, rest, htypes⟩ : ∃ width rest,
        (Numeral.decimal 0 s).types model = ⟨true, width⟩ :: rest := by
      rcases hs with rfl | rfl <;> exact ⟨_, _, rfl⟩
    have hzero : (IntType.range ⟨true, width⟩).holds 0 = true :=
      IntRange.holds_iff.mpr (integerRange_zero true width)
    refine ⟨⟨⟨true, width⟩, 0, hzero⟩, ?_, rfl, rfl⟩
    rw [Numeral.value?, htypes]
    simp [Numeral.decimal, IntType.value?_of_holds hzero]
  · have hsigns : (Numeral.decimal n s).signs = [true] := by
      rcases hs with rfl | rfl <;> simp [Numeral.signs, Numeral.decimal, hn]
    obtain ⟨a, ha, hsign, hvalue⟩ :=
      Numeral.exists_value? model (hsigns ▸ List.mem_singleton_self true) h
    exact ⟨a, ha, hvalue, List.mem_singleton.mp (hsigns ▸ hsign)⟩

/-- **Numbers with a type.** A number in reach of its suffix has a value, and only with `ULL` its
type has no sign. -/
theorem Numeral.value?_of_inReach (model : DataModel) {n : Nat} {s : Suffix}
    (h : (Numeral.decimal n s).InReach) :
    ∃ a, (Numeral.decimal n s).value? model = some a ∧ a.value = n ∧
      (s ≠ .ull → a.type.signed = true) := by
  rcases h with ⟨hs, hn⟩ | ⟨rfl, hn⟩
  · obtain ⟨a, ha, hvalue, hsign⟩ := Numeral.value?_signed model hs hn
    exact ⟨a, ha, hvalue, fun _ => hsign⟩
  · obtain ⟨a, ha, -, hvalue⟩ :=
      Numeral.exists_value? model (n := .decimal n .ull) (List.mem_singleton_self false) hn
    exact ⟨a, ha, hvalue, fun hne => absurd rfl hne⟩

theorem IntType.result?_of_holds {t : IntType} {i : Int} (h : t.range.holds i = true) :
    t.result? i = some ⟨t, i, h⟩ := by
  rw [IntType.result?, IntType.wrap_of_holds h, ite_self, IntType.value?_of_holds h]

/-- With a sign, what is not negative can be negated: the greatest value of a type has a negative
counterpart. -/
theorem IntValue.neg?_of_signed {a : IntValue} (hsign : a.type.signed = true) (h : 0 ≤ a.value) :
    ∃ b, a.neg? = some b ∧ b.type.signed = true ∧ b.value = -a.value := by
  obtain ⟨⟨signed, width⟩, value, hholds⟩ := a
  obtain rfl : signed = true := hsign
  have hneg : (integerRange true width).holds (-value) = true := by
    have hvalue := (mem_range_iff true width value).mp hholds
    rw [if_pos rfl] at hvalue
    rw [mem_range_iff, if_pos rfl]
    change 0 ≤ value at h
    omega
  exact ⟨_, IntType.result?_of_holds (t := ⟨true, width⟩) hneg, rfl, rfl⟩

/-! ## Conversions -/

/-- Wider types have all values, except that those without sign have no negative ones. -/
theorem holds_of_bits_lt {signed sign : Bool} {narrow wide : Width}
    (hbits : narrow.bits < wide.bits) {i : Int} (h : (integerRange signed narrow).holds i = true)
    (hsign : sign = true ∨ 0 ≤ i) : (integerRange sign wide).holds i = true := by
  revert hbits h hsign
  cases signed <;> cases sign <;> cases narrow <;> cases wide <;>
    simp [integerRange, IntRange.holds, Width.bits] <;> omega

/-- A type without sign has the values of the type with sign that are not negative. -/
theorem holds_unsigned {signed : Bool} {width : Width} {i : Int}
    (h : (integerRange signed width).holds i = true) (hi : 0 ≤ i) :
    (integerRange false width).holds i = true := by
  revert h
  cases signed <;> cases width <;> simp [integerRange, IntRange.holds, Width.bits] <;> omega

theorem IntType.common_comm (s t : IntType) : s.common t = t.common s := by
  obtain ⟨signed, width⟩ := s
  obtain ⟨signed', width'⟩ := t
  cases signed <;> cases signed' <;> cases width <;> cases width' <;> rfl

/-- An operand keeps its value in the common type, unless it is negative and the other type has no
sign. -/
theorem IntType.holds_common {s t : IntType} {i : Int} (h : s.range.holds i = true)
    (hsign : t.signed = true ∨ 0 ≤ i) : (s.common t).range.holds i = true := by
  rw [IntType.common]
  split_ifs with hlt hgt
  · exact holds_of_bits_lt hlt h hsign
  · exact h
  · obtain ⟨signed, width⟩ := s
    obtain ⟨signed', width'⟩ := t
    cases signed with
    | false => exact h
    | true =>
      cases signed' with
      | true => exact h
      | false => exact holds_unsigned h (hsign.resolve_left Bool.false_ne_true)

namespace DataModel

variable (model : DataModel)

theorem holds_promote {t : IntType} {i : Int} (h : t.range.holds i = true) :
    (model.promote t).range.holds i = true := by
  rw [promote]
  split_ifs with hlt
  · exact holds_of_bits_lt hlt h (.inl rfl)
  · exact h

theorem signed_promote {t : IntType} (h : t.signed = true) : (model.promote t).signed = true := by
  rw [promote]
  split_ifs
  · rfl
  · exact h

/-- **Comparisons.** Two values are compared as integers, unless one is negative and the type of the
other has no sign. -/
theorem compare?_exact (op : BinaryOp) {a b : IntValue} (ha : b.type.signed = true ∨ 0 ≤ a.value)
    (hb : a.type.signed = true ∨ 0 ≤ b.value) :
    model.compare? op a b = op.compare? (.integer a.value) (.integer b.value) := by
  have hleft : ((model.promote a.type).common (model.promote b.type)).range.holds a.value = true :=
    IntType.holds_common (model.holds_promote a.holds) (ha.imp_left model.signed_promote)
  have hright : ((model.promote a.type).common (model.promote b.type)).range.holds b.value =
      true := by
    rw [IntType.common_comm]
    exact IntType.holds_common (model.holds_promote b.holds) (hb.imp_left model.signed_promote)
  rw [compare?, IntType.wrap_of_holds hleft, IntType.wrap_of_holds hright]

end DataModel

/-- The difference of two operands with sign, if the common type has it. -/
theorem IntValue.sub?_of_signed {a b : IntValue} (ha : a.type.signed = true)
    (hb : b.type.signed = true)
    (h : (a.type.common b.type).range.holds (a.value - b.value) = true) :
    ∃ c, a.sub? b = some c ∧ c.type = a.type.common b.type ∧ c.value = a.value - b.value := by
  have hleft := IntType.holds_common a.holds (.inl hb)
  have hright := IntType.holds_common b.holds (.inl ha)
  rw [IntType.common_comm] at hright
  refine ⟨⟨_, _, h⟩, ?_, rfl, rfl⟩
  rw [IntValue.sub?, IntType.wrap_of_holds hleft, IntType.wrap_of_holds hright,
    IntType.result?_of_holds h]

end ConfigForge.Cpp
