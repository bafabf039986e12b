import ConfigForge.Proofs.IntegerHelpers

/-!
# Types of integers

An integer is stored in a type that its bounds ask for: the sign comes from the minimum, and the
width is the least one that holds both bounds. The check of a node then looks at the bounds once
more, now against the range of that type. Where the type is the narrowest one that holds the bounds,
or the widest one because none does, the bounds are in its range exactly if they are in the range of
64 bits.

Results:

* `forBounds_eq_iff`: the type of an integer is the one type that its bounds ask for.
* `fit_iff`: bounds are in the range of the type exactly if they are in the range of 64 bits.
* `integerFault?_unrepresentable_iff`: when bounds in order are reported as too large.
* `integer_type_and_check`: the type of an integer, and what its check says about the bounds and the
  default.
-/

namespace ConfigForge

namespace Limits

/-! ## The type that bounds ask for -/

/-- Whether both bounds count as zero, as an absent bound does. -/
def CountZero (limits : Limits Int) : Prop :=
  limits.minimum.getD 0 = 0 ∧ limits.maximum.getD 0 = 0

/-- Whether an integer type holds both bounds, an absent bound counting as zero. -/
def HeldBy (limits : Limits Int) (signed : Bool) (width : Width) : Prop :=
  (integerRange signed width).holds (limits.minimum.getD 0) = true ∧
    (integerRange signed width).holds (limits.maximum.getD 0) = true

/-- The integer type that bounds ask for. -/
structure AskFor (limits : Limits Int) (signed : Bool) (width : Width) : Prop where
  /-- There is no sign exactly if there is a minimum and it is not negative. -/
  sign : signed = false ↔ ∃ m, limits.minimum = some m ∧ 0 ≤ m
  /-- Bounds that count as zero ask for the usual width. -/
  usual : limits.CountZero → width = .w32
  /-- Other bounds ask for the narrowest width that holds both, if there is one. -/
  narrowest : ¬ limits.CountZero → (∃ w, limits.HeldBy signed w) →
    limits.HeldBy signed width ∧ ∀ w : Width, w.bits < width.bits → ¬ limits.HeldBy signed w
  /-- Bounds that no width holds ask for the widest. -/
  widest : ¬ limits.CountZero → (¬ ∃ w, limits.HeldBy signed w) → width = .w64

end Limits

/-! ## The choice of a type -/

/-- The first width that passes a test is the narrowest one that does. -/
theorem Width.find?_eq_some_iff {p : Width → Bool} {width : Width} :
    Width.all.find? p = some width ↔
      p width = true ∧ ∀ w : Width, w.bits < width.bits → p w = false := by
  have hall : ∀ P : Width → Prop, (∀ w, P w) ↔ P .w8 ∧ P .w16 ∧ P .w32 ∧ P .w64 := by
    intro P
    constructor
    · intro h
      exact ⟨h _, h _, h _, h _⟩
    · rintro ⟨h8, h16, h32, h64⟩ w
      cases w <;> assumption
  rw [hall]
  cases h8 : p .w8 <;> cases h16 : p .w16 <;> cases h32 : p .w32 <;> cases h64 : p .w64 <;>
    cases width <;> simp [Width.all, Width.bits, h8, h16, h32, h64]

theorem Width.find?_eq_none_iff {p : Width → Bool} :
    Width.all.find? p = none ↔ ∀ w, p w = false := by
  rw [List.find?_eq_none]
  constructor
  · intro h w
    simpa using h w (by cases w <;> simp [Width.all])
  · intro h w _
    simp [h w]

theorem signFor_eq_false_iff {minimum : Option Int} :
    signFor minimum = false ↔ ∃ m, minimum = some m ∧ 0 ≤ m := by
  cases minimum <;> simp [signFor]

namespace Limits

variable {limits : Limits Int}

theorem holdsBoth_iff {signed : Bool} {width : Width} :
    holdsBoth signed (limits.minimum.getD 0) (limits.maximum.getD 0) width = true ↔
      limits.HeldBy signed width := by
  rw [holdsBoth, Bool.and_eq_true]
  rfl

theorem widthFor_of_not_countZero (h : ¬ limits.CountZero) :
    widthFor limits.minimum limits.maximum =
      (Width.all.find? (holdsBoth (signFor limits.minimum) (limits.minimum.getD 0)
        (limits.maximum.getD 0))).getD .w64 :=
  if_neg h

theorem askFor_widthFor (limits : Limits Int) :
    limits.AskFor (signFor limits.minimum) (widthFor limits.minimum limits.maximum) := by
  refine ⟨signFor_eq_false_iff, fun hzero => if_pos hzero, fun hzero hheld => ?_,
    fun hzero hheld => ?_⟩
  · rw [widthFor_of_not_countZero hzero]
    cases hfind : Width.all.find? (holdsBoth (signFor limits.minimum) (limits.minimum.getD 0)
        (limits.maximum.getD 0)) with
    | none =>
      obtain ⟨w, hw⟩ := hheld
      have hno := Width.find?_eq_none_iff.mp hfind w
      rw [holdsBoth_iff.mpr hw] at hno
      cases hno
    | some width =>
      obtain ⟨hwidth, hnarrower⟩ := Width.find?_eq_some_iff.mp hfind
      refine ⟨holdsBoth_iff.mp hwidth, fun w hlt hw => ?_⟩
      have hno := hnarrower w hlt
      rw [holdsBoth_iff.mpr hw] at hno
      cases hno
  · have hfind : Width.all.find? (holdsBoth (signFor limits.minimum) (limits.minimum.getD 0)
        (limits.maximum.getD 0)) = none := by
      refine Width.find?_eq_none_iff.mpr fun w => Bool.eq_false_iff.mpr fun hw => ?_
      exact hheld ⟨w, holdsBoth_iff.mp hw⟩
    rw [widthFor_of_not_countZero hzero, hfind]
    rfl

/-- Bounds ask for one type only. -/
theorem AskFor.unique {signed signed' : Bool} {width width' : Width}
    (h : limits.AskFor signed width) (h' : limits.AskFor signed' width') :
    signed = signed' ∧ width = width' := by
  have hsign : signed = signed' := by
    have hiff := h.sign.trans h'.sign.symm
    cases signed <;> cases signed' <;> simp_all
  subst hsign
  refine ⟨rfl, ?_⟩
  by_cases hzero : limits.CountZero
  · rw [h.usual hzero, h'.usual hzero]
  by_cases hheld : ∃ w, limits.HeldBy signed w
  · obtain ⟨hwidth, hnarrower⟩ := h.narrowest hzero hheld
    obtain ⟨hwidth', hnarrower'⟩ := h'.narrowest hzero hheld
    have hle : ¬ width'.bits < width.bits := fun hlt => hnarrower width' hlt hwidth'
    have hle' : ¬ width.bits < width'.bits := fun hlt => hnarrower' width hlt hwidth
    revert hle hle'
    cases width <;> cases width' <;> simp [Width.bits]
  · rw [h.widest hzero hheld, h'.widest hzero hheld]

/-- The type of an integer is the type that its bounds ask for. -/
theorem forBounds_eq_iff {signed : Bool} {width : Width} :
    Primitive.forBounds limits.minimum limits.maximum = .integer signed width ↔
      limits.AskFor signed width := by
  rw [Primitive.forBounds, Primitive.integer.injEq]
  constructor
  · rintro ⟨rfl, rfl⟩
    exact askFor_widthFor limits
  · exact (askFor_widthFor limits).unique

/-! ## The check of a type -/

/-- Whether the minimum, if there is one, does not exceed the maximum, if there is one. -/
def InOrder (limits : Limits Int) : Prop :=
  ∀ m, limits.minimum = some m → ∀ m', limits.maximum = some m' → m ≤ m'

/-- Whether a value is one of the bounds. -/
def Declares (limits : Limits Int) (b : Int) : Prop :=
  limits.minimum = some b ∨ limits.maximum = some b

theorem Declares.holds_of_heldBy {signed : Bool} {width : Width} {b : Int} (hb : limits.Declares b)
    (h : limits.HeldBy signed width) : (integerRange signed width).holds b = true := by
  rcases hb with hb | hb
  · have hlow := h.1
    rwa [hb] at hlow
  · have hhigh := h.2
    rwa [hb] at hhigh

/-- Zero counts for an absent bound, and every type holds it. -/
theorem heldBy_of_declares {signed : Bool} {width : Width}
    (h : ∀ b, limits.Declares b → (integerRange signed width).holds b = true) :
    limits.HeldBy signed width := by
  have hzero : (integerRange signed width).holds 0 = true :=
    IntRange.holds_iff.mpr (integerRange_zero signed width)
  constructor
  · cases hm : limits.minimum with
    | none => exact hzero
    | some m => exact h m (.inl hm)
  · cases hm : limits.maximum with
    | none => exact hzero
    | some m => exact h m (.inr hm)

/-- Bounds are in the range of their type exactly if they are in the range of 64 bits. -/
theorem fit_iff {signed : Bool} {width : Width} (htype : limits.AskFor signed width) :
    (∀ b, limits.Declares b → (integerRange signed width).holds b = true) ↔
      ∀ b, limits.Declares b → (integerRange signed .w64).holds b = true := by
  constructor
  · intro h b hb
    have hbits : width.bits ≤ Width.w64.bits := by cases width <;> decide
    exact range_mono signed hbits (h b hb)
  · intro h b hb
    have hwide : limits.HeldBy signed .w64 := heldBy_of_declares h
    by_cases hzero : limits.CountZero
    · -- a bound that counts as zero is zero
      have hb0 : b = 0 := by
        rcases hb with hb | hb
        · simpa [hb] using hzero.1
        · simpa [hb] using hzero.2
      rw [hb0]
      exact IntRange.holds_iff.mpr (integerRange_zero signed width)
    · exact hb.holds_of_heldBy (htype.narrowest hzero ⟨.w64, hwide⟩).1

/-- The fault of a bound that the type does not hold. -/
theorem fitFault?_eq_none_iff_declares :
    limits.fitFault? = none ↔ ∀ b, limits.Declares b → limits.typeRange.holds b = true := by
  rw [fitFault?_eq_none_iff]
  constructor
  · rintro ⟨hminimum, hmaximum⟩ b (hb | hb)
    · exact hminimum b hb
    · exact hmaximum b hb
  · intro h
    exact ⟨fun m hm => h m (.inl hm), fun m hm => h m (.inr hm)⟩

theorem startFault?_ne_unrepresentable (low high : Int) :
    limits.startFault? ≠ some (.unrepresentable low high) := by
  rw [startFault?]
  cases limits.default with
  | none => simp
  | some v =>
    rw [Option.bind_some]
    split <;> simp

/-- Bounds in order are reported as too large exactly if the type does not hold one of them. -/
theorem integerFault?_unrepresentable_iff (horder : limits.InOrder) :
    (∃ low high, limits.integerFault? = some (.unrepresentable low high)) ↔
      ¬ ∀ b, limits.Declares b → limits.typeRange.holds b = true := by
  rw [integerFault?_eq, orderFault?_eq_none_iff.mpr horder, Option.none_or,
    ← fitFault?_eq_none_iff_declares]
  cases hfit : limits.fitFault? with
  | none =>
    simp only [Option.none_or, not_true_eq_false, iff_false, not_exists]
    exact startFault?_ne_unrepresentable
  | some fault =>
    rw [fitFault?] at hfit
    split at hfit
    · obtain rfl := Option.some.inj hfit
      simp
    · cases hfit

end Limits

/-- **Types of integers.** The type of an integer is the one that its bounds ask for. Where the
minimum does not exceed the maximum, the check reports bounds as too large exactly if one of them is
outside the range of 64 bits with that sign, and it passes exactly if none is and the default is
between the bounds, the range of the type standing in for an absent bound. -/
theorem integer_type_and_check (limits : Limits Int) (location : Location) :
    ∃ signed width, (Scalar.integer limits).primitive = .integer signed width ∧
      limits.AskFor signed width ∧
      (limits.InOrder →
        ((∃ low high, (Node.scalar (.integer limits)).check location =
            .error ⟨location, .unrepresentable low high⟩) ↔
          ∃ b, limits.Declares b ∧ (integerRange signed .w64).holds b = false) ∧
        ((Node.scalar (.integer limits)).check location = .ok () ↔
          (∀ b, limits.Declares b → (integerRange signed .w64).holds b = true) ∧
            ∀ d, limits.default = some d →
              limits.minimum.getD (integerRange signed width).low ≤ d ∧
                d ≤ limits.maximum.getD (integerRange signed width).high)) := by
  have htype := Limits.forBounds_eq_iff.mp (Eq.refl (Scalar.integer limits).primitive)
  refine ⟨_, _, rfl, htype, fun horder => ⟨?_, ?_⟩⟩
  · have hreported : (∃ low high, (Node.scalar (.integer limits)).check location =
        .error ⟨location, .unrepresentable low high⟩) ↔
          ∃ low high, limits.integerFault? = some (.unrepresentable low high) := by
      rw [Node.check_scalar, Scalar.fault?]
      cases limits.integerFault? <;> simp [rejectFault]
    rw [hreported, Limits.integerFault?_unrepresentable_iff horder, Limits.typeRange,
      Limits.fit_iff htype]
    simp
  · rw [Node.check_scalar, rejectFault_eq_ok_iff, Scalar.fault?, Limits.integerFault?_eq,
      Option.or_eq_none_iff, Option.or_eq_none_iff, Limits.fitFault?_eq_none_iff_declares,
      Limits.startFault?_eq_none_iff, Limits.typeRange, Limits.fit_iff htype,
      Limits.orderFault?_eq_none_iff]
    exact and_iff_right horder

/-- Bounds that no type of 64 bits holds, since the negative one asks for a sign. -/
def saturatedExample : Limits Int :=
  ⟨some (-1), some 18446744073709551615, none⟩

theorem saturatedExample_refused :
    saturatedExample.InOrder ∧
      ∃ low high, (Node.scalar (.integer saturatedExample)).check ["x"] =
        .error ⟨["x"], .unrepresentable low high⟩ := by
  obtain ⟨signed, width, -, htype, hcheck⟩ := integer_type_and_check saturatedExample ["x"]
  have horder : saturatedExample.InOrder := by
    intro m hm m' hm'
    obtain rfl := Option.some.inj hm
    obtain rfl := Option.some.inj hm'
    decide
  have hsigned : signed = true := by
    refine (Bool.not_eq_false signed).mp fun hsign => ?_
    obtain ⟨m, hm, hle⟩ := htype.sign.mp hsign
    obtain rfl := Option.some.inj hm
    omega
  subst hsigned
  exact ⟨horder, (hcheck horder).1.mpr ⟨18446744073709551615, .inr rfl, by decide⟩⟩

end ConfigForge
