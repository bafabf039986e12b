import ConfigForge.Proofs.IntegerHelpers
import ConfigForge.Proofs.ValueBodies
import ConfigForge.Proofs.Visits
import ConfigForge.Proofs.WalkOrder

/-!
# Initial values

`Init` sets a scalar to its default or to the value nearest to zero, fills a vector up to its least
length, and goes through the members of an object; `Validate` follows the same structure. The value
that `Init` writes is one that `Validate` accepts, whatever was there before. Types refer to objects
that the walk is over with, so the argument goes along the order of the walk.

This is said of the functions that are read off the lines of the source. Only numbers can fail to
start valid: no value is above or below a NaN. So it is assumed that the numbers do, which holds where
no NaN is involved and the literals stand for the numbers.

Results:

* `Limits.Consistent.start_between`: an integer starts between its bounds.
* `Limits.startsInside_of_check`: so does a number, if neither bounds nor default are a NaN.
* `startsValid_scalar`, `startsValid_vector`, `startsValid_class`: one kind of type at a time.
* `initial_values_valid`: `Init` writes what `Validate` accepts.
-/

namespace ConfigForge

open Code (Placement)
open Emit Cpp

/-! ## Checked nodes -/

theorem Node.check_of_checkMembers {location : Location} {members : List (String × Node)}
    (h : Node.checkMembers location members = .ok ()) :
    ∀ m ∈ members, m.2.check (location ++ [m.1]) = .ok () := by
  induction members with
  | nil => intro m hm; cases hm
  | cons first members ih =>
    obtain ⟨name, node⟩ := first
    rw [Node.checkMembers, Except.bind_eq_ok_iff] at h
    obtain ⟨⟨⟩, hfirst, hrest⟩ := h
    intro m hm
    rcases List.mem_cons.mp hm with rfl | hm
    · exact hfirst
    · exact ih hrest m hm

/-- Where a node passes the check, so does every node in it. -/
theorem Place.Has.check {p q : Place} (h : p.Has q) {location : Location}
    (hcheck : p.node.check location = .ok ()) : ∃ location', q.node.check location' = .ok () := by
  induction p using Place.induction generalizing location with
  | step p ih =>
    rcases Place.has_iff.mp h with rfl | ⟨c, hc, hcq⟩
    · exact ⟨location, hcheck⟩
    · obtain ⟨around, name, node⟩ := p
      cases node with
      | scalar s => simp [Place.children] at hc
      | reference r => simp [Place.children] at hc
      | array item bounds =>
        rw [Node.check, Except.bind_eq_ok_iff] at hcheck
        obtain ⟨-, -, hitem⟩ := hcheck
        have hitem' : c = ⟨around, itemName name, item⟩ := List.mem_singleton.mp hc
        exact ih c hc hcq (by rw [hitem']; exact hitem)
      | object members =>
        obtain ⟨m, hm, rfl⟩ := mem_placesIn.mp hc
        exact ih _ hc hcq (Node.check_of_checkMembers hcheck m hm)

theorem Schema.Has.check {s : Schema} {p : Place} (hp : s.Has p) (hcheck : s.check = .ok ()) :
    ∃ location, p.node.check location = .ok () := by
  obtain ⟨root, hroot, hp⟩ := Schema.has_iff.mp hp
  obtain ⟨m, hm, rfl⟩ := mem_placesIn.mp hroot
  exact hp.check (Node.check_of_checkMembers hcheck m hm)

/-! ## Starts inside the bounds -/

/-- The value that an integer starts with is between its bounds. -/
theorem Limits.Consistent.start_between {limits : Limits Int} (h : limits.Consistent) :
    limits.low ≤ limits.default.getD (zeroWithin limits) ∧
      limits.default.getD (zeroWithin limits) ≤ limits.high := by
  cases hdefault : limits.default with
  | some v => exact h.default v hdefault
  | none =>
    have hzero := integerRange_zero (signFor limits.minimum)
      (widthFor limits.minimum limits.maximum)
    change limits.typeRange.low ≤ 0 ∧ 0 ≤ limits.typeRange.high at hzero
    rw [Option.getD_none, zeroWithin, Limits.low, Limits.high]
    cases hmin : limits.minimum with
    | none =>
      cases hmax : limits.maximum with
      | none => simpa using hzero
      | some m =>
        have hm := IntRange.holds_iff.mp (h.maximum m hmax)
        simp only [Option.map_none, Option.map_some, Option.getD_none, Option.getD_some]
        omega
    | some m =>
      have hm := IntRange.holds_iff.mp (h.minimum m hmin)
      cases hmax : limits.maximum with
      | none =>
        simp only [Option.map_none, Option.map_some, Option.getD_none, Option.getD_some]
        omega
      | some m' =>
        have horder := h.order m hmin m' hmax
        simp only [Option.map_some, Option.getD_some]
        omega

/-- Whether a number starts between its bounds. -/
def Limits.StartsInside (limits : Limits Binary64) : Prop :=
  (∀ m ∈ limits.minimum, (m.lt limits.start || limits.start.same m) = true) ∧
    ∀ m ∈ limits.maximum, (limits.start.lt m || limits.start.same m) = true

/-- Whether neither the bounds nor the default of a number are a NaN. -/
def Limits.NaNFree (limits : Limits Binary64) : Prop :=
  (∀ x ∈ limits.minimum, x.isNaN = false) ∧ (∀ x ∈ limits.maximum, x.isNaN = false) ∧
    ∀ x ∈ limits.default, x.isNaN = false

instance (limits : Limits Binary64) : Decidable limits.NaNFree :=
  inferInstanceAs (Decidable (_ ∧ _ ∧ _))

theorem Binary64.same_comm (x y : Binary64) : x.same y = y.same x := by
  rw [same, same, Bool.and_comm (!x.isNaN), decide_eq_decide.mpr eq_comm]

theorem Binary64.lt_or_same {x y : Binary64} (hx : x.isNaN = false) (hy : y.isNaN = false)
    (h : y.lt x = false) : (x.lt y || x.same y) = true := by
  simp only [lt, same, hx, hy, Bool.not_false, Bool.true_and, Bool.or_eq_true, decide_eq_true_eq,
    decide_eq_false_iff_not] at h ⊢
  omega

namespace Limits

variable {limits : Limits Binary64}

/-- Zero moved into bounds that are in order is not outside them. -/
theorem numberZeroWithin_not_lt
    (horder : ∀ m, limits.minimum = some m → ∀ m', limits.maximum = some m' → m'.lt m = false) :
    (∀ m, limits.minimum = some m → (numberZeroWithin limits).lt m = false) ∧
      ∀ m, limits.maximum = some m → m.lt (numberZeroWithin limits) = false := by
  obtain ⟨raised, habove, hzero⟩ : ∃ raised : Binary64,
      (∀ m, limits.minimum = some m → raised.lt m = false) ∧
        numberZeroWithin limits =
          (limits.maximum.map fun m => if m.lt raised then m else raised).getD raised := by
    rw [numberZeroWithin]
    cases limits.minimum with
    | none => exact ⟨Binary64.zero, nofun, by cases limits.maximum <;> rfl⟩
    | some minimum =>
      refine ⟨if Binary64.zero.lt minimum then minimum else Binary64.zero, ?_,
        by cases limits.maximum <;> rfl⟩
      rintro m ⟨⟩
      by_cases hlt : Binary64.zero.lt minimum = true
      · rw [if_pos hlt, Binary64.not_lt_self]
      · rw [if_neg hlt, Bool.eq_false_iff.mpr hlt]
  rw [hzero]
  cases hmax : limits.maximum with
  | none => exact ⟨habove, nofun⟩
  | some maximum =>
    rw [Option.map_some, Option.getD_some]
    by_cases hlt : maximum.lt raised = true
    · rw [if_pos hlt]
      refine ⟨fun m hm => horder m hm maximum hmax, ?_⟩
      rintro m ⟨⟩
      exact Binary64.not_lt_self maximum
    · rw [if_neg hlt]
      refine ⟨habove, ?_⟩
      rintro m ⟨⟩
      exact Bool.eq_false_iff.mpr hlt

/-- A start that is no default is zero or one of the bounds. -/
theorem NaNFree.start (h : limits.NaNFree) : limits.start.isNaN = false := by
  obtain ⟨hmin, hmax, hdefault⟩ := h
  have hzero : Binary64.zero.isNaN = false := by decide
  rw [Limits.start]
  cases hv : limits.default with
  | some v => exact hdefault v hv
  | none =>
    rw [Option.getD_none, numberZeroWithin]
    cases hm : limits.minimum <;> cases hm' : limits.maximum <;> dsimp only <;> repeat' split
    all_goals first | exact hzero | exact hmin _ hm | exact hmax _ hm'

/-- Bounds and defaults that are no NaN give a start between the bounds. -/
theorem startsInside_of_check {location : Location}
    (h : (Node.scalar (.number limits)).check location = .ok ()) (hnan : limits.NaNFree) :
    limits.StartsInside := by
  have hfault : limits.numberFault? = none := rejectFault_eq_ok_iff.mp h
  rw [numberFault?] at hfault
  simp only [Option.or_eq_none_iff] at hfault
  obtain ⟨horder, hdefault⟩ := hfault
  have horder' : ∀ m, limits.minimum = some m → ∀ m', limits.maximum = some m' →
      m'.lt m = false := by
    intro m hm m' hm'
    rw [hm, hm', Option.bind_some, Option.bind_some] at horder
    simpa using horder
  have hinside : (∀ m, limits.minimum = some m → limits.start.lt m = false) ∧
      ∀ m, limits.maximum = some m → m.lt limits.start = false := by
    rw [Limits.start]
    cases hv : limits.default with
    | none => exact numberZeroWithin_not_lt horder'
    | some v =>
      rw [hv, Option.bind_some] at hdefault
      have hnot : ¬ (limits.minimum.any (v.lt ·) = true ∨ limits.maximum.any (·.lt v) = true) := by
        intro hout
        rw [if_pos hout] at hdefault
        cases hdefault
      rw [not_or] at hnot
      refine ⟨fun m hm => ?_, fun m hm => ?_⟩
      · simpa [hm] using hnot.1
      · simpa [hm] using hnot.2
  refine ⟨fun m hm => ?_, fun m hm => ?_⟩
  · rw [Binary64.same_comm]
    exact Binary64.lt_or_same (hnan.1 m hm) hnan.start (hinside.1 m hm)
  · exact Binary64.lt_or_same hnan.start (hnan.2.1 m hm) (hinside.2 m hm)

end Limits

/-- Whether the literals of a number, for its start and its bounds, stand for these numbers. -/
def Limits.IsWritten (limits : Limits Binary64) : Prop :=
  limits.start.IsWritten ∧ (∀ m ∈ limits.minimum, m.IsWritten) ∧ ∀ m ∈ limits.maximum, m.IsWritten

instance (limits : Limits Binary64) : Decidable limits.IsWritten :=
  inferInstanceAs (Decidable (_ ∧ _ ∧ _))

/-- The tests of bounds hold of the value that a scalar starts with. -/
theorem exists_answers (w : World) (p : Placement) {s : Scalar} {location : Location}
    (hcheck : (Node.scalar s).check location = .ok ())
    (hnumber : ∀ limits, s = .number limits → limits.StartsInside ∧ limits.IsWritten) :
    ∃ answers, Answered w p s.initial ((boundTests s s.primitive).map Expr.paren) answers ∧
      answers.all id = true := by
  cases s with
  | bool value => exact ⟨[], .nil, rfl⟩
  | string value => exact ⟨[], .nil, rfl⟩
  | integer limits =>
    have hconsistent := Limits.consistent_of_check hcheck
    have hbetween := hconsistent.start_between
    have hrange := hconsistent.low_high
    have hholds : limits.typeRange.holds (limits.default.getD (zeroWithin limits)) = true :=
      IntRange.holds_iff.mpr (by omega)
    obtain ⟨answers, hanswered, hall⟩ := boundTests_answers w p hholds
    exact ⟨answers, hanswered, hall.trans (decide_eq_true hbetween)⟩
  | number limits =>
    obtain ⟨⟨hmin, hmax⟩, -, hwrittenMin, hwrittenMax⟩ := hnumber limits rfl
    have hge : ∀ m ∈ limits.minimum, ∀ env : Env, env.get? "val" = some (.double limits.start) →
        (Expr.binary .ge .val (.double m)).eval w p env =
          some (.bool (m.lt limits.start || limits.start.same m)) := by
      intro m hm env hval
      rw [Expr.eval_binary, Expr.eval_val, hval, eval_double (hwrittenMin m hm)]
      rfl
    have hle : ∀ m ∈ limits.maximum, ∀ env : Env, env.get? "val" = some (.double limits.start) →
        (Expr.binary .le .val (.double m)).eval w p env =
          some (.bool (limits.start.lt m || limits.start.same m)) := by
      intro m hm env hval
      rw [Expr.eval_binary, Expr.eval_val, hval, eval_double (hwrittenMax m hm)]
      rfl
    have hanswered := (answered_bound w p hge).append (answered_bound w p hle)
    rw [← List.map_append] at hanswered
    refine ⟨_, hanswered, ?_⟩
    rw [List.all_append, Bool.and_eq_true]
    constructor
    · cases hm : limits.minimum with
      | none => rfl
      | some m => simpa using hmin m hm
    · cases hm : limits.maximum with
      | none => rfl
      | some m => simpa using hmax m hm

/-- The number of items that an array starts with is allowed. -/
theorem ItemBounds.initialLength_between {bounds : ItemBounds} (h : bounds.fault? = none) :
    (∀ n, bounds.least = some n → n ≤ bounds.initialLength) ∧
      ∀ n, bounds.most = some n → bounds.initialLength ≤ n := by
  rw [ItemBounds.fault?] at h
  rw [ItemBounds.initialLength]
  cases hleast : bounds.least with
  | none => simp
  | some least =>
    refine ⟨fun n hn => (Option.some.inj hn).ge, fun n hmost => ?_⟩
    rw [hleast, hmost, Option.bind_some, Option.bind_some] at h
    rw [Option.getD_some]
    by_contra hlt
    rw [if_pos (by omega)] at h
    cases h

/-! ## Types that start valid -/

/-- Whether, from some depth of calls on, `Init` of a type succeeds, and `Validate` accepts what it
has written, whatever was there before. -/
def StartsValid (source : List String) (types : String → Option Primitive) (q : QualifiedName) :
    Prop :=
  ∃ (initial : Value → Value) (least : Nat), ∀ depth, least ≤ depth → ∀ before,
    (world source types depth).init (q.helper .init) before = some (initial before) ∧
      (world source types depth).validate (q.helper .validate) (initial before) = some true

section

variable {source : List String} {types : String → Option Primitive} {target : Target} {p : Place}

/-- The bodies of the two helpers decide. -/
theorem Defines.startsValid {bodies : HelperBodies} (h : Defines source p bodies)
    (hruninit : IsRun (scopePlacement p.scope) bodies.init)
    (hrunvalidate : IsRun (scopePlacement p.scope) bodies.validate)
    (initial : Value → Value) (least : Nat)
    (hinit : ∀ depth, least ≤ depth → ∀ before, ∃ env,
      runBody (world source types depth) (scopePlacement p.scope) [("val", before)] bodies.init =
          some (.running env) ∧
        env.get? "val" = some (initial before))
    (hvalidate : ∀ depth, least ≤ depth → ∀ before,
      (runBody (world source types depth) (scopePlacement p.scope) [("val", initial before)]
        bodies.validate).bind Outcome.answer? = some true) : StartsValid source types p.type := by
  refine ⟨initial, least + 1, fun depth hdepth before => ?_⟩
  obtain ⟨depth, rfl⟩ := Nat.exists_eq_succ_of_ne_zero (show depth ≠ 0 by omega)
  have hleast : least ≤ depth := by omega
  constructor
  · obtain ⟨env, hrun, hval⟩ := hinit depth hleast before
    rw [h.init_eq hruninit, hrun]
    exact hval
  · rw [h.validate_eq hrunvalidate, hvalidate depth hleast before]

theorem startsValid_scalar {s : Scalar} {location : Location}
    (h : Defines source p (aliasBodies p.type.name s s.primitive))
    (hlegible : HelperBodies.ValuesLegible (scopePlacement p.scope)
      (aliasBodies p.type.name s s.primitive))
    (hcheck : (Node.scalar s).check location = .ok ())
    (hnumber : ∀ limits, s = .number limits → limits.StartsInside ∧ limits.IsWritten) :
    StartsValid source types p.type := by
  refine h.startsValid (isRun_statements hlegible.init) (isRun_statements hlegible.validate)
    (fun _ => s.initial) 0 ?_ ?_
  · intro depth _ before
    refine ⟨_, ?_, Entries.get?_put_self [("val", before)] "val" s.initial⟩
    rw [aliasBodies, runBody_statements, runAll_cons,
      Stmt.run_assign (eval_initialValue _ fun limits hs => (hnumber limits hs).2.1)]
    rfl
  · intro depth _ before
    obtain ⟨answers, hanswered, hall⟩ :=
      exists_answers (world source types depth) (scopePlacement p.scope) hcheck hnumber
    have hval : Entries.get? [("val", s.initial)] "val" = some s.initial := rfl
    rw [← hall]
    exact run_conjunction hanswered hval

/-- An array starts with its least number of items, each of which starts valid. -/
theorem startsValid_vector {item : QualifiedName} {bounds : ItemBounds}
    (h : Defines source p (vectorBodies target item bounds))
    (hlegible : HelperBodies.ValuesLegible (scopePlacement p.scope)
      (vectorBodies target item bounds)) (htyped : item.IsTyped)
    (hbounds : bounds.fault? = none)
    (hitem : StartsValid source types item) : StartsValid source types p.type := by
  obtain ⟨initial, least, hitem⟩ := hitem
  have hruninit : IsRun (scopePlacement p.scope) (vectorBodies target item bounds).init := by
    refine fun b hb => ⟨hlegible.init b hb, ?_⟩
    rcases List.mem_cons.mp hb with rfl | hb
    · rfl
    · split at hb
      · rw [List.mem_singleton.mp hb]
        rfl
      · cases hb
  have hrunvalidate : IsRun (scopePlacement p.scope) (vectorBodies target item bounds).validate := by
    refine fun b hb => ⟨hlegible.validate b hb, ?_⟩
    rcases List.mem_append.mp hb with hb | hb
    · obtain ⟨s, -, rfl⟩ := List.mem_map.mp hb
      rfl
    · rcases List.mem_cons.mp hb with rfl | hb
      · rfl
      · rw [List.mem_singleton.mp hb]
        rfl
  -- a loop over the items takes one turn more than there are items
  have hturns : ∀ depth, max least (bounds.initialLength + 1) ≤ depth →
      bounds.initialLength < (world source types depth).turns := by
    intro depth hdepth
    rw [turns_world]
    omega
  refine h.startsValid hruninit hrunvalidate
    (fun _ => .vector (List.replicate bounds.initialLength (initial .blank)))
    (max least (bounds.initialLength + 1)) ?_ ?_
  · intro depth hdepth before
    exact runBody_vectorInit _ target (htyped.isPath_helper .init) (hturns depth hdepth)
      (hitem depth (by omega) .blank).1 before
  · intro depth hdepth before
    obtain ⟨hleast, hmost⟩ := bounds.initialLength_between hbounds
    refine runBody_vectorValidate _ target (htyped.isPath_helper .validate) ?_ ?_ ?_ ?_
    · rw [List.length_replicate]
      exact hturns depth hdepth
    · intro v hv
      rw [List.eq_of_mem_replicate hv]
      exact (hitem depth (by omega) .blank).2
    · rwa [List.length_replicate]
    · rwa [List.length_replicate]

/-- An object starts with members that start valid. -/
theorem startsValid_class {members : List Member}
    (h : Defines source p (classBodies target members))
    (hlegible : HelperBodies.ValuesLegible (scopePlacement p.scope) (classBodies target members))
    (htyped : ∀ m ∈ members, m.emitted.name.IsTyped)
    (hnames : (members.map Member.name).Nodup)
    (hmembers : ∀ m ∈ members, StartsValid source types m.emitted.name) :
    StartsValid source types p.type := by
  have : Nonempty Value := ⟨.blank⟩
  choose! initial least hmembers using hmembers
  have hdeep : ∀ m ∈ members, least m ≤ (members.map least).max?.getD 0 := fun m hm =>
    List.le_max?_getD_of_mem (List.mem_map_of_mem hm)
  refine h.startsValid (isRun_statements hlegible.init) (isRun_statements hlegible.validate)
    (fillMembers initial members) ((members.map least).max?.getD 0) ?_ ?_
  · intro depth hdepth before
    exact runBody_classInit _ target (fun m hm => (htyped m hm).isPath_helper .init)
      (fun m hm before => (hmembers m hm depth ((hdeep m hm).trans hdepth) before).1) before
  · intro depth hdepth before
    refine runBody_classValidate _ target (fun m hm => (htyped m hm).isPath_helper .validate)
      fun m hm => ?_
    obtain ⟨before', hfield⟩ := fillMembers_field? initial hnames hm before
    exact ⟨_, hfield, (hmembers m hm depth ((hdeep m hm).trans hdepth) before').2⟩

end

/-! ## Schemas -/

section

variable {o : Options} {s : Schema} {units : Entries CodeUnit} {types : String → Option Primitive}

/-- A scalar starts valid. -/
theorem Schema.Admissible.startsValid_scalar {t : Schema} (ht : t.Admissible)
    (hrefs : EachReferenceIn Reference.IsSettled [] [] t.entries) {p : Place} (hp : t.Has p)
    {scalar : Scalar}
    (hnode : p.node = .scalar scalar)
    (hnumber : ∀ limits, scalar = .number limits → limits.StartsInside ∧ limits.IsWritten) :
    StartsValid (t.source o) types p.type := by
  obtain ⟨location, hcheck⟩ := hp.check ht.limits
  rw [hnode] at hcheck
  have hbodies : p.bodies? o.target = some (aliasBodies p.type.name scalar scalar.primitive) := by
    rw [Place.bodies?, hnode]
  exact ConfigForge.startsValid_scalar (ht.defines o hp hbodies)
    (ht.valuesLegible hp hrefs hbodies) hcheck hnumber

/-- The parts of a node start valid, so the node does. -/
theorem startsValid_of_children {t : Schema} (ht : t.Admissible)
    (hrefs : EachReferenceIn Reference.IsSettled [] [] t.entries) {p : Place} (hp : t.Has p)
    (href : p.node.isReference = false)
    (hnumber : ∀ limits, p.node = .scalar (.number limits) →
      StartsValid (t.source o) types p.type)
    (hbelow : ∀ c ∈ p.children, StartsValid (t.source o) types c.provided) :
    StartsValid (t.source o) types p.type := by
  obtain ⟨location, hcheck⟩ := hp.check ht.limits
  cases hnode : p.node with
  | reference r =>
    rw [hnode] at href
    cases href
  | scalar scalar =>
    cases scalar with
    | number limits => exact hnumber limits hnode
    | _ => exact ht.startsValid_scalar hrefs hp hnode nofun
  | array item bounds =>
    rw [hnode, Node.check, Except.bind_eq_ok_iff] at hcheck
    obtain ⟨⟨⟩, hbounds, -⟩ := hcheck
    have hbodies : p.bodies? o.target =
        some (vectorBodies o.target (item.provided p.around (itemName p.name)) bounds) := by
      rw [Place.bodies?, hnode]
    refine startsValid_vector (ht.defines o hp hbodies) (ht.valuesLegible hp hrefs hbodies)
      (ht.isTyped_item hp hrefs hnode) (rejectFault_eq_ok_iff.mp hbounds) ?_
    refine hbelow ⟨p.around, itemName p.name, item⟩ ?_
    rw [Place.children_array hnode]
    exact List.mem_cons_self
  | object members =>
    have hbodies : p.bodies? o.target =
        some (classBodies o.target (emitMembers o.target p.path members)) := by
      rw [Place.bodies?, hnode]
    have hmember : ∀ m ∈ emitMembers o.target p.path members, ∃ c ∈ p.children,
        m.emitted.name = c.provided := by
      intro m hm
      rw [emitMembers_eq] at hm
      obtain ⟨named, hnamed, rfl⟩ := List.mem_map.mp hm
      refine ⟨⟨p.path, named.1, named.2⟩, ?_, Node.emit_name _ _ _ _⟩
      rw [Place.children_object hnode]
      exact mem_placesIn.mpr ⟨named, hnamed, rfl⟩
    refine startsValid_class (ht.defines o hp hbodies) (ht.valuesLegible hp hrefs hbodies) ?_ ?_ ?_
    · exact fun m hm => (ht.legible_members hp hrefs hnode o.target m hm).type
    · rw [emitMembers_eq, List.map_map]
      exact (ht.classes p members hp hnode).1.sublist (memberNames_sublist members)
    · intro m hm
      obtain ⟨c, hc, hname⟩ := hmember m hm
      rw [hname]
      exact hbelow c hc

/-- **Initial values.** The lines of the generated source are read as functions and run, whatever the
type names stand for. If the numbers start valid, then so does every type: whatever was there before,
`Init` writes a value that `Validate` accepts. A number starts valid, if no NaN is involved and its
literals stand for the numbers. In particular `Validate` accepts some value of every type. -/
theorem initial_values_valid (h : generateUnits o.target s = .ok units)
    (types : String → Option Primitive) :
    let source := sourceLines o (units.map fun e => e.2.fragment)
    (∀ p limits, s.Has p → p.node = .scalar (.number limits) → limits.NaNFree →
        limits.IsWritten → StartsValid source types p.type) ∧
      ((∀ p limits, s.Has p → p.node = .scalar (.number limits) →
          StartsValid source types p.type) →
        ∀ p, s.Has p → p.node.isReference = false →
          StartsValid source types p.type ∧
          ∃ v least, ∀ depth, least ≤ depth →
            (world source types depth).validate (p.type.helper .validate) v = some true) := by
  intro source
  obtain ⟨hs, hunits⟩ := generateUnits_ok_iff.mp h
  obtain ⟨ht, hrefs⟩ := hs.settled
  have hsource : source = s.settled.source o := by
    rw [Schema.source, ← hunits]
  have hsettled : ∀ p, s.Has p → ∃ done, s.settled.Has (p.settle done) := by
    rintro p ⟨position, hposition⟩
    obtain ⟨m, -, -, hplace, -⟩ := exists_visit h hposition
    exact ⟨m.done, position, hplace⟩
  rw [hsource]
  refine ⟨?_, ?_⟩
  · intro p limits hp hnode hnan hwritten
    obtain ⟨location, hcheck⟩ := hp.check hs.limits
    have hinside := Limits.startsInside_of_check (hnode ▸ hcheck) hnan
    obtain ⟨done, hplace⟩ := hsettled p hp
    have hsettle : (p.settle done).node = .scalar (.number limits) := by
      rw [Place.settle, hnode]
      rfl
    have hstart : StartsValid (s.settled.source o) types (p.settle done).type := by
      refine ht.startsValid_scalar hrefs hplace hsettle ?_
      rintro _ ⟨⟩
      exact ⟨hinside, hwritten⟩
    exact hstart
  · intro hnumbers p hp href
    have hvalid : ∀ q, s.settled.Has q → StartsValid (s.settled.source o) types q.provided := by
      intro q hq
      refine ht.induction_in_order
        (P := fun q => StartsValid (s.settled.source o) types q.provided) hrefs ?_ hq
      intro q hq hbelow hobject
      cases hnode : q.node.isReference with
      | true =>
        obtain ⟨r, hr⟩ := Node.exists_of_isReference hnode
        obtain ⟨o, -, ho, hpath, hvalid⟩ := hobject r hr
        rw [Place.provided_eq_of_path hr ho hpath]
        exact hvalid
      | false =>
        rw [Place.provided_of_not_reference hnode]
        refine startsValid_of_children ht hrefs hq hnode (fun limits hlimits => ?_) hbelow
        obtain ⟨q₀, done, hq₀, rfl⟩ := Schema.exists_of_settled hq
        exact hnumbers q₀ limits hq₀ (Node.eq_scalar_of_settle hlimits)
    obtain ⟨done, hplace⟩ := hsettled p hp
    have hstart := hvalid (p.settle done) hplace
    have hsettle : (p.settle done).node.isReference = false := by
      rw [Place.settle, Node.isReference_settle, href]
    rw [Place.provided_of_not_reference hsettle] at hstart
    obtain ⟨initial, least, hstart⟩ := hstart
    exact ⟨⟨initial, least, hstart⟩, initial .blank, least, fun depth hdepth =>
      (hstart depth hdepth .blank).2⟩

/-- A schema with a bounded integer, a bounded number, and an array of references. -/
def startExample : Schema :=
  ⟨[("corner", .object [("x", .scalar (.integer ⟨some 3, some 9, none⟩)),
      ("scale", .scalar (.number ⟨some (Binary64.ofInt 1), none, none⟩))]),
    ("shape", .object [("corners", .array (.reference ⟨["corner"]⟩) ⟨some 3, some 4⟩)])]⟩

theorem startExample_shape_valid :
    ∃ units, generateUnits Options.default.target startExample = .ok units ∧
      StartsValid (sourceLines Options.default (units.map fun e => e.2.fragment))
        (fun _ => none) ⟨[], "Shape"⟩ := by
  obtain ⟨units, h⟩ := Schema.generates_of_toBool
    (show (generateUnits Options.default.target startExample).toBool = true by decide)
  refine ⟨units, h, ?_⟩
  obtain ⟨hnumbers, hvalid⟩ := initial_values_valid h fun _ => none
  have hnumber : ∀ p limits, startExample.Has p → p.node = .scalar (.number limits) →
      limits.NaNFree ∧ limits.IsWritten := by
    intro p limits hp hnode
    have hp' := mem_postorder_iff.mpr hp
    simp only [Schema.postorder, startExample, postorderMembers, Node.postorder, List.mem_append,
      List.mem_singleton, List.not_mem_nil, or_false] at hp'
    rcases hp' with ((rfl | rfl) | rfl) | ((rfl | rfl) | rfl)
    all_goals cases hnode
    exact ⟨by decide, by decide⟩
  have hplace : startExample.Has ⟨[], "shape",
      .object [("corners", .array (.reference ⟨["corner"]⟩) ⟨some 3, some 4⟩)]⟩ := ⟨[1], rfl⟩
  have htype : typeName "shape" = "Shape" := by decide
  rw [← htype]
  exact (hvalid (fun p limits hp hnode => hnumbers p limits hp hnode (hnumber p limits hp hnode).1
    (hnumber p limits hp hnode).2) _ hplace rfl).1

end

end ConfigForge
