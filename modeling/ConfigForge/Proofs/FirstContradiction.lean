import ConfigForge.Proofs.IntegerTypes

/-!
# The first contradiction

The check of a schema examines the nodes in the order of the text, a node before the nodes in it,
and stops at the first node whose own limits contradict each other. A position is a list of child
numbers, so the order of the text is the lexicographic order of positions. The location of the error
is read off the position: the name of the entry, then for every step the name of the member or
`items`.

Results:

* `Node.ownFault?_eq_none_iff`: a node is at fault exactly if its own limits are inconsistent.
* `reportsFirst_tree`, `reportsFirst_cons`: where the first fault of a tree and of several trees is.
* `Place.checked`: what the check of a tree says.
* `schema_check_reports_first`: what the check of a schema says.
-/

namespace ConfigForge

/-! ## Limits of a node -/

/-- Whether the bounds of a number are in order, with a default between them. A comparison with a
NaN does not hold, so a NaN contradicts nothing. -/
structure Limits.ConsistentNumbers (limits : Limits Binary64) : Prop where
  order : ∀ m, limits.minimum = some m → ∀ m', limits.maximum = some m' → m'.lt m = false
  above : ∀ v, limits.default = some v → ∀ m, limits.minimum = some m → v.lt m = false
  below : ∀ v, limits.default = some v → ∀ m, limits.maximum = some m → m.lt v = false

/-- Whether an array may have the items it needs. -/
def ItemBounds.Consistent (bounds : ItemBounds) : Prop :=
  ∀ least, bounds.least = some least → ∀ most, bounds.most = some most → least ≤ most

namespace Node

/-- Whether the limits of a node itself are consistent. -/
def Consistent : Node → Prop
  | .scalar (.integer limits) => limits.Consistent
  | .scalar (.number limits) => limits.ConsistentNumbers
  | .array _ bounds => bounds.Consistent
  | .scalar (.bool _) | .scalar (.string _) | .object _ | .reference _ => True

/-- The contradiction in a node itself, whatever is in it. -/
def ownFault? : Node → Option ConstraintFault
  | .scalar s => s.fault?
  | .array _ bounds => bounds.fault?
  | .object _ | .reference _ => none

end Node

theorem Limits.numberFault?_eq_none_iff {limits : Limits Binary64} :
    limits.numberFault? = none ↔ limits.ConsistentNumbers := by
  obtain ⟨minimum, maximum, value⟩ := limits
  rw [Limits.numberFault?, Option.or_eq_none_iff]
  constructor
  · rintro ⟨horder, hstart⟩
    refine ⟨?_, ?_, ?_⟩
    · rintro m rfl m' rfl
      simpa using horder
    · rintro v rfl m rfl
      simp_all
    · rintro v rfl m rfl
      simp_all
  · rintro ⟨horder, habove, hbelow⟩
    constructor
    · cases minimum with
      | none => rfl
      | some m =>
        cases maximum with
        | none => rfl
        | some m' => simpa using horder m rfl m' rfl
    · cases value with
      | none => rfl
      | some v => simpa [Option.any_eq_false] using ⟨habove v rfl, hbelow v rfl⟩

theorem ItemBounds.fault?_eq_none_iff {bounds : ItemBounds} :
    bounds.fault? = none ↔ bounds.Consistent := by
  obtain ⟨least, most⟩ := bounds
  rw [ItemBounds.fault?, ItemBounds.Consistent]
  cases least with
  | none => simp
  | some least =>
    cases most with
    | none => simp
    | some most => simp

/-- A node is at fault exactly if its own limits are inconsistent. -/
theorem Node.ownFault?_eq_none_iff {node : Node} : node.ownFault? = none ↔ node.Consistent := by
  cases node with
  | scalar s =>
    cases s with
    | integer limits => exact Limits.integerFault?_eq_none_iff
    | number limits => exact Limits.numberFault?_eq_none_iff
    | bool value => exact iff_of_true rfl trivial
    | string value => exact iff_of_true rfl trivial
  | array item bounds => exact ItemBounds.fault?_eq_none_iff
  | object members => exact iff_of_true rfl trivial
  | reference r => exact iff_of_true rfl trivial

/-! ## Locations -/

namespace Place

/-- The step of a location that leads from a node to a child: the name of the member, or `items`. -/
def stepTo (p c : Place) : String :=
  if p.node.isArray then "items" else c.name

/-- The steps that lead to a position below. -/
def route? (p : Place) : List Nat → Option Location
  | [] => some []
  | i :: rest => p.children[i]?.bind fun c => (c.route? rest).map (p.stepTo c :: ·)

end Place

/-- The steps that lead to a position of a list of trees, where `step` leads to each of them. -/
def routeAmong? (step : Place → String) (forest : List Place) : List Nat → Option Location
  | [] => none
  | i :: rest => forest[i]?.bind fun p => (p.route? rest).map (step p :: ·)

/-- The names and `items` steps that lead to a position of a schema. -/
def Schema.route? (s : Schema) (position : List Nat) : Option Location :=
  routeAmong? Place.name (placesIn [] s.entries) position

theorem render_of_routeAmong? {step : Place → String} {forest : List Place} {position : List Nat}
    {route : Location} (h : routeAmong? step forest position = some route) :
    route.render = Text.joinWith "." route := by
  cases position with
  | nil => cases h
  | cons i rest =>
    obtain ⟨p, -, h⟩ := Option.bind_eq_some_iff.mp h
    obtain ⟨steps, -, rfl⟩ := Option.map_eq_some_iff.mp h
    rfl

/-! ## The first fault -/

/-- Whether `at?` leads from a position to a node with a fault and from no earlier position to a
node with one. -/
def FirstFault (at? : List Nat → Option Place) (position : List Nat) (fault : ConstraintFault) :
    Prop :=
  (∃ p, at? position = some p ∧ p.node.ownFault? = some fault) ∧
    ∀ earlier q, List.Lex (· < ·) earlier position → at? earlier = some q → q.node.ownFault? = none

/-- Whether no node of a tree is at fault. -/
def Place.Faultless (p : Place) : Prop :=
  ∀ q, p.Has q → q.node.ownFault? = none

theorem Place.faultless_iff {p : Place} :
    p.Faultless ↔ p.node.ownFault? = none ∧ ∀ c ∈ p.children, c.Faultless := by
  constructor
  · intro h
    exact ⟨h p p.has_self, fun c hc q hq => h q (Place.has_of_child hc hq)⟩
  · rintro ⟨hp, hbelow⟩ q hq
    rcases Place.has_iff.mp hq with rfl | ⟨c, hc, hcq⟩
    · exact hp
    · exact hbelow c hc q hcq

variable {p c : Place} {forest : List Place} {position : List Nat} {fault : ConstraintFault}

theorem firstFault_root : FirstFault p.at? [] fault ↔ p.node.ownFault? = some fault := by
  constructor
  · rintro ⟨⟨q, hq, hfault⟩, -⟩
    obtain rfl := Option.some.inj hq
    exact hfault
  · intro h
    refine ⟨⟨p, rfl, h⟩, fun earlier q hlex => ?_⟩
    cases hlex

/-- Below the root the first fault is the first one among the children, if the root has none. -/
theorem firstFault_below {i : Nat} :
    FirstFault p.at? (i :: position) fault ↔
      p.node.ownFault? = none ∧ FirstFault (placeAt? p.children) (i :: position) fault := by
  constructor
  · rintro ⟨hhere, hearlier⟩
    refine ⟨hearlier [] p .nil rfl, hhere, fun earlier q hlex hq => ?_⟩
    cases earlier with
    | nil => cases hq
    | cons j rest => exact hearlier (j :: rest) q hlex hq
  · rintro ⟨hroot, hhere, hearlier⟩
    refine ⟨hhere, fun earlier q hlex hq => ?_⟩
    cases earlier with
    | nil =>
      obtain rfl := Option.some.inj hq
      exact hroot
    | cons j rest => exact hearlier (j :: rest) q hlex hq

theorem not_firstFault_nil : ¬ FirstFault (placeAt? forest) [] fault := by
  rintro ⟨⟨q, hq, -⟩, -⟩
  cases hq

theorem not_firstFault_empty : ¬ FirstFault (placeAt? []) position fault := by
  rintro ⟨⟨q, hq, -⟩, -⟩
  cases position <;> cases hq

/-- The first fault of several trees is that of the first tree, if the fault is in it. -/
theorem firstFault_zero :
    FirstFault (placeAt? (c :: forest)) (0 :: position) fault ↔
      FirstFault c.at? position fault := by
  refine and_congr Iff.rfl ⟨fun h earlier q hlex hq => ?_, fun h earlier q hlex hq => ?_⟩
  · exact h (0 :: earlier) q (.cons hlex) hq
  · cases hlex with
    | nil => cases hq
    | rel hlt => omega
    | cons hlex => exact h _ q hlex hq

/-- The first fault of several trees is that of the later ones, if the first is faultless. -/
theorem firstFault_succ {i : Nat} :
    FirstFault (placeAt? (c :: forest)) ((i + 1) :: position) fault ↔
      c.Faultless ∧ FirstFault (placeAt? forest) (i :: position) fault := by
  constructor
  · rintro ⟨hhere, hearlier⟩
    refine ⟨?_, hhere, fun earlier q hlex hq => ?_⟩
    · rintro q ⟨below, hq⟩
      exact hearlier (0 :: below) q (.rel (Nat.succ_pos i)) hq
    · cases hlex with
      | nil => cases hq
      | rel hlt => exact hearlier ((_ + 1) :: _) q (.rel (Nat.succ_lt_succ hlt)) hq
      | cons hlex => exact hearlier ((_ + 1) :: _) q (.cons hlex) hq
  · rintro ⟨hfirst, hhere, hearlier⟩
    refine ⟨hhere, fun earlier q hlex hq => ?_⟩
    cases earlier with
    | nil => cases hq
    | cons j rest =>
      cases j with
      | zero => exact hfirst q ⟨rest, hq⟩
      | succ j =>
        refine hearlier (j :: rest) q ?_ hq
        cases hlex with
        | rel hlt => exact .rel (Nat.lt_of_succ_lt_succ hlt)
        | cons hlex => exact .cons hlex

/-! ## Reports of the first fault -/

/-- Whether an error reports the first fault among the nodes that `at?` leads to. Its location goes on
from `location` with the steps that `route?` gives. -/
def ReportsFirst (at? : List Nat → Option Place) (route? : List Nat → Option Location)
    (location : Location) (e : ConstraintError) : Prop :=
  ∃ position route, FirstFault at? position e.fault ∧ route? position = some route ∧
    e.location = location ++ route

section

variable {step : Place → String} {location : Location} {e : ConstraintError}

theorem not_reportsFirst_empty : ¬ ReportsFirst (placeAt? []) (routeAmong? step []) location e := by
  rintro ⟨position, route, hfirst, -⟩
  exact not_firstFault_empty hfirst

/-- In a tree the fault of the root is reported, and without one the first fault below. -/
theorem reportsFirst_tree :
    ReportsFirst p.at? p.route? location e ↔
      (p.node.ownFault? = some e.fault ∧ e.location = location) ∨
        (p.node.ownFault? = none ∧
          ReportsFirst (placeAt? p.children) (routeAmong? p.stepTo p.children) location e) := by
  constructor
  · rintro ⟨position, route, hfirst, hroute, hlocation⟩
    cases position with
    | nil =>
      obtain rfl := Option.some.inj hroute
      exact .inl ⟨firstFault_root.mp hfirst, by rw [hlocation, List.append_nil]⟩
    | cons i rest =>
      obtain ⟨hroot, hbelow⟩ := firstFault_below.mp hfirst
      exact .inr ⟨hroot, i :: rest, route, hbelow, hroute, hlocation⟩
  · rintro (⟨hroot, hlocation⟩ | ⟨hroot, position, route, hbelow, hroute, hlocation⟩)
    · exact ⟨[], [], firstFault_root.mpr hroot, rfl, by rw [hlocation, List.append_nil]⟩
    · cases position with
      | nil => exact absurd hbelow not_firstFault_nil
      | cons i rest =>
        exact ⟨i :: rest, route, firstFault_below.mpr ⟨hroot, hbelow⟩, hroute, hlocation⟩

/-- Among several trees the first fault of the first one is reported, one step further, and without a
fault in it the first fault of the others. -/
theorem reportsFirst_cons :
    ReportsFirst (placeAt? (c :: forest)) (routeAmong? step (c :: forest)) location e ↔
      ReportsFirst c.at? c.route? (location ++ [step c]) e ∨
        (c.Faultless ∧ ReportsFirst (placeAt? forest) (routeAmong? step forest) location e) := by
  constructor
  · rintro ⟨position, route, hfirst, hroute, hlocation⟩
    cases position with
    | nil => exact absurd hfirst not_firstFault_nil
    | cons i rest =>
      cases i with
      | zero =>
        obtain ⟨steps, hsteps, rfl⟩ := Option.map_eq_some_iff.mp hroute
        refine .inl ⟨rest, steps, firstFault_zero.mp hfirst, hsteps, ?_⟩
        rw [hlocation, List.append_assoc]
        rfl
      | succ i =>
        obtain ⟨hfaultless, hothers⟩ := firstFault_succ.mp hfirst
        exact .inr ⟨hfaultless, i :: rest, route, hothers, hroute, hlocation⟩
  · rintro (⟨position, steps, hfirst, hsteps, hlocation⟩ |
      ⟨hfaultless, position, route, hothers, hroute, hlocation⟩)
    · refine ⟨0 :: position, step c :: steps, firstFault_zero.mpr hfirst,
        Option.map_eq_some_iff.mpr ⟨steps, hsteps, rfl⟩, ?_⟩
      rw [hlocation, List.append_assoc]
      rfl
    · cases position with
      | nil => exact absurd hothers not_firstFault_nil
      | cons i rest =>
        exact ⟨(i + 1) :: rest, route, firstFault_succ.mpr ⟨hfaultless, hothers⟩, hroute, hlocation⟩

end

/-! ## The check -/

/-- What the check of a node says at any location: nothing if no node below is at fault, and
otherwise the first fault with the steps that lead to it. -/
structure Place.Checked (p : Place) : Prop where
  passes : ∀ location : Location, p.node.check location = .ok () ↔ p.Faultless
  fails : ∀ (location : Location) (e : ConstraintError),
    p.node.check location = .error e ↔ ReportsFirst p.at? p.route? location e

section

variable {ε : Type} {first second : Except ε Unit}

theorem Except.then_eq_ok_iff :
    (do first; second) = .ok () ↔ first = .ok () ∧ second = .ok () := by
  rw [Except.bind_eq_ok_iff]
  exact ⟨fun ⟨_, hfirst, hsecond⟩ => ⟨hfirst, hsecond⟩, fun h => ⟨(), h⟩⟩

theorem Except.then_eq_error_iff {e : ε} :
    (do first; second) = .error e ↔ first = .error e ∨ (first = .ok () ∧ second = .error e) := by
  rw [Except.bind_eq_error_iff]
  exact or_congr_right ⟨fun ⟨_, h⟩ => h, fun h => ⟨(), h⟩⟩

end

theorem rejectFault_eq_error_iff {location : Location} {fault? : Option ConstraintFault}
    {e : ConstraintError} :
    rejectFault location fault? = .error e ↔ fault? = some e.fault ∧ e.location = location := by
  obtain ⟨place, fault⟩ := e
  cases fault? with
  | none => simp [rejectFault]
  | some found =>
    simp only [rejectFault, Except.error.injEq, ConstraintError.mk.injEq, Option.some.injEq]
    rw [and_comm, eq_comm (a := location)]

/-- The check of named nodes passes if no node is at fault. -/
theorem checkMembers_ok_iff {around : List String} {members : List (String × Node)}
    (h : ∀ p ∈ placesIn around members, p.Checked) (location : Location) :
    Node.checkMembers location members = .ok () ↔
      ∀ p ∈ placesIn around members, p.Faultless := by
  induction members with
  | nil => simp [Node.checkMembers, placesIn]
  | cons m rest ih =>
    obtain ⟨name, node⟩ := m
    rw [placesIn_cons, List.forall_mem_cons] at h ⊢
    rw [Node.checkMembers, Except.then_eq_ok_iff, ih h.2, ← h.1.passes (location ++ [name])]

/-- The check of named nodes fails with the first fault among them. -/
theorem checkMembers_error_iff {around : List String} {members : List (String × Node)}
    (h : ∀ p ∈ placesIn around members, p.Checked) (location : Location) (e : ConstraintError) :
    Node.checkMembers location members = .error e ↔
      ReportsFirst (placeAt? (placesIn around members))
        (routeAmong? Place.name (placesIn around members)) location e := by
  induction members with
  | nil =>
    refine iff_of_false (fun hfail => ?_) not_reportsFirst_empty
    cases hfail
  | cons m rest ih =>
    obtain ⟨name, node⟩ := m
    rw [placesIn_cons, List.forall_mem_cons] at h
    rw [placesIn_cons, Node.checkMembers, Except.then_eq_error_iff, ih h.2, reportsFirst_cons,
      ← h.1.passes (location ++ [name]), ← h.1.fails]

namespace Place

/-- A node is checked as described if it is examined before its children, and these are checked as
described. -/
theorem checked_of_children {p : Place} (below : Location → Except ConstraintError Unit)
    (hcheck : ∀ location, p.node.check location = do
      rejectFault location p.node.ownFault?
      below location)
    (hpasses : ∀ location, below location = .ok () ↔ ∀ c ∈ p.children, c.Faultless)
    (hfails : ∀ location e, below location = .error e ↔
      ReportsFirst (placeAt? p.children) (routeAmong? p.stepTo p.children) location e) :
    p.Checked := by
  constructor
  · intro location
    rw [hcheck, Except.then_eq_ok_iff, rejectFault_eq_ok_iff, hpasses, faultless_iff]
  · intro location e
    rw [hcheck, Except.then_eq_error_iff, rejectFault_eq_error_iff, rejectFault_eq_ok_iff, hfails,
      reportsFirst_tree]

theorem checked_of_leaf {p : Place} (hleaf : p.children = [])
    (hcheck : ∀ location, p.node.check location = rejectFault location p.node.ownFault?) :
    p.Checked := by
  refine checked_of_children (fun _ => .ok ()) (fun location => ?_) (fun location => ?_)
    fun location e => ?_
  · rw [hcheck]
    cases p.node.ownFault? <;> rfl
  · rw [hleaf]
    simp
  · rw [hleaf]
    refine iff_of_false (fun hfail => ?_) not_reportsFirst_empty
    cases hfail

/-- The item of an array is checked one step further. -/
theorem checked_of_item {p c : Place} {item : Node} {bounds : ItemBounds}
    (hnode : p.node = .array item bounds) (hchildren : p.children = [c]) (hitem : c.node = item)
    (h : c.Checked) : p.Checked := by
  have hstep : p.stepTo c = "items" := by rw [stepTo, hnode]; rfl
  refine checked_of_children (fun location => item.check (location ++ ["items"]))
    (fun location => ?_) (fun location => ?_) fun location e => ?_
  · rw [hnode, Node.check]
    rfl
  · rw [hchildren, ← hitem, h.passes]
    simp
  · rw [hchildren, ← hitem, h.fails, reportsFirst_cons, hstep]
    simp [not_reportsFirst_empty]

/-- **The check of a tree.** At every location it passes if no node is at fault, and otherwise it
fails with the first fault. -/
theorem checked (p : Place) : p.Checked := by
  induction p using Place.induction with
  | step p ih =>
    cases hnode : p.node with
    | scalar s =>
      refine checked_of_leaf (by rw [children, hnode]) fun location => ?_
      rw [hnode]
      rfl
    | reference r =>
      refine checked_of_leaf (by rw [children, hnode]) fun location => ?_
      rw [hnode]
      rfl
    | array item bounds =>
      have hchildren := children_array hnode
      rw [hchildren] at ih
      exact checked_of_item hnode hchildren rfl (ih _ (List.mem_singleton.mpr rfl))
    | object members =>
      have hstep : p.stepTo = Place.name := by
        funext c
        rw [stepTo, hnode]
        rfl
      rw [children_object hnode] at ih
      refine checked_of_children (fun location => Node.checkMembers location members)
        (fun location => ?_) (fun location => ?_) fun location e => ?_
      · rw [hnode, Node.check]
        rfl
      · rw [children_object hnode]
        exact checkMembers_ok_iff ih location
      · rw [children_object hnode, hstep]
        exact checkMembers_error_iff ih location e

end Place

/-- **The first contradiction.** The check of a schema passes exactly if the limits of every node
are consistent. It fails with an error exactly if this is the fault of an inconsistent node such that
all nodes before it in the order of the text are consistent, at the location that leads to the node:
the name of the entry, then the names of members and `items` steps, joined by dots. -/
theorem schema_check_reports_first (s : Schema) :
    (s.check = .ok () ↔ ∀ p, s.Has p → p.node.Consistent) ∧
      ∀ e, s.check = .error e ↔
        ∃ position p, s.at? position = some p ∧ ¬ p.node.Consistent ∧
          p.node.ownFault? = some e.fault ∧ s.route? position = some e.location ∧
          e.location.render = Text.joinWith "." e.location ∧
          ∀ earlier q, List.Lex (· < ·) earlier position → s.at? earlier = some q →
            q.node.Consistent := by
  have htrees : ∀ p ∈ placesIn [] s.entries, p.Checked := fun p _ => p.checked
  constructor
  · rw [Schema.check, checkMembers_ok_iff htrees]
    constructor
    · intro h p hp
      obtain ⟨root, hroot, hp⟩ := Schema.has_iff.mp hp
      exact Node.ownFault?_eq_none_iff.mp (h root hroot p hp)
    · intro h root hroot p hp
      exact Node.ownFault?_eq_none_iff.mpr (h p (Schema.has_iff.mpr ⟨root, hroot, hp⟩))
  · intro e
    rw [Schema.check, checkMembers_error_iff htrees]
    constructor
    · rintro ⟨position, route, ⟨⟨p, hp, hfault⟩, hearlier⟩, hroute, hlocation⟩
      rw [List.nil_append] at hlocation
      refine ⟨position, p, hp, fun hconsistent => ?_, hfault, by rw [hlocation]; exact hroute, ?_,
        fun earlier q hlex hq => Node.ownFault?_eq_none_iff.mp (hearlier earlier q hlex hq)⟩
      · rw [Node.ownFault?_eq_none_iff.mpr hconsistent] at hfault
        cases hfault
      · rw [hlocation]
        exact render_of_routeAmong? hroute
    · rintro ⟨position, p, hp, -, hfault, hroute, -, hearlier⟩
      exact ⟨position, e.location, ⟨⟨p, hp, hfault⟩, fun earlier q hlex hq =>
        Node.ownFault?_eq_none_iff.mpr (hearlier earlier q hlex hq)⟩, hroute, rfl⟩

end ConfigForge
