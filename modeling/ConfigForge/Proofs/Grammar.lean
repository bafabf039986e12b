import ConfigForge.Proofs.Spelling
import ConfigForge.Schema.Reader

/-!
# The grammar of schemas

Which JSON values are schemas, and which schema each of them describes, can be said without reading
anything: a node has a tag or a reference, the tag decides which keywords it has, and every keyword
that belongs to it stands for a value of the kind. All other keywords may be there and mean nothing.
Named nodes go by identifiers whose type names differ.

Results:

* `Json.Value.induction`: what holds of an object if it holds of the values of its fields.
* `readKeyword_ok_iff`, `readLimits_ok_iff`, `readReference_ok_iff`: what is read from keywords.
* `readMembers_ok_iff_of_forall`: what is read from named nodes, given what is read from each.
* `readNode_ok_iff`: a node is read exactly if it is described.
* `ofJson_eq_ok_iff`: the reader accepts exactly the values that describe a schema, and gives that
  schema.
-/

namespace ConfigForge

/-! ## Keywords -/

/-- An integer, from `-2 ^ 63` to `2 ^ 64 - 1`. -/
def StandsForInteger (v : Json.Value) (i : Int) : Prop :=
  v = .number (.integer i) ∧ -9223372036854775808 ≤ i ∧ i ≤ 18446744073709551615

/-- A count, from `0` to `2 ^ 64 - 1`. -/
def StandsForCount (v : Json.Value) (n : Nat) : Prop :=
  v = .number (.integer n) ∧ n ≤ 18446744073709551615

/-- A number. An integer stands for the double next to it. -/
inductive StandsForNumber : Json.Value → Binary64 → Prop where
  | integer (i : Int) : StandsForNumber (.number (.integer i)) (.ofInt i)
  | double (x : Binary64) : StandsForNumber (.number (.double x)) x

/-- What a keyword gives that may be absent: nothing, or what its value stands for. -/
inductive Keyword {α : Type} (fields : List (String × Json.Value)) (keyword : String)
    (StandsFor : Json.Value → α → Prop) : Option α → Prop where
  | absent : Entries.get? fields keyword = none → Keyword fields keyword StandsFor none
  | present {v : Json.Value} {a : α} : Entries.get? fields keyword = some v → StandsFor v a →
      Keyword fields keyword StandsFor (some a)

/-- The limits that the keywords of a scalar give. -/
structure HasLimits {α : Type} (fields : List (String × Json.Value))
    (StandsFor : Json.Value → α → Prop) (limits : Limits α) : Prop where
  minimum : Keyword fields "minimum" StandsFor limits.minimum
  maximum : Keyword fields "maximum" StandsFor limits.maximum
  default : Keyword fields "default" StandsFor limits.default

/-! ## Nodes -/

/-- A node with a tag and without a reference. -/
structure Tagged (fields : List (String × Json.Value)) (tag : String) : Prop where
  type : Entries.get? fields "type" = some (.string tag)
  noReference : Entries.get? fields "$ref" = none

/-- Names of nodes: identifiers whose type names differ. -/
structure WellNamed (fields : List (String × Json.Value)) : Prop where
  identifiers : ∀ f ∈ fields, isIdentifier f.1 = true
  apart : (fields.map fun f => typeName f.1).Nodup

mutual

/-- The node that a JSON value describes. -/
inductive Describes : Json.Value → Node → Prop where
  | bool {fields : List (String × Json.Value)} {tag : String} {value : Option Bool} :
      Tagged fields tag → tag = "bool" ∨ tag = "boolean" →
      Keyword fields "default" (fun v b => v = .bool b) value →
      Describes (.object fields) (.scalar (.bool value))
  | integer {fields : List (String × Json.Value)} {limits : Limits Int} :
      Tagged fields "integer" → HasLimits fields StandsForInteger limits →
      Describes (.object fields) (.scalar (.integer limits))
  | number {fields : List (String × Json.Value)} {limits : Limits Binary64} :
      Tagged fields "number" → HasLimits fields StandsForNumber limits →
      Describes (.object fields) (.scalar (.number limits))
  | string {fields : List (String × Json.Value)} {value : Option String} :
      Tagged fields "string" → Keyword fields "default" (fun v text => v = .string text) value →
      Describes (.object fields) (.scalar (.string value))
  | object {fields named : List (String × Json.Value)} {members : List (String × Node)} :
      Tagged fields "object" → Entries.get? fields "properties" = some (.object named) →
      WellNamed named → DescribesEach named members →
      Describes (.object fields) (.object members)
  | array {fields : List (String × Json.Value)} {v : Json.Value} {item : Node}
      {least most : Option Nat} :
      Tagged fields "array" → Entries.get? fields "items" = some v → v.isArray = false →
      Describes v item → Keyword fields "minItems" StandsForCount least →
      Keyword fields "maxItems" StandsForCount most →
      Describes (.object fields) (.array item ⟨least, most⟩)
  | reference {fields : List (String × Json.Value)} {names : List String} :
      Entries.get? fields "type" = none →
      Entries.get? fields "$ref" = some (.string (Text.joinWith "." names)) →
      names ≠ [] → (∀ name ∈ names, isIdentifier name = true) →
      Describes (.object fields) (.reference ⟨names⟩)

/-- The nodes that named values describe, in the same order and under the same names. -/
inductive DescribesEach : List (String × Json.Value) → List (String × Node) → Prop where
  | nil : DescribesEach [] []
  | cons {name : String} {v : Json.Value} {node : Node} {rest : List (String × Json.Value)}
      {members : List (String × Node)} : Describes v node → DescribesEach rest members →
      DescribesEach ((name, v) :: rest) ((name, node) :: members)

end

/-- Whether a JSON value describes a schema: an object with well-named fields, each of which describes
an entry that is no reference. -/
def DescribesSchema (v : Json.Value) (s : Schema) : Prop :=
  ∃ fields, v = .object fields ∧ WellNamed fields ∧ DescribesEach fields s.entries ∧
    ∀ e ∈ s.entries, e.2.isReference = false

/-! ## Reading keywords -/

theorem bool?_eq_some_iff (v : Json.Value) (b : Bool) : v.bool? = some b ↔ v = .bool b := by
  cases v <;> simp [Json.Value.bool?]

theorem string?_eq_some_iff (v : Json.Value) (text : String) :
    v.string? = some text ↔ v = .string text := by
  cases v <;> simp [Json.Value.string?]

theorem integer?_eq_some_iff (v : Json.Value) (i : Int) :
    v.integer? = some i ↔ StandsForInteger v i := by
  have hlow : (integerRange true .w64).low = -9223372036854775808 := by decide
  have hhigh : (integerRange false .w64).high = 18446744073709551615 := by decide
  unfold Json.Value.integer? StandsForInteger
  rw [hlow, hhigh]
  split
  · next j =>
    simp only [Option.ite_none_right_eq_some, Option.some.injEq, Json.Value.number.injEq,
      Json.Number.integer.injEq]
    constructor
    · rintro ⟨hj, rfl⟩
      exact ⟨rfl, hj⟩
    · rintro ⟨rfl, hj⟩
      exact ⟨hj, rfl⟩
  · next hother =>
    simp only [reduceCtorEq, false_iff, not_and]
    rintro rfl
    exact absurd rfl (hother i)

theorem number?_eq_some_iff (v : Json.Value) (x : Binary64) :
    v.number? = some x ↔ StandsForNumber v x := by
  constructor
  · intro h
    unfold Json.Value.number? at h
    split at h
    · obtain rfl := Option.some.inj h
      exact .integer _
    · obtain rfl := Option.some.inj h
      exact .double _
    · cases h
  · rintro (i | x) <;> rfl

theorem count?_eq_some_iff (v : Json.Value) (n : Nat) : v.count? = some n ↔ StandsForCount v n := by
  have hrange : integerRange false .w64 = ⟨0, 18446744073709551615⟩ := by decide
  unfold Json.Value.count? StandsForCount
  rw [hrange]
  split
  · next i =>
    simp only [IntRange.holds, Bool.and_eq_true, decide_eq_true_eq, Option.ite_none_right_eq_some,
      Option.some.injEq, Json.Value.number.injEq, Json.Number.integer.injEq]
    omega
  · next hother =>
    simp only [reduceCtorEq, false_iff, not_and]
    rintro rfl
    exact absurd rfl (hother n)

section

variable {α : Type} {location : Location} {fields : List (String × Json.Value)}
  {read? : Json.Value → Option α} {StandsFor : Json.Value → α → Prop} {expected : Expectation}

/-- A keyword is read exactly if it is absent or its value stands for something. -/
theorem readKeyword_ok_iff (hread : ∀ v a, read? v = some a ↔ StandsFor v a) {keyword : String}
    {x : Option α} :
    readKeyword location fields keyword read? expected = .ok x ↔
      Keyword fields keyword StandsFor x := by
  unfold readKeyword
  cases hget : Entries.get? fields keyword with
  | none =>
    constructor
    · intro h
      obtain rfl := Except.ok.inj h
      exact .absent hget
    · rintro (hnone | ⟨hsome, -⟩)
      · rfl
      · rw [hget] at hsome
        cases hsome
  | some v =>
    have hpresent : Keyword fields keyword StandsFor x ↔ ∃ a, x = some a ∧ StandsFor v a := by
      constructor
      · rintro (hnone | ⟨hsome, ha⟩)
        · rw [hget] at hnone
          cases hnone
        · obtain rfl := Option.some.inj (hget.symm.trans hsome)
          exact ⟨_, rfl, ha⟩
      · rintro ⟨a, rfl, ha⟩
        exact .present hget ha
    rw [hpresent]
    cases hvalue : read? v with
    | none =>
      simp only [hvalue, reduceCtorEq, false_iff, not_exists, not_and]
      intro a _ ha
      rw [← hread, hvalue] at ha
      cases ha
    | some a =>
      simp only [hvalue, Except.ok.injEq]
      constructor
      · rintro rfl
        exact ⟨a, rfl, (hread v a).mp hvalue⟩
      · rintro ⟨b, rfl, hb⟩
        rw [← hread, hvalue] at hb
        exact hb

theorem readLimits_ok_iff (hread : ∀ v a, read? v = some a ↔ StandsFor v a) {limits : Limits α} :
    readLimits location fields read? expected = .ok limits ↔ HasLimits fields StandsFor limits := by
  rw [readLimits, Except.bind_eq_ok_iff]
  simp only [Except.bind_eq_ok_iff, readKeyword_ok_iff hread, pure, Except.pure, Except.ok.injEq]
  constructor
  · rintro ⟨minimum, hminimum, maximum, hmaximum, value, hvalue, rfl⟩
    exact ⟨hminimum, hmaximum, hvalue⟩
  · rintro ⟨hminimum, hmaximum, hvalue⟩
    exact ⟨_, hminimum, _, hmaximum, _, hvalue, rfl⟩

end

/-- A reference is read exactly if it is a dotted list of identifiers, and these are its names. -/
theorem readReference_ok_iff {location : Location} {v : Json.Value} {node : Node} :
    readReference location v = .ok node ↔
      ∃ names, v = .string (Text.joinWith "." names) ∧ names ≠ [] ∧
        (∀ name ∈ names, isIdentifier name = true) ∧ node = .reference ⟨names⟩ := by
  unfold readReference
  cases hv : v.string? with
  | none =>
    simp only [reduceCtorEq, false_iff, not_exists, not_and]
    rintro names rfl
    cases hv
  | some text =>
    obtain rfl := (string?_eq_some_iff v text).mp hv
    simp only [Json.Value.string.injEq]
    constructor
    · intro h
      split at h
      · next hall =>
        obtain rfl := Except.ok.inj h
        refine ⟨(Reference.ofText text).segments, (Reference.target_ofText text).symm, ?_, ?_, rfl⟩
        · simp [Reference.ofText, Text.split_ne_nil]
        · exact List.all_eq_true.mp hall
      · cases h
    · rintro ⟨names, rfl, hne, hnames, rfl⟩
      -- identifiers have no dots, so the names are found again
      have hsegments : (Reference.ofText (Text.joinWith "." names)).segments = names :=
        segments_dotted hne fun name hname => dot_not_mem_of_isIdentifier (hnames name hname)
      have hall : (Reference.ofText (Text.joinWith "." names)).segments.all isIdentifier = true := by
        rw [hsegments]
        exact List.all_eq_true.mpr hnames
      have hread : Reference.ofText (Text.joinWith "." names) = ⟨names⟩ :=
        congrArg Reference.mk hsegments
      rw [if_pos hall, hread]

/-! ## Reading nodes -/

/-- Induction over JSON values: what holds of an object if it holds of the values of its fields, and
of everything that is no object, holds of all values. -/
theorem Json.Value.induction {P : Json.Value → Prop}
    (object : ∀ fields, (∀ f ∈ fields, P f.2) → P (.object fields))
    (other : ∀ v, (∀ fields, v ≠ .object fields) → P v) : ∀ v, P v
  | .object fields => object fields (field fields)
  | .null => other _ nofun
  | .bool _ => other _ nofun
  | .number _ => other _ nofun
  | .string _ => other _ nofun
  | .array _ => other _ nofun
where
  field : ∀ fields : List (String × Json.Value), ∀ f ∈ fields, P f.2
  | [], _, h => nomatch h
  | (_, v) :: rest, f, h => by
    rcases List.mem_cons.mp h with rfl | h
    · exact Json.Value.induction object other v
    · exact field rest f h

/-- Whether a value is read as a node exactly if it describes that node. -/
def ReadsAsDescribed (v : Json.Value) : Prop :=
  ∀ location node, readNode location v = .ok node ↔ Describes v node

/-- Whether named values are read exactly if they are well named and describe the nodes. -/
def ReadsEachAsDescribed (fields : List (String × Json.Value)) : Prop :=
  ∀ location members, readMembers location [] fields = .ok members ↔
    WellNamed fields ∧ DescribesEach fields members

theorem Entries.get?_eq_none_iff {α : Type} {entries : Entries α} {name : String} :
    entries.get? name = none ↔ name ∉ entries.names := by
  induction entries with
  | nil => simp [Entries.get?, Entries.names]
  | cons entry rest ih =>
    obtain ⟨key, value⟩ := entry
    rw [Entries.get?, Entries.names, List.map_cons, List.mem_cons, not_or]
    by_cases h : key = name
    · simp [h]
    · rw [if_neg h, ih]
      exact (and_iff_right (Ne.symm h)).symm

theorem Entries.mem_of_get? {α : Type} {entries : Entries α} {name : String} {value : α}
    (h : entries.get? name = some value) : (name, value) ∈ entries := by
  induction entries with
  | nil => cases h
  | cons entry rest ih =>
    obtain ⟨key, old⟩ := entry
    rw [Entries.get?] at h
    by_cases hkey : key = name
    · rw [if_pos hkey] at h
      rw [hkey, Option.some.inj h]
      exact List.mem_cons_self
    · rw [if_neg hkey] at h
      exact List.mem_cons_of_mem _ (ih h)

theorem describesEach_cons_iff {name : String} {v : Json.Value} {rest : List (String × Json.Value)}
    {members : List (String × Node)} :
    DescribesEach ((name, v) :: rest) members ↔
      ∃ node others, Describes v node ∧ DescribesEach rest others ∧
        members = (name, node) :: others := by
  constructor
  · rintro (_ | ⟨hnode, hrest⟩)
    exact ⟨_, _, hnode, hrest, rfl⟩
  · rintro ⟨node, others, hnode, hrest, rfl⟩
    exact .cons hnode hrest

/-- Named nodes one after the other: each type name is new, and each value is read as it is
described. -/
theorem readMembers_seen_ok_iff {fields : List (String × Json.Value)}
    (hfields : ∀ f ∈ fields, ReadsAsDescribed f.2) {location : Location}
    {seen : List (String × String)} {members : List (String × Node)} :
    readMembers location seen fields = .ok members ↔
      WellNamed fields ∧ (∀ f ∈ fields, typeName f.1 ∉ Entries.names seen) ∧
        DescribesEach fields members := by
  induction fields generalizing seen members with
  | nil =>
    rw [readMembers, Except.ok.injEq]
    constructor
    · rintro rfl
      exact ⟨⟨nofun, List.nodup_nil⟩, nofun, .nil⟩
    · rintro ⟨-, -, hnil⟩
      cases hnil
      rfl
  | cons field rest ih =>
    obtain ⟨name, v⟩ := field
    rw [List.forall_mem_cons] at hfields
    have hrest := fun {seen members} => @ih hfields.2 seen members
    rw [readMembers, describesEach_cons_iff, List.forall_mem_cons]
    by_cases hname : isIdentifier name = true
    · rw [if_pos hname]
      cases hseen : Entries.get? seen (typeName name) with
      | some first =>
        simp only [reduceCtorEq, false_iff, not_and]
        intro _ hnew
        rw [Entries.get?_eq_none_iff.mpr hnew.1] at hseen
        cases hseen
      | none =>
        have hnew : typeName name ∉ Entries.names seen := Entries.get?_eq_none_iff.mp hseen
        simp only [Except.bind_eq_ok_iff, hrest, hfields.1 _ _, pure, Except.pure, Except.ok.injEq]
        constructor
        · rintro ⟨node, hnode, others, ⟨⟨hnames, hapart⟩, hfresh, hothers⟩, rfl⟩
          have hfirst : typeName name ∉ rest.map fun f => typeName f.1 := by
            intro hmem
            obtain ⟨f, hf, heq⟩ := List.mem_map.mp hmem
            exact hfresh f hf (by rw [heq]; exact List.mem_cons_self)
          refine ⟨⟨List.forall_mem_cons.mpr ⟨hname, hnames⟩, List.nodup_cons.mpr ⟨hfirst, hapart⟩⟩,
            ⟨hnew, fun f hf hmem => hfresh f hf (List.mem_cons_of_mem _ hmem)⟩,
            node, others, hnode, hothers, rfl⟩
        · rintro ⟨⟨hnames, hapart⟩, ⟨-, hfresh⟩, node, others, hnode, hothers, rfl⟩
          obtain ⟨hfirst, hapart⟩ := List.nodup_cons.mp hapart
          refine ⟨node, hnode, others, ⟨⟨(List.forall_mem_cons.mp hnames).2, hapart⟩, ?_, hothers⟩,
            rfl⟩
          intro f hf hmem
          rcases List.mem_cons.mp hmem with heq | hmem
          · exact hfirst (List.mem_map.mpr ⟨f, hf, heq⟩)
          · exact hfresh f hf hmem
    · rw [if_neg hname]
      simp only [reduceCtorEq, false_iff, not_and]
      intro hnames
      exact absurd (hnames.identifiers _ List.mem_cons_self) hname

/-- Named nodes are read as described if each of their values is. -/
theorem readMembers_ok_iff_of_forall {fields : List (String × Json.Value)}
    (hfields : ∀ f ∈ fields, ReadsAsDescribed f.2) : ReadsEachAsDescribed fields := by
  intro location members
  rw [readMembers_seen_ok_iff hfields]
  exact and_congr_right fun _ => and_iff_right fun _ _ => nofun

/-- The members of an object are read from the object under `properties`. -/
theorem readProperties_ok_iff {location : Location} {fields : List (String × Json.Value)}
    (hfields : ∀ f ∈ fields, ∀ named, f.2 = .object named → ReadsEachAsDescribed named)
    {members : List (String × Node)} :
    readProperties location fields = .ok members ↔
      ∃ named, Entries.get? fields "properties" = some (.object named) ∧ WellNamed named ∧
        DescribesEach named members := by
  rw [readProperties_eq]
  cases hget : Entries.get? fields "properties" with
  | none => simp
  | some v =>
    have hv := hfields _ (Entries.mem_of_get? hget)
    cases v with
    | object named => simp [hv named rfl _ _]
    | _ => simp

/-- The item of an array is read from the value under `items`. -/
theorem readItem_ok_iff {location : Location} {fields : List (String × Json.Value)}
    (hfields : ∀ f ∈ fields, ReadsAsDescribed f.2) {item : Node} :
    readItem location fields = .ok item ↔
      ∃ v, Entries.get? fields "items" = some v ∧ v.isArray = false ∧ Describes v item := by
  rw [readItem_eq]
  cases hget : Entries.get? fields "items" with
  | none => simp
  | some v =>
    have hv := hfields _ (Entries.mem_of_get? hget)
    cases harray : v.isArray with
    | true => simp [harray]
    | false => simp [harray, hv _ _]

/-- The tags of a kind. -/
theorem ofTag?_eq_some_iff {tag : String} {kind : Kind} :
    Kind.ofTag? tag = some kind ↔
      tag = kind.tag ∧ kind ≠ .reference ∨ tag = "boolean" ∧ kind = .bool := by
  unfold Kind.ofTag?
  split <;> cases kind <;> simp_all [Kind.tag]

section

variable {location : Location} {fields : List (String × Json.Value)} {node : Node}

/-- A node that is read is a reference or has one of the known tags. -/
theorem reference_or_tagged_of_readNode (h : readNode location (.object fields) = .ok node) :
    (Entries.get? fields "type" = none ∧ ∃ v, Entries.get? fields "$ref" = some v) ∨
      ∃ tag kind, Tagged fields tag ∧ Kind.ofTag? tag = some kind := by
  rw [readNode] at h
  cases htype : Entries.get? fields "type" with
  | none =>
    cases href : Entries.get? fields "$ref" with
    | none => simp [htype, href] at h
    | some v => exact .inl ⟨rfl, v, rfl⟩
  | some t =>
    cases href : Entries.get? fields "$ref" with
    | some v => simp [htype, href] at h
    | none =>
      cases htag : t.string? with
      | none => simp [htype, href, htag] at h
      | some tag =>
        obtain rfl := (string?_eq_some_iff t tag).mp htag
        cases hkind : Kind.ofTag? tag with
        | none => simp [htype, href, htag, hkind] at h
        | some kind => exact .inr ⟨tag, kind, ⟨htype, href⟩, hkind⟩

/-- A node that is read is described. -/
theorem describes_of_readNode
    (hnodes : ∀ f ∈ fields, ReadsAsDescribed f.2)
    (hnamed : ∀ f ∈ fields, ∀ named, f.2 = .object named → ReadsEachAsDescribed named)
    (h : readNode location (.object fields) = .ok node) : Describes (.object fields) node := by
  obtain ⟨htype, v, href⟩ | ⟨tag, kind, htagged, hkind⟩ := reference_or_tagged_of_readNode h
  · simp only [readNode, htype, href] at h
    obtain ⟨names, rfl, hne, hnames, rfl⟩ := readReference_ok_iff.mp h
    exact .reference htype href hne hnames
  · simp only [readNode, htagged.type, htagged.noReference, Json.Value.string?, hkind] at h
    have htags := ofTag?_eq_some_iff.mp hkind
    cases kind with
    | reference => cases h
    | bool =>
      obtain ⟨value, hvalue, hnode⟩ := Except.bind_eq_ok_iff.mp h
      obtain rfl := Except.ok.inj hnode
      refine .bool htagged ?_ ((readKeyword_ok_iff bool?_eq_some_iff).mp hvalue)
      exact htags.imp And.left And.left
    | integer =>
      obtain ⟨limits, hlimits, hnode⟩ := Except.bind_eq_ok_iff.mp h
      obtain rfl := Except.ok.inj hnode
      obtain rfl : tag = "integer" := by simpa [Kind.tag] using htags
      exact .integer htagged ((readLimits_ok_iff integer?_eq_some_iff).mp hlimits)
    | number =>
      obtain ⟨limits, hlimits, hnode⟩ := Except.bind_eq_ok_iff.mp h
      obtain rfl := Except.ok.inj hnode
      obtain rfl : tag = "number" := by simpa [Kind.tag] using htags
      exact .number htagged ((readLimits_ok_iff number?_eq_some_iff).mp hlimits)
    | string =>
      obtain ⟨value, hvalue, hnode⟩ := Except.bind_eq_ok_iff.mp h
      obtain rfl := Except.ok.inj hnode
      obtain rfl : tag = "string" := by simpa [Kind.tag] using htags
      exact .string htagged ((readKeyword_ok_iff string?_eq_some_iff).mp hvalue)
    | object =>
      obtain ⟨members, hmembers, hnode⟩ := Except.bind_eq_ok_iff.mp h
      obtain rfl := Except.ok.inj hnode
      obtain rfl : tag = "object" := by simpa [Kind.tag] using htags
      obtain ⟨named, hget, hnames, heach⟩ := (readProperties_ok_iff hnamed).mp hmembers
      exact .object htagged hget hnames heach
    | array =>
      obtain ⟨item, hitem, h⟩ := Except.bind_eq_ok_iff.mp h
      obtain ⟨least, hleast, h⟩ := Except.bind_eq_ok_iff.mp h
      obtain ⟨most, hmost, hnode⟩ := Except.bind_eq_ok_iff.mp h
      obtain rfl := Except.ok.inj hnode
      obtain rfl : tag = "array" := by simpa [Kind.tag] using htags
      obtain ⟨v, hget, harray, hv⟩ := (readItem_ok_iff hnodes).mp hitem
      exact .array htagged hget harray hv ((readKeyword_ok_iff count?_eq_some_iff).mp hleast)
        ((readKeyword_ok_iff count?_eq_some_iff).mp hmost)

/-- A node that is described is read. -/
theorem readNode_of_describes
    (hnodes : ∀ f ∈ fields, ReadsAsDescribed f.2)
    (hnamed : ∀ f ∈ fields, ∀ named, f.2 = .object named → ReadsEachAsDescribed named)
    (h : Describes (.object fields) node) : readNode location (.object fields) = .ok node := by
  rw [readNode]
  cases h with
  | bool ht htag hvalue =>
    have hkind := ofTag?_eq_some_iff.mpr (htag.imp (⟨·, Kind.noConfusion⟩) (⟨·, rfl⟩))
    simp only [ht.type, ht.noReference, Json.Value.string?, hkind]
    rw [(readKeyword_ok_iff bool?_eq_some_iff).mpr hvalue]
    rfl
  | integer ht hlimits =>
    simp only [ht.type, ht.noReference, Json.Value.string?, Kind.ofTag?]
    rw [(readLimits_ok_iff integer?_eq_some_iff).mpr hlimits]
    rfl
  | number ht hlimits =>
    simp only [ht.type, ht.noReference, Json.Value.string?, Kind.ofTag?]
    rw [(readLimits_ok_iff number?_eq_some_iff).mpr hlimits]
    rfl
  | string ht hvalue =>
    simp only [ht.type, ht.noReference, Json.Value.string?, Kind.ofTag?]
    rw [(readKeyword_ok_iff string?_eq_some_iff).mpr hvalue]
    rfl
  | object ht hget hnames heach =>
    simp only [ht.type, ht.noReference, Json.Value.string?, Kind.ofTag?]
    rw [(readProperties_ok_iff hnamed).mpr ⟨_, hget, hnames, heach⟩]
    rfl
  | array ht hget harray hv hleast hmost =>
    simp only [ht.type, ht.noReference, Json.Value.string?, Kind.ofTag?]
    rw [(readItem_ok_iff hnodes).mpr ⟨_, hget, harray, hv⟩,
      (readKeyword_ok_iff count?_eq_some_iff).mpr hleast,
      (readKeyword_ok_iff count?_eq_some_iff).mpr hmost]
    rfl
  | reference htype href hne hnames =>
    simp only [htype, href]
    exact readReference_ok_iff.mpr ⟨_, rfl, hne, hnames, rfl⟩

end

/-- **Nodes.** A value is read as a node exactly if it describes that node, and so are the named
values of an object. -/
theorem readNode_ok_iff (v : Json.Value) :
    ReadsAsDescribed v ∧ ∀ named, v = .object named → ReadsEachAsDescribed named := by
  induction v using Json.Value.induction with
  | object fields ih =>
    have hnodes : ∀ f ∈ fields, ReadsAsDescribed f.2 := fun f hf => (ih f hf).1
    constructor
    · intro location node
      exact ⟨describes_of_readNode hnodes fun f hf => (ih f hf).2,
        readNode_of_describes hnodes fun f hf => (ih f hf).2⟩
    · rintro named hnamed
      obtain rfl := Json.Value.object.inj hnamed
      exact readMembers_ok_iff_of_forall hnodes
  | other v hother =>
    refine ⟨fun location node => ⟨fun h => ?_, fun h => ?_⟩, fun named hv => absurd hv (hother named)⟩
    · cases v with
      | object fields => exact absurd rfl (hother fields)
      | _ => simp [readNode] at h
    · cases h <;> exact absurd rfl (hother _)

/-! ## Schemas -/

theorem firstReference?_eq_none_iff {entries : List (String × Node)} :
    Schema.firstReference? entries = none ↔ ∀ e ∈ entries, e.2.isReference = false := by
  simp [Schema.firstReference?]

/-- **The grammar of schemas.** A JSON value is accepted exactly if it describes a schema, and what is
read is the schema that it describes. -/
theorem ofJson_eq_ok_iff (v : Json.Value) (s : Schema) :
    Schema.ofJson v = .ok s ↔ DescribesSchema v s := by
  cases v with
  | object fields =>
    have hfields := (readNode_ok_iff (.object fields)).2 fields rfl
    rw [Schema.ofJson, Except.bind_eq_ok_iff]
    constructor
    · rintro ⟨entries, hentries, h⟩
      obtain ⟨hnames, heach⟩ := (hfields _ _).mp hentries
      cases href : Schema.firstReference? entries with
      | some name => simp [href] at h
      | none =>
        simp only [href] at h
        obtain rfl := Except.ok.inj h
        exact ⟨fields, rfl, hnames, heach, firstReference?_eq_none_iff.mp href⟩
    · rintro ⟨named, hnamed, hnames, heach, hrefs⟩
      obtain rfl := Json.Value.object.inj hnamed
      refine ⟨s.entries, (hfields _ _).mpr ⟨hnames, heach⟩, ?_⟩
      rw [firstReference?_eq_none_iff.mpr hrefs]
  | _ => simp [Schema.ofJson, DescribesSchema]

end ConfigForge
