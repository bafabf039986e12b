import ConfigForge.Proofs.Faults
import ConfigForge.Proofs.Locality

/-!
# Where errors of reading point

An error of reading names a fault and a place. The place is written as a dotted path: the name of an
entry, then the names of members and `items` steps, or `<root>` for the document itself. The same
path can be followed in the document, through the `properties` of objects and the `items` of arrays,
and the value it leads to has the fault that is named.

Results:

* `readKeyword_error`, `readLimits_error`, `readReference_error`: faults of keywords.
* `readNode_error_cases`: a node is at fault itself, or its members or its item cannot be read.
* `readMembers_error`: named nodes are at fault together, or one of them cannot be read.
* `pointsAtFault`: the error of a node points at a fault in it.
* `faultyAt_of_readMembers`, `faultyAt_of_firstReference?`: what the errors of entries point at.
* `schema_errors_point_at_faults`: the error of a document points at a fault in it.
-/

namespace ConfigForge

/-! ## Paths into a document -/

namespace Json.Value

/-- The tag of a node. -/
def tag? (node : Value) : Option String :=
  (node.get? "type").bind Value.string?

/-- The node that a step leads to: a member of an object, or the item of an array. -/
def step? (node : Value) (name : String) : Option Value :=
  if node.tag? = some "object" then (node.get? "properties").bind (·.get? name)
  else if node.tag? = some "array" ∧ name = "items" then node.get? "items"
  else none

/-- The node that steps lead to, one after the other. -/
def follow? (node : Value) : List String → Option Value
  | [] => some node
  | name :: rest => (node.step? name).bind (·.follow? rest)

/-- The node of a document that a dotted path leads to: from an entry downwards. -/
def locate? (document : Value) (path : String) : Option Value :=
  match (Reference.ofText path).segments with
  | [] => none
  | name :: rest => (document.get? name).bind (·.follow? rest)

end Json.Value

/-! ## Faults of values -/

/-- Whether a value has the form that is expected. -/
def Expectation.Met : Expectation → Json.Value → Prop
  | .tag, v | .dottedText, v | .string, v => ∃ text, v = .string text
  | .object, v => ∃ fields, v = .object fields
  | .itemSchema, v => ∀ items, v ≠ .array items
  | .dottedNames, v => ∃ names, v = .string (Text.joinWith "." names) ∧ names ≠ [] ∧
      ∀ name ∈ names, isIdentifier name = true
  | .boolean, v => ∃ b, v = .bool b
  | .integer, v => ∃ i, StandsForInteger v i
  | .number, v => ∃ x, StandsForNumber v x
  | .count, v => ∃ n, StandsForCount v n

/-- The keywords of a kind of node, with what is expected of their values. -/
def Kind.keywords : Kind → List (String × Expectation)
  | .bool => [("default", .boolean)]
  | .integer => [("minimum", .integer), ("maximum", .integer), ("default", .integer)]
  | .number => [("minimum", .number), ("maximum", .number), ("default", .number)]
  | .string => [("default", .string)]
  | .object => [("properties", .object)]
  | .array => [("items", .itemSchema), ("minItems", .count), ("maxItems", .count)]
  | .reference => []

/-- The tags that name a kind of node. -/
def knownTags : List String :=
  ["bool", "boolean", "integer", "number", "string", "object", "array"]

/-- The faults of named nodes taken together. -/
inductive FaultyNames (named : List (String × Json.Value)) : SchemaFault → Prop where
  | invalidName {name : String} {v : Json.Value} : (name, v) ∈ named → isIdentifier name = false →
      FaultyNames named (.invalidName name)
  | duplicateMember {front middle back : List (String × Json.Value)} {first second type : String}
      {v w : Json.Value} : named = front ++ (first, v) :: (middle ++ (second, w) :: back) →
      typeName first = type → typeName second = type →
      FaultyNames named (.duplicateMember first second type)

/-- The faults of a node. -/
inductive FaultyNode : Json.Value → SchemaFault → Prop where
  | notAnObject {v : Json.Value} : (∀ fields, v ≠ .object fields) → FaultyNode v .notAnObject
  | missingType {fields : List (String × Json.Value)} : Entries.get? fields "type" = none →
      Entries.get? fields "$ref" = none → FaultyNode (.object fields) .missingType
  | typeAndReference {fields : List (String × Json.Value)} {t r : Json.Value} :
      Entries.get? fields "type" = some t → Entries.get? fields "$ref" = some r →
      FaultyNode (.object fields) .typeAndReference
  | unknownType {fields : List (String × Json.Value)} {tag : String} : Tagged fields tag →
      tag ∉ knownTags → FaultyNode (.object fields) (.unknownType tag)
  | missingProperties {fields : List (String × Json.Value)} : Tagged fields "object" →
      Entries.get? fields "properties" = none → FaultyNode (.object fields) .missingProperties
  | missingItems {fields : List (String × Json.Value)} : Tagged fields "array" →
      Entries.get? fields "items" = none → FaultyNode (.object fields) .missingItems
  | type {fields : List (String × Json.Value)} {t : Json.Value} :
      Entries.get? fields "type" = some t → ¬ Expectation.tag.Met t →
      FaultyNode (.object fields) (.invalidKeyword "type" .tag)
  | reference {fields : List (String × Json.Value)} {r : Json.Value} {expected : Expectation} :
      Entries.get? fields "type" = none → Entries.get? fields "$ref" = some r →
      expected = .dottedText ∨ expected = .dottedNames → ¬ expected.Met r →
      FaultyNode (.object fields) (.invalidKeyword "$ref" expected)
  | keyword {fields : List (String × Json.Value)} {tag keyword : String} {kind : Kind}
      {expected : Expectation} {v : Json.Value} : Tagged fields tag → Kind.ofTag? tag = some kind →
      (keyword, expected) ∈ kind.keywords → Entries.get? fields keyword = some v →
      ¬ expected.Met v → FaultyNode (.object fields) (.invalidKeyword keyword expected)
  | members {fields named : List (String × Json.Value)} {fault : SchemaFault} :
      Tagged fields "object" → Entries.get? fields "properties" = some (.object named) →
      FaultyNames named fault → FaultyNode (.object fields) fault

/-- The faults of a document, with the paths to the values that have them. -/
inductive FaultyAt (document : Json.Value) : String → SchemaFault → Prop where
  | root : (∀ fields, document ≠ .object fields) → FaultyAt document "<root>" .notAnObject
  | entries {fields : List (String × Json.Value)} {fault : SchemaFault} :
      document = .object fields → FaultyNames fields fault → FaultyAt document "<root>" fault
  | node {path : String} {v : Json.Value} {fault : SchemaFault} : path ≠ "<root>" →
      document.locate? path = some v → FaultyNode v fault → FaultyAt document path fault
  | topLevelReference {name : String} {fields : List (String × Json.Value)}
      {entries : List (String × Node)} {v : Json.Value} {r : Reference} :
      document = .object fields → WellNamed fields → DescribesEach fields entries →
      name ≠ "<root>" → document.locate? name = some v → Describes v (.reference r) →
      FaultyAt document name .topLevelReference

/-- Why a node cannot be read: it is at fault itself, or its members cannot be read, or its item. -/
inductive CannotRead (location : Location) (fields : List (String × Json.Value)) :
    SchemaError → Prop where
  | own {fault : SchemaFault} : FaultyNode (.object fields) fault →
      CannotRead location fields (.at location fault)
  | members {named : List (String × Json.Value)} {e : SchemaError} : Tagged fields "object" →
      Entries.get? fields "properties" = some (.object named) →
      readMembers location [] named = .error e → CannotRead location fields e
  | item {v : Json.Value} {e : SchemaError} : Tagged fields "array" →
      Entries.get? fields "items" = some v → readNode (location ++ ["items"]) v = .error e →
      CannotRead location fields e

/-! ## Keywords -/

section

variable {α : Type} {location : Location} {fields : List (String × Json.Value)}
  {read? : Json.Value → Option α} {expected : Expectation} {e : SchemaError}

theorem readKeyword_error {keyword : String}
    (h : readKeyword location fields keyword read? expected = .error e) :
    e = .at location (.invalidKeyword keyword expected) ∧
      ∃ v, Entries.get? fields keyword = some v ∧ read? v = none := by
  rw [readKeyword] at h
  cases hget : Entries.get? fields keyword with
  | none => rw [hget] at h; cases h
  | some v =>
    simp only [hget] at h
    cases hread : read? v with
    | some a => rw [hread] at h; cases h
    | none =>
      rw [hread] at h
      exact ⟨(Except.error.inj h).symm, v, rfl, hread⟩

theorem readLimits_error (h : readLimits location fields read? expected = .error e) :
    ∃ keyword ∈ ["minimum", "maximum", "default"],
      readKeyword location fields keyword read? expected = .error e := by
  rcases Except.bind_eq_error_iff.mp h with h | ⟨minimum, -, h⟩
  · exact ⟨"minimum", by simp, h⟩
  rcases Except.bind_eq_error_iff.mp h with h | ⟨maximum, -, h⟩
  · exact ⟨"maximum", by simp, h⟩
  rcases Except.bind_eq_error_iff.mp h with h | ⟨value, -, h⟩
  · exact ⟨"default", by simp, h⟩
  · cases h

/-- A keyword of a node that cannot be read has a value of the wrong form. -/
theorem cannotRead_of_readKeyword {tag keyword : String} {kind : Kind} (htag : Tagged fields tag)
    (hkind : Kind.ofTag? tag = some kind) (hkeyword : (keyword, expected) ∈ kind.keywords)
    (hmet : ∀ v, expected.Met v → ∃ a, read? v = some a)
    (h : readKeyword location fields keyword read? expected = .error e) :
    CannotRead location fields e := by
  obtain ⟨rfl, v, hget, hread⟩ := readKeyword_error h
  refine .own (.keyword htag hkind hkeyword hget fun hv => ?_)
  obtain ⟨a, ha⟩ := hmet v hv
  rw [hread] at ha
  cases ha

theorem cannotRead_of_readLimits {tag : String} {kind : Kind} (htag : Tagged fields tag)
    (hkind : Kind.ofTag? tag = some kind)
    (hkeywords : ∀ keyword ∈ ["minimum", "maximum", "default"], (keyword, expected) ∈ kind.keywords)
    (hmet : ∀ v, expected.Met v → ∃ a, read? v = some a)
    (h : readLimits location fields read? expected = .error e) : CannotRead location fields e := by
  obtain ⟨keyword, hkeyword, h⟩ := readLimits_error h
  exact cannotRead_of_readKeyword htag hkind (hkeywords keyword hkeyword) hmet h

theorem readReference_error {v : Json.Value} (h : readReference location v = .error e) :
    ∃ expected, e = .at location (.invalidKeyword "$ref" expected) ∧
      (expected = .dottedText ∨ expected = .dottedNames) ∧ ¬ expected.Met v := by
  have hread : ∀ node, readReference location v ≠ .ok node := by
    intro node hok
    rw [h] at hok
    cases hok
  rw [readReference] at h
  cases hv : v.string? with
  | none =>
    rw [hv] at h
    refine ⟨.dottedText, (Except.error.inj h).symm, .inl rfl, ?_⟩
    rintro ⟨text, rfl⟩
    cases hv
  | some text =>
    simp only [hv] at h
    split at h
    · cases h
    · refine ⟨.dottedNames, (Except.error.inj h).symm, .inr rfl, ?_⟩
      rintro ⟨names, hnames, hne, hall⟩
      exact hread _ (readReference_ok_iff.mpr ⟨names, hnames, hne, hall, rfl⟩)

end

/-! ## Nodes -/

theorem ofTag?_eq_none_iff {tag : String} : Kind.ofTag? tag = none ↔ tag ∉ knownTags := by
  unfold Kind.ofTag?
  split <;> simp_all [knownTags]

theorem ofTag?_ne_reference (tag : String) : Kind.ofTag? tag ≠ some .reference := by
  intro h
  rcases ofTag?_eq_some_iff.mp h with ⟨-, hne⟩ | ⟨-, hbool⟩
  · exact hne rfl
  · cases hbool

section

variable {location : Location} {fields : List (String × Json.Value)} {e : SchemaError}

/-- What is wrong with the members of an object. -/
theorem cannotRead_of_readProperties (htag : Tagged fields "object")
    (h : readProperties location fields = .error e) : CannotRead location fields e := by
  have hkind : Kind.ofTag? "object" = some .object := rfl
  rw [readProperties_eq] at h
  cases hget : Entries.get? fields "properties" with
  | none =>
    rw [hget] at h
    obtain rfl := Except.error.inj h
    exact .own (.missingProperties htag hget)
  | some v =>
    rw [hget] at h
    cases v with
    | object named => exact .members htag hget h
    | _ =>
      obtain rfl := Except.error.inj h
      refine .own (.keyword htag hkind (by simp [Kind.keywords]) hget ?_)
      rintro ⟨named, hnamed⟩
      cases hnamed

/-- What is wrong with the item of an array. -/
theorem cannotRead_of_readItem (htag : Tagged fields "array")
    (h : readItem location fields = .error e) : CannotRead location fields e := by
  have hkind : Kind.ofTag? "array" = some .array := rfl
  rw [readItem_eq] at h
  cases hget : Entries.get? fields "items" with
  | none =>
    rw [hget] at h
    obtain rfl := Except.error.inj h
    exact .own (.missingItems htag hget)
  | some v =>
    simp only [hget] at h
    split at h
    · next harray =>
      obtain rfl := Except.error.inj h
      refine .own (.keyword htag hkind (by simp [Kind.keywords]) hget fun hmet => ?_)
      cases v with
      | array items => exact hmet items rfl
      | _ => cases harray
    · exact .item htag hget h

/-- What is wrong with a node that has a tag of a known kind. -/
theorem readTagged_error_cases {tag : String} {kind : Kind} (htag : Tagged fields tag)
    (hkind : Kind.ofTag? tag = some kind) (h : readNode location (.object fields) = .error e) :
    CannotRead location fields e := by
  have htags := ofTag?_eq_some_iff.mp hkind
  simp only [readNode, htag.type, htag.noReference, Json.Value.string?, hkind] at h
  cases kind with
  | reference => exact absurd hkind (ofTag?_ne_reference tag)
  | bool =>
    rcases Except.bind_eq_error_iff.mp h with h | ⟨value, -, h⟩
    · refine cannotRead_of_readKeyword htag hkind (by simp [Kind.keywords]) ?_ h
      rintro v ⟨b, rfl⟩
      exact ⟨b, rfl⟩
    · cases h
  | integer =>
    rcases Except.bind_eq_error_iff.mp h with h | ⟨value, -, h⟩
    · refine cannotRead_of_readLimits htag hkind (by simp [Kind.keywords]) ?_ h
      rintro v ⟨i, hi⟩
      exact ⟨i, (integer?_eq_some_iff v i).mpr hi⟩
    · cases h
  | number =>
    rcases Except.bind_eq_error_iff.mp h with h | ⟨value, -, h⟩
    · refine cannotRead_of_readLimits htag hkind (by simp [Kind.keywords]) ?_ h
      rintro v ⟨x, hx⟩
      exact ⟨x, (number?_eq_some_iff v x).mpr hx⟩
    · cases h
  | string =>
    rcases Except.bind_eq_error_iff.mp h with h | ⟨value, -, h⟩
    · refine cannotRead_of_readKeyword htag hkind (by simp [Kind.keywords]) ?_ h
      rintro v ⟨text, rfl⟩
      exact ⟨text, rfl⟩
    · cases h
  | object =>
    obtain rfl : tag = "object" := by simpa [Kind.tag] using htags
    rcases Except.bind_eq_error_iff.mp h with h | ⟨members, -, h⟩
    · exact cannotRead_of_readProperties htag h
    · cases h
  | array =>
    obtain rfl : tag = "array" := by simpa [Kind.tag] using htags
    have hcount : ∀ v, Expectation.count.Met v → ∃ n, v.count? = some n := by
      rintro v ⟨n, hn⟩
      exact ⟨n, (count?_eq_some_iff v n).mpr hn⟩
    rcases Except.bind_eq_error_iff.mp h with h | ⟨item, -, h⟩
    · exact cannotRead_of_readItem htag h
    rcases Except.bind_eq_error_iff.mp h with h | ⟨least, -, h⟩
    · exact cannotRead_of_readKeyword htag hkind (by simp [Kind.keywords]) hcount h
    rcases Except.bind_eq_error_iff.mp h with h | ⟨most, -, h⟩
    · exact cannotRead_of_readKeyword htag hkind (by simp [Kind.keywords]) hcount h
    · cases h

/-- What is wrong with a node that cannot be read: it is at fault itself, or its members or its item
cannot be read. -/
theorem readNode_error_cases (h : readNode location (.object fields) = .error e) :
    CannotRead location fields e := by
  have hnode := h
  rw [readNode] at h
  cases htype : Entries.get? fields "type" with
  | none =>
    cases href : Entries.get? fields "$ref" with
    | none =>
      simp only [htype, href] at h
      obtain rfl := Except.error.inj h
      exact .own (.missingType htype href)
    | some r =>
      simp only [htype, href] at h
      obtain ⟨expected, rfl, hexpected, hmet⟩ := readReference_error h
      exact .own (.reference htype href hexpected hmet)
  | some t =>
    cases href : Entries.get? fields "$ref" with
    | some r =>
      simp only [htype, href] at h
      obtain rfl := Except.error.inj h
      exact .own (.typeAndReference htype href)
    | none =>
      simp only [htype, href] at h
      cases htag : t.string? with
      | none =>
        rw [htag] at h
        obtain rfl := Except.error.inj h
        refine .own (.type htype ?_)
        rintro ⟨text, rfl⟩
        cases htag
      | some tag =>
        obtain rfl := (string?_eq_some_iff t tag).mp htag
        cases hkind : Kind.ofTag? tag with
        | some kind => exact readTagged_error_cases ⟨htype, href⟩ hkind hnode
        | none =>
          simp only [htag, hkind] at h
          obtain rfl := Except.error.inj h
          exact .own (.unknownType ⟨htype, href⟩ (ofTag?_eq_none_iff.mp hkind))

end

/-! ## Named nodes -/

/-- The type names of fields, each with the field it belongs to, as they are when the fields have
been read. -/
def seenIn (front : List (String × Json.Value)) : List (String × String) :=
  (front.map fun f => (typeName f.1, f.1)).reverse

theorem seenIn_nil : seenIn [] = [] := rfl

theorem seenIn_append (front : List (String × Json.Value)) (name : String) (v : Json.Value) :
    seenIn (front ++ [(name, v)]) = (typeName name, name) :: seenIn front := by
  simp [seenIn]

theorem mem_of_get?_seenIn {front : List (String × Json.Value)} {type first : String}
    (h : Entries.get? (seenIn front) type = some first) :
    typeName first = type ∧ ∃ v, (first, v) ∈ front := by
  have hmem := Entries.mem_of_get? h
  rw [seenIn, List.mem_reverse, List.mem_map] at hmem
  obtain ⟨f, hf, heq⟩ := hmem
  obtain ⟨rfl, rfl⟩ := Prod.mk.inj heq
  exact ⟨rfl, f.2, hf⟩

theorem Entries.get?_append_cons_self {α : Type} {front back : Entries α} {name : String}
    {value : α} (h : name ∉ front.names) :
    Entries.get? (front ++ (name, value) :: back) name = some value := by
  induction front with
  | nil => exact if_pos rfl
  | cons f front ih =>
    obtain ⟨key, old⟩ := f
    rw [Entries.names, List.map_cons, List.mem_cons, not_or] at h
    rw [List.cons_append, Entries.get?, if_neg (Ne.symm h.1)]
    exact ih h.2

/-- A name whose type name is new is new. -/
theorem not_mem_names_of_get?_seenIn {front : List (String × Json.Value)} {name : String}
    (h : Entries.get? (seenIn front) (typeName name) = none) : name ∉ Entries.names front := by
  intro hmem
  obtain ⟨f, hf, rfl⟩ := List.mem_map.mp hmem
  refine Entries.get?_eq_none_iff.mp h ?_
  rw [Entries.names, seenIn, List.map_reverse, List.mem_reverse, List.map_map]
  exact List.mem_map.mpr ⟨f, hf, rfl⟩

/-- What is wrong with named nodes that cannot be read: they are at fault together, or one of them
cannot be read. The nodes of `front` have been read. -/
theorem readMembers_error {location : Location} {e : SchemaError}
    {front back : List (String × Json.Value)}
    (h : readMembers location (seenIn front) back = .error e) :
    (∃ fault, e = .at location fault ∧ FaultyNames (front ++ back) fault) ∨
      ∃ name v, (name, v) ∈ back ∧ isIdentifier name = true ∧
        Entries.get? (front ++ back) name = some v ∧
        readNode (location ++ [name]) v = .error e := by
  induction back generalizing front with
  | nil => cases h
  | cons f rest ih =>
    obtain ⟨name, v⟩ := f
    rw [readMembers] at h
    by_cases hname : isIdentifier name = true
    · rw [if_pos hname] at h
      cases hseen : Entries.get? (seenIn front) (typeName name) with
      | some first =>
        rw [hseen] at h
        obtain rfl := Except.error.inj h
        obtain ⟨htype, w, hmem⟩ := mem_of_get?_seenIn hseen
        obtain ⟨before, between, rfl⟩ := List.append_of_mem hmem
        have hsplit : before ++ (first, w) :: between ++ (name, v) :: rest =
            before ++ (first, w) :: (between ++ (name, v) :: rest) := by
          rw [List.append_assoc]
          rfl
        exact .inl ⟨_, rfl, .duplicateMember hsplit htype rfl⟩
      | none =>
        simp only [hseen] at h
        rcases Except.bind_eq_error_iff.mp h with h | ⟨node, -, h⟩
        · have hnew := not_mem_names_of_get?_seenIn hseen
          exact .inr ⟨name, v, List.mem_cons_self, hname, Entries.get?_append_cons_self hnew, h⟩
        rcases Except.bind_eq_error_iff.mp h with h | ⟨members, -, h⟩
        · rw [← seenIn_append front name v] at h
          have hsplit : front ++ (name, v) :: rest = (front ++ [(name, v)]) ++ rest := by
            rw [List.append_assoc]
            rfl
          rw [hsplit]
          rcases ih h with hfaulty | ⟨other, w, hmem, hother⟩
          · exact .inl hfaulty
          · exact .inr ⟨other, w, List.mem_cons_of_mem _ hmem, hother⟩
        · cases h
    · rw [if_neg hname] at h
      obtain rfl := Except.error.inj h
      refine .inl ⟨_, rfl, .invalidName (v := v) ?_ (Bool.eq_false_iff.mpr hname)⟩
      exact List.mem_append_right _ List.mem_cons_self

/-! ## Nodes at any depth -/

/-- Whether an error points at a fault in a value: its location goes on from `location` with
identifiers, and these lead from the value to one that has the fault. -/
def PointsInto (v : Json.Value) (location : Location) (e : SchemaError) : Prop :=
  ∃ route w fault, e = .at (location ++ route) fault ∧ v.follow? route = some w ∧
    FaultyNode w fault ∧ ∀ name ∈ route, isIdentifier name = true

/-- Whether every error in reading a value points at a fault in it. -/
def PointsAtFault (v : Json.Value) : Prop :=
  ∀ location e, readNode location v = .error e → PointsInto v location e

theorem FaultyNode.pointsInto {v : Json.Value} {fault : SchemaFault} (h : FaultyNode v fault)
    (location : Location) : PointsInto v location (.at location fault) :=
  ⟨[], v, fault, by rw [List.append_nil], rfl, h, List.forall_mem_nil _⟩

theorem tag?_of_tagged {fields : List (String × Json.Value)} {tag : String}
    (h : Tagged fields tag) : (Json.Value.object fields).tag? = some tag := by
  rw [Json.Value.tag?, Json.Value.get?_object, h.type]
  rfl

theorem step?_member {fields named : List (String × Json.Value)} (htag : Tagged fields "object")
    (hget : Entries.get? fields "properties" = some (.object named)) (name : String) :
    (Json.Value.object fields).step? name = Entries.get? named name := by
  rw [Json.Value.step?, if_pos (tag?_of_tagged htag), Json.Value.get?_object, hget]
  rfl

theorem step?_item {fields : List (String × Json.Value)} (htag : Tagged fields "array") :
    (Json.Value.object fields).step? "items" = Entries.get? fields "items" := by
  have htag' := tag?_of_tagged htag
  rw [Json.Value.step?, htag', if_neg (by decide), if_pos ⟨rfl, rfl⟩]
  rfl

/-- One step further down. -/
theorem PointsAtFault.behind {node v : Json.Value} {location : Location} {name : String}
    {e : SchemaError} (hv : PointsAtFault v) (hstep : node.step? name = some v)
    (hname : isIdentifier name = true) (h : readNode (location ++ [name]) v = .error e) :
    PointsInto node location e := by
  obtain ⟨route, w, fault, rfl, hfollow, hfaulty, hroute⟩ := hv _ _ h
  refine ⟨name :: route, w, fault, ?_, ?_, hfaulty, List.forall_mem_cons.mpr ⟨hname, hroute⟩⟩
  · rw [List.append_assoc]
    rfl
  · rw [Json.Value.follow?, hstep]
    exact hfollow

/-- **Nodes.** An error in reading a node points at a fault in it, at whatever depth. -/
theorem pointsAtFault (v : Json.Value) :
    PointsAtFault v ∧ ∀ named, v = .object named → ∀ f ∈ named, PointsAtFault f.2 := by
  induction v using Json.Value.induction with
  | other v hother =>
    refine ⟨fun location e h => ?_, fun named hv => absurd hv (hother named)⟩
    have he : e = .at location .notAnObject := by
      cases v with
      | object fields => exact absurd rfl (hother fields)
      | _ => exact (Except.error.inj h).symm
    rw [he]
    exact FaultyNode.pointsInto (.notAnObject hother) location
  | object fields ih =>
    refine ⟨fun location e h => ?_, fun named hnamed f hf => ?_⟩
    · cases readNode_error_cases h with
      | own hfaulty => exact hfaulty.pointsInto location
      | @members named _ htag hget hmembers =>
        have hpoints := (ih _ (Entries.mem_of_get? hget)).2 named rfl
        rw [← seenIn_nil] at hmembers
        rcases readMembers_error hmembers with
          ⟨fault, rfl, hfaulty⟩ | ⟨name, v, hmem, hname, hv, h⟩
        · exact FaultyNode.pointsInto (.members htag hget hfaulty) location
        · exact (hpoints _ hmem).behind ((step?_member htag hget name).trans hv) hname h
      | @item v _ htag hget h =>
        have hitem := (ih _ (Entries.mem_of_get? hget)).1
        exact hitem.behind ((step?_item htag).trans hget) (by decide) h
    · obtain rfl := Json.Value.object.inj hnamed
      exact (ih f hf).1

/-! ## Documents -/

/-- A path of identifiers is read back from its text, so the text leads along the path. -/
theorem locate?_render (document : Json.Value) {name : String} {route : List String}
    (h : ∀ x ∈ name :: route, isIdentifier x = true) :
    Location.render (name :: route) ≠ "<root>" ∧
      document.locate? (Location.render (name :: route)) =
        (document.get? name).bind (·.follow? route) := by
  have hrender : Location.render (name :: route) = dotted (name :: route) := rfl
  have hsegments : (Reference.ofText (dotted (name :: route))).segments = name :: route :=
    segments_dotted (List.cons_ne_nil _ _) fun x hx => dot_not_mem_of_isIdentifier (h x hx)
  rw [hrender, Json.Value.locate?, hsegments]
  refine ⟨fun hroot => ?_, rfl⟩
  have hread : (Reference.ofText "<root>").segments = ["<root>"] := by decide
  rw [hroot, hread] at hsegments
  obtain ⟨rfl, -⟩ := List.cons.inj hsegments
  have hname := h "<root>" List.mem_cons_self
  revert hname
  decide

theorem WellNamed.names_nodup {fields : List (String × Json.Value)} (h : WellNamed fields) :
    (Entries.names fields).Nodup := by
  have hapart := h.apart
  rw [show (fun f : String × Json.Value => typeName f.1) = typeName ∘ Prod.fst from rfl,
    ← List.map_map] at hapart
  exact List.Nodup.of_map typeName hapart

section

variable {fields : List (String × Json.Value)}

/-- The error of an entry points at a fault in the document. -/
theorem faultyAt_of_readMembers {e : SchemaError} (h : readMembers [] [] fields = .error e) :
    ∃ location fault, e = .at location fault ∧
      FaultyAt (.object fields) location.render fault := by
  rw [← seenIn_nil] at h
  rcases readMembers_error h with ⟨fault, rfl, hfaulty⟩ | ⟨name, v, -, hname, hv, h⟩
  · exact ⟨[], fault, rfl, .entries rfl hfaulty⟩
  · obtain ⟨route, w, fault, rfl, hfollow, hfaulty, hroute⟩ := (pointsAtFault v).1 _ _ h
    obtain ⟨hne, hlocate⟩ := locate?_render (.object fields)
      (List.forall_mem_cons.mpr ⟨hname, hroute⟩)
    refine ⟨name :: route, fault, rfl, .node hne ?_ hfaulty⟩
    rw [List.nil_append] at hv
    rw [hlocate, Json.Value.get?_object, hv]
    exact hfollow

/-- A reference among the entries is found once all entries have been read. -/
theorem faultyAt_of_firstReference? {entries : List (String × Node)} {name : String}
    (hentries : readMembers [] [] fields = .ok entries)
    (h : Schema.firstReference? entries = some name) :
    FaultyAt (.object fields) (Location.render [name]) .topLevelReference := by
  obtain ⟨⟨name', node⟩, hfind, rfl⟩ := Option.map_eq_some_iff.mp h
  have href : node.isReference = true := by simpa using List.find?_some hfind
  obtain ⟨r, rfl⟩ := Node.exists_of_isReference href
  obtain ⟨hnames, heach⟩ := ((readNode_ok_iff (.object fields)).2 fields rfl _ _).mp hentries
  obtain ⟨v, hv, hdescribes⟩ := heach.exists_field (List.mem_of_find?_eq_some hfind)
  have hidentifiers : ∀ x ∈ [name'], isIdentifier x = true := by
    simpa using hnames.identifiers _ hv
  obtain ⟨hne, hlocate⟩ := locate?_render (.object fields) hidentifiers
  rw [Json.Value.get?_object, Entries.get?_of_mem hnames.names_nodup hv] at hlocate
  exact .topLevelReference rfl hnames heach hne hlocate hdescribes

end

/-- **Errors of reading.** An error in reading a document has a location. The location is written as
a path, and the document has at the value that the path leads to the fault that the error names. -/
theorem schema_errors_point_at_faults {document : Json.Value} {e : SchemaError}
    (h : Schema.ofJson document = .error e) :
    ∃ location fault, e.location? = some location ∧ e = .at location fault ∧
      FaultyAt document location.render fault := by
  cases document with
  | object fields =>
    rw [Schema.ofJson] at h
    rcases Except.bind_eq_error_iff.mp h with h | ⟨entries, hentries, h⟩
    · obtain ⟨location, fault, rfl, hfaulty⟩ := faultyAt_of_readMembers h
      exact ⟨location, fault, rfl, rfl, hfaulty⟩
    · cases hfirst : Schema.firstReference? entries with
      | none => rw [hfirst] at h; cases h
      | some name =>
        rw [hfirst] at h
        obtain rfl := Except.error.inj h
        exact ⟨[name], _, rfl, rfl, faultyAt_of_firstReference? hentries hfirst⟩
  | _ =>
    obtain rfl := Except.error.inj h
    refine ⟨[], _, rfl, rfl, .root fun fields hfields => ?_⟩
    cases hfields

/-- An object with an array of arrays, whose innermost items have a tag that is not known. -/
def misspeltExample : Json.Value :=
  .object [("box", .object [("type", .string "object"),
    ("properties", .object [("grid", .object [("type", .string "array"),
      ("items", .object [("type", .string "array"),
        ("items", .object [("type", .string "int")])])])])])]

theorem misspeltExample_pointed_at :
    Schema.ofJson misspeltExample =
        .error (.at ["box", "grid", "items", "items"] (.unknownType "int")) ∧
      FaultyAt misspeltExample "box.grid.items.items" (.unknownType "int") := by
  have herror : Schema.ofJson misspeltExample =
      .error (.at ["box", "grid", "items", "items"] (.unknownType "int")) := rfl
  refine ⟨herror, ?_⟩
  obtain ⟨location, fault, -, he, hfaulty⟩ := schema_errors_point_at_faults herror
  obtain ⟨rfl, rfl⟩ := SchemaError.at.inj he
  exact hfaulty

end ConfigForge
