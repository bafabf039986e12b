import ConfigForge.Proofs.ClassScopes

/-!
# The order of a walk

In an admissible schema a type leads back to the position of its node. A walk is over with a node
after the nodes below it, and a settled reference means an object that is over before; so what a node
has from the nodes below it and from the object it refers to, every node has.

Results:

* `Schema.Admissible.position_eq`: a type belongs to the node at one position.
* `Before.not_isPrefix`, `Before.asymm`: what is over before a position is neither around it nor
  behind it.
* `Schema.Admissible.induction_in_order`: induction over the nodes below and the objects referred to.
-/

namespace ConfigForge

/-! ## Positions -/

theorem Before.not_isPrefix {earlier position : List Nat} (h : Before earlier position) :
    ¬ earlier <+: position := by
  induction earlier generalizing position with
  | nil => cases position <;> exact h.elim
  | cons i earlier ih =>
    cases position with
    | nil => exact h.elim
    | cons j position =>
      intro hprefix
      obtain ⟨rfl, hrest⟩ := List.cons_prefix_cons.mp hprefix
      rcases h with hlt | ⟨-, h⟩
      · exact Nat.lt_irrefl _ hlt
      · exact ih h hrest

theorem Before.asymm {earlier position : List Nat} (h : Before earlier position) :
    ¬ Before position earlier := by
  induction earlier generalizing position with
  | nil => cases position <;> exact h.elim
  | cons i earlier ih =>
    cases position with
    | nil => exact h.elim
    | cons j position =>
      rintro (hlt | ⟨rfl, hback⟩)
      · rcases h with hlt' | ⟨rfl, -⟩
        · omega
        · exact Nat.lt_irrefl _ hlt
      · rcases h with hlt' | ⟨-, h⟩
        · exact Nat.lt_irrefl _ hlt'
        · exact ih h hback

/-! ## The position of a type -/

namespace Place

/-- The class of a node leads through one of the types that the root of its tree declares. -/
theorem Has.exists_classPath {p q : Place} (h : p.Has q) (href : q.node.isReference = false) :
    ∃ first ∈ p.node.types p.name, p.scope ++ [first] <+: q.classPath := by
  induction p using Place.induction with
  | step p ih =>
    rcases has_iff.mp h with rfl | ⟨c, hc, hcq⟩
    · exact ⟨typeName q.name, Node.own_type_mem_types href, List.prefix_rfl⟩
    · obtain ⟨first, hfirst, hprefix⟩ := ih c hc hcq
      obtain ⟨around, name, node⟩ := p
      cases node with
      | scalar s => simp [children] at hc
      | reference r => simp [children] at hc
      | array item bounds =>
        rw [children_array rfl, List.mem_singleton] at hc
        subst hc
        exact ⟨first, List.mem_cons_of_mem _ hfirst, hprefix⟩
      | object members =>
        rw [children_object rfl] at hc
        obtain ⟨m, -, rfl⟩ := mem_placesIn.mp hc
        refine ⟨typeName name, List.mem_cons_self, List.IsPrefix.trans ?_ hprefix⟩
        refine ⟨[first], ?_⟩
        simp [scope, path]

/-- Whether the types declared in the scope of a tree differ, and those in every class of it. -/
def TypesApart (p : Place) : Prop :=
  (p.node.types p.name).Nodup ∧
    ∀ o members, p.Has o → o.node = .object members → (memberTypes members).Nodup

/-- Whether a class leads back to a position of a tree. -/
def Locates (p : Place) : Prop :=
  ∀ position other q q', p.at? position = some q → p.at? other = some q' →
    q.node.isReference = false → q'.node.isReference = false → q.classPath = q'.classPath →
      position = other

end Place

/-- The types of the named nodes of a list differ from one node to the other. -/
theorem index_eq_of_mem_types {members : List (String × Node)} (hnodup : (memberTypes members).Nodup)
    {i j : Nat} {m m' : String × Node} (hm : members[i]? = some m) (hm' : members[j]? = some m')
    {type : String} (htype : type ∈ m.2.types m.1) (htype' : type ∈ m'.2.types m'.1) : i = j := by
  have hdisjoint := (List.nodup_flatMap.mp hnodup).2
  by_contra hne
  obtain ⟨hi, rfl⟩ := List.getElem?_eq_some_iff.mp hm
  obtain ⟨hj, rfl⟩ := List.getElem?_eq_some_iff.mp hm'
  rw [List.pairwise_iff_getElem] at hdisjoint
  rcases Nat.lt_or_gt_of_ne hne with hlt | hlt
  · exact hdisjoint i j hi hj hlt htype htype'
  · exact hdisjoint j i hj hi hlt htype' htype

theorem eq_of_isPrefix_append {scope path : List String} {first first' : String}
    (h : scope ++ [first] <+: path) (h' : scope ++ [first'] <+: path) : first = first' := by
  have heq : scope ++ [first] = scope ++ [first'] :=
    List.IsPrefix.eq_of_length (List.prefix_of_prefix_length_le h h' (by simp)) (by simp)
  simpa using heq

/-- From the trees of a list to the list. -/
theorem placeAt?_inj {around : List String} {members : List (String × Node)}
    (hnodup : (memberTypes members).Nodup) (htrees : ∀ p ∈ placesIn around members, p.Locates)
    {position other : List Nat} {q q' : Place}
    (hq : placeAt? (placesIn around members) position = some q)
    (hq' : placeAt? (placesIn around members) other = some q')
    (href : q.node.isReference = false) (href' : q'.node.isReference = false)
    (h : q.classPath = q'.classPath) : position = other := by
  match position, other, hq, hq' with
  | i :: rest, j :: rest', hq, hq' =>
    obtain ⟨p, hp, hpq⟩ := Option.bind_eq_some_iff.mp hq
    obtain ⟨p', hp', hpq'⟩ := Option.bind_eq_some_iff.mp hq'
    obtain ⟨first, hfirst, hprefix⟩ := Place.Has.exists_classPath ⟨rest, hpq⟩ href
    obtain ⟨first', hfirst', hprefix'⟩ := Place.Has.exists_classPath ⟨rest', hpq'⟩ href'
    rw [placesIn, List.getElem?_map] at hp hp'
    obtain ⟨m, hm, rfl⟩ := Option.map_eq_some_iff.mp hp
    obtain ⟨m', hm', rfl⟩ := Option.map_eq_some_iff.mp hp'
    rw [← h] at hprefix'
    obtain rfl := eq_of_isPrefix_append hprefix hprefix'
    obtain rfl := index_eq_of_mem_types hnodup hm hm' hfirst hfirst'
    obtain rfl := Option.some.inj (hm.symm.trans hm')
    have hlocates := htrees _ (mem_placesIn.mpr ⟨m, List.mem_of_getElem? hm, rfl⟩)
    rw [hlocates rest rest' q q' hpq hpq' href href' h]

namespace Place

theorem TypesApart.child {p c : Place} (h : p.TypesApart) (hc : c ∈ p.children) : c.TypesApart := by
  refine ⟨?_, fun o members ho hnode => h.2 o members (has_of_child hc ho) hnode⟩
  obtain ⟨around, name, node⟩ := p
  cases node with
  | scalar s => simp [children] at hc
  | reference r => simp [children] at hc
  | array item bounds =>
    rw [children_array rfl, List.mem_singleton] at hc
    subst hc
    exact (List.nodup_cons.mp h.1).2
  | object members =>
    rw [children_object rfl] at hc
    obtain ⟨m, hm, rfl⟩ := mem_placesIn.mp hc
    have hmembers := h.2 _ members (has_self _) rfl
    exact hmembers.sublist (Node.types_sublist_memberTypes hm)

/-- The class of a node below differs from that of the node above. -/
theorem TypesApart.classPath_ne {p c q : Place} (h : p.TypesApart) (hc : c ∈ p.children)
    (hq : c.Has q) (href : q.node.isReference = false) : q.classPath ≠ p.classPath := by
  obtain ⟨first, hfirst, hprefix⟩ := hq.exists_classPath href
  obtain ⟨around, name, node⟩ := p
  intro heq
  rw [heq] at hprefix
  cases node with
  | scalar s => simp [children] at hc
  | reference r => simp [children] at hc
  | array item bounds =>
    rw [children_array rfl, List.mem_singleton] at hc
    subst hc
    have hself : first = typeName name := eq_of_isPrefix_append hprefix List.prefix_rfl
    exact (List.nodup_cons.mp h.1).1 (hself ▸ hfirst)
  | object members =>
    rw [children_object rfl] at hc
    obtain ⟨m, -, rfl⟩ := mem_placesIn.mp hc
    have hlength := hprefix.length_le
    simp only [scope, path, classPath, List.length_append, List.length_map, List.length_singleton]
      at hlength
    omega

theorem TypesApart.locates {p : Place} (h : p.TypesApart) : p.Locates := by
  induction p using Place.induction with
  | step p ih =>
    intro position other q q' hq hq' href href' hclass
    match position, other with
    | [], [] => rfl
    | [], j :: rest =>
      obtain rfl := Option.some.inj hq
      obtain ⟨c, hc, hcq⟩ := Option.bind_eq_some_iff.mp hq'
      exact absurd hclass.symm (h.classPath_ne (List.mem_of_getElem? hc) ⟨rest, hcq⟩ href')
    | i :: rest, [] =>
      obtain rfl := Option.some.inj hq'
      obtain ⟨c, hc, hcq⟩ := Option.bind_eq_some_iff.mp hq
      exact absurd hclass (h.classPath_ne (List.mem_of_getElem? hc) ⟨rest, hcq⟩ href)
    | i :: rest, j :: rest' =>
      obtain ⟨c, hc, hcq⟩ := Option.bind_eq_some_iff.mp hq
      obtain ⟨c', hc', hcq'⟩ := Option.bind_eq_some_iff.mp hq'
      have hbelow : ∀ c ∈ p.children, c.Locates := fun c hc => ih c hc (h.child hc)
      cases hnode : p.node with
      | scalar s => simp [children, hnode] at hc
      | reference r => simp [children, hnode] at hc
      | array item bounds =>
        rw [children_array hnode, List.getElem?_singleton] at hc hc'
        obtain ⟨rfl, rfl⟩ : i = 0 ∧ j = 0 := by
          constructor
          · by_contra hi; rw [if_neg hi] at hc; cases hc
          · by_contra hj; rw [if_neg hj] at hc'; cases hc'
        obtain rfl := Option.some.inj (hc.symm.trans hc')
        obtain rfl := Option.some.inj hc
        have hitem := hbelow ⟨p.around, itemName p.name, item⟩ (by simp [children_array hnode])
        rw [hitem rest rest' q q' hcq hcq' href href' hclass]
      | object members =>
        rw [children_object hnode] at hbelow hc hc'
        refine placeAt?_inj (h.2 p members p.has_self hnode) hbelow ?_ ?_ href href' hclass
        · rw [placeAt?, hc]; exact hcq
        · rw [placeAt?, hc']; exact hcq'

end Place

theorem Schema.Admissible.memberTypes_nodup {s : Schema} (hs : s.Admissible) :
    (memberTypes s.entries).Nodup :=
  hs.outermost.sublist s.types_sublist

theorem Schema.Admissible.typesApart {s : Schema} (hs : s.Admissible) {root : Place}
    (hroot : root ∈ placesIn [] s.entries) : root.TypesApart := by
  obtain ⟨m, hm, rfl⟩ := mem_placesIn.mp hroot
  refine ⟨hs.memberTypes_nodup.sublist (Node.types_sublist_memberTypes hm), ?_⟩
  intro o members ho hnode
  have hclass := hs.classes o members (Schema.has_iff.mpr ⟨_, hroot, ho⟩) hnode
  exact hclass.1.sublist (memberTypes_sublist members)

/-- **The position of a type.** In an admissible schema two nodes of the same type are one node at
one position. -/
theorem Schema.Admissible.position_eq {s : Schema} (hs : s.Admissible) {position other : List Nat}
    {p q : Place} (hp : s.at? position = some p) (hq : s.at? other = some q)
    (hpref : p.node.isReference = false) (hqref : q.node.isReference = false)
    (h : p.type = q.type) : position = other := by
  have htrees : ∀ root ∈ placesIn [] s.entries, root.Locates :=
    fun root hroot => (hs.typesApart hroot).locates
  refine placeAt?_inj hs.memberTypes_nodup htrees hp hq hpref hqref ?_
  have hscope : p.scope = q.scope := congrArg QualifiedName.scope h
  rw [Place.classPath, Place.classPath, h, hscope]

/-! ## Induction -/

section

variable {t : Schema} {P : Place → Prop}

/-- Whether `P` holds of the objects of a schema with the given paths. -/
def Schema.HoldsOf (t : Schema) (P : Place → Prop) (done : List (List String)) : Prop :=
  ∀ o, t.Has o → o.node.isObject = true → o.path ∈ done → P o

/-- When a tree is over, `P` holds of its objects too. -/
theorem Schema.HoldsOf.append (ht : t.Admissible) {done : List (List String)}
    (hdone : t.HoldsOf P done) {p : Place} (hp : t.Has p) (hbelow : ∀ q, p.Has q → P q) :
    t.HoldsOf P (done ++ p.completed) := by
  intro o ho hobject hpath
  rcases List.mem_append.mp hpath with hpath | hpath
  · exact hdone o ho hobject hpath
  · obtain ⟨q, hq, hqobject, hqpath⟩ := Place.mem_completed_iff.mp hpath
    have htype : q.type = o.type := by rw [← Place.ofPath_path, hqpath, Place.ofPath_path]
    obtain rfl := ht.eq_of_type_eq (hp.trans hq) ho (Node.isReference_of_isObject hqobject)
      (Node.isReference_of_isObject hobject) htype
    exact hbelow q hq

/-- Trees one after the other: each finds the objects of those before it in `done`. -/
theorem forall_has_of_among (ht : t.Admissible) {forest : List Place}
    (htree : ∀ p ∈ forest, ∀ done, t.HoldsOf P done →
      p.node.EachReference Reference.IsSettled done p.around p.name → ∀ q, p.Has q → P q)
    (hforest : ∀ p ∈ forest, t.Has p) {done : List (List String)} (hdone : t.HoldsOf P done)
    (hrefs : EachReferenceAmong Reference.IsSettled done forest) :
    ∀ p ∈ forest, ∀ q, p.Has q → P q := by
  induction forest generalizing done with
  | nil => intro p hp; cases hp
  | cons first forest ih =>
    have hfirst := htree first List.mem_cons_self done hdone hrefs.1
    have hdone' := hdone.append ht (hforest first List.mem_cons_self) hfirst
    intro p hp
    rcases List.mem_cons.mp hp with rfl | hp
    · exact hfirst
    · exact ih (fun p hp => htree p (List.mem_cons_of_mem _ hp))
        (fun p hp => hforest p (List.mem_cons_of_mem _ hp)) hdone' hrefs.2 p hp

/-- **Induction in the order of the walk.** What holds of a node if it holds of the nodes directly
below it and of the object that it refers to holds of every node of a settled schema. -/
theorem Schema.Admissible.induction_in_order (ht : t.Admissible)
    (hrefs : EachReferenceIn Reference.IsSettled [] [] t.entries)
    (step : ∀ p, t.Has p → (∀ c ∈ p.children, P c) →
      (∀ r, p.node = .reference r → ∃ o, t.Has o ∧ o.node.isObject = true ∧
        o.path = r.segments ∧ P o) → P p) {p : Place} (hp : t.Has p) : P p := by
  have hstep : ∀ p, t.Has p → (∀ c ∈ p.children, P c) →
      (∀ r o, p.node = .reference r → t.Has o → o.node.isObject = true → o.path = r.segments →
        P o) → P p := by
    intro p hp hbelow hobject
    refine step p hp hbelow fun r hr => ?_
    obtain ⟨o, ho, hnode, hpath⟩ := t.exists_object hrefs hp hr
    exact ⟨o, ho, hnode, hpath, hobject r o hr ho hnode hpath⟩
  -- Over the tree: `done` only ever holds objects that the walk is over with.
  have htree : ∀ root : Place, t.Has root → ∀ done, t.HoldsOf P done →
      root.node.EachReference Reference.IsSettled done root.around root.name →
        ∀ q, root.Has q → P q := by
    intro root
    induction root using Place.induction with
    | step root ih =>
      intro hroot done hdone hroots q hq
      obtain ⟨hself, hamong⟩ := eachReference_iff_children.mp hroots
      have hbelow := forall_has_of_among ht (fun c hc => ih c hc (hroot.child hc))
        (fun c hc => hroot.child hc) hdone hamong
      rcases Place.has_iff.mp hq with rfl | ⟨c, hc, hcq⟩
      · refine hstep q hroot (fun c hc => hbelow c hc c c.has_self) ?_
        intro r o hr ho hobject hpath
        have hcomplete : r.segments ∈ done := hself r hr
        exact hdone o ho hobject (hpath ▸ hcomplete)
      · exact hbelow c hc q hcq
  have hroots : ∀ root ∈ placesIn [] t.entries, t.Has root := fun root hroot =>
    Schema.has_iff.mpr ⟨root, hroot, root.has_self⟩
  have hnone : t.HoldsOf P [] := fun o _ _ hpath => nomatch hpath
  obtain ⟨root, hroot, hq⟩ := Schema.has_iff.mp hp
  exact forall_has_of_among ht (fun root hroot => htree root (hroots root hroot)) hroots hnone
    (eachReferenceIn_iff_among.mp hrefs) root hroot p hq

end

end ConfigForge
