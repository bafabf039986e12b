import ConfigForge.Proofs.Functions
import ConfigForge.Proofs.Visits
import ConfigForge.Proofs.WalkOrder

/-!
# The order of completion

A walk is over with a node after the nodes below it and after everything that is over before it is
reached. The nodes of a schema in this order are its postorder. What a node is built from, directly or
through a reference, stands before it in this order, and every type is declared at one place of it.

Results:

* `Precedes`: one element of a list stands before another, with its laws.
* `precedes_of_endsBefore`: positions tell which of two nodes stands first in the postorder.
* `Schema.Admissible.nodup_declaredTypes`: every type is declared once.
* `Schema.exists_precedes`: what a node below provides is the type of a node that stands before.
-/

namespace ConfigForge

/-! ## Elements in order -/

section

variable {α : Type} {l more : List α} {a b : α}

/-- Whether `a` stands somewhere before `b` in a list. -/
def Precedes (l : List α) (a b : α) : Prop :=
  ∃ front back, l = front ++ b :: back ∧ a ∈ front

namespace Precedes

theorem append_right (h : Precedes l a b) (more : List α) : Precedes (l ++ more) a b := by
  obtain ⟨front, back, rfl, ha⟩ := h
  exact ⟨front, back ++ more, by rw [List.append_assoc, List.cons_append], ha⟩

theorem append_left (h : Precedes l a b) (more : List α) : Precedes (more ++ l) a b := by
  obtain ⟨front, back, rfl, ha⟩ := h
  exact ⟨more ++ front, back, by rw [List.append_assoc], List.mem_append_right _ ha⟩

theorem of_mem (ha : a ∈ l) (hb : b ∈ more) : Precedes (l ++ more) a b := by
  obtain ⟨front, back, rfl⟩ := List.append_of_mem hb
  exact ⟨l ++ front, back, by rw [List.append_assoc], List.mem_append_left _ ha⟩

theorem filter {keep : α → Bool} (h : Precedes l a b) (ha : keep a = true) (hb : keep b = true) :
    Precedes (l.filter keep) a b := by
  obtain ⟨front, back, rfl, hfront⟩ := h
  refine ⟨front.filter keep, back.filter keep, ?_, List.mem_filter.mpr ⟨hfront, ha⟩⟩
  rw [List.filter_append, List.filter_cons_of_pos hb]

/-- In a list without repetitions there is one place to look. -/
theorem mem_front (h : Precedes l a b) (hnodup : l.Nodup) {front back : List α}
    (hsplit : l = front ++ b :: back) : a ∈ front := by
  obtain ⟨front', back', rfl, ha⟩ := h
  obtain ⟨-, hback, hdiff⟩ := List.nodup_append.mp hnodup
  have hfront : b ∉ front' := fun hb => hdiff b hb b List.mem_cons_self rfl
  obtain ⟨rfl, -⟩ :=
    (List.append_cons_inj_of_notMem hfront (List.nodup_cons.mp hback).1).mp hsplit
  exact ha

end Precedes

end

/-! ## Positions -/

/-- Whether the walk is over with the node at the first position before it is over with the node at
the second: it is so before it reaches the second, or it is so on its way through the second. -/
def EndsBefore (earlier position : List Nat) : Prop :=
  Before earlier position ∨ position <+: earlier ∧ position ≠ earlier

theorem endsBefore_cons_iff {i j : Nat} {earlier position : List Nat} :
    EndsBefore (i :: earlier) (j :: position) ↔ i < j ∨ i = j ∧ EndsBefore earlier position := by
  simp only [EndsBefore, Before, List.cons_prefix_cons, ne_eq, List.cons.injEq, not_and]
  constructor
  · rintro ((hlt | ⟨rfl, h⟩) | ⟨⟨rfl, hstart⟩, hne⟩)
    · exact .inl hlt
    · exact .inr ⟨rfl, .inl h⟩
    · exact .inr ⟨rfl, .inr ⟨hstart, hne rfl⟩⟩
  · rintro (hlt | ⟨rfl, h | ⟨hstart, hne⟩⟩)
    · exact .inl (.inl hlt)
    · exact .inl (.inr ⟨rfl, h⟩)
    · exact .inr ⟨⟨rfl, hstart⟩, fun _ => hne⟩

theorem not_nil_endsBefore {position : List Nat} : ¬ EndsBefore [] position := by
  rintro (h | ⟨hstart, hne⟩)
  · exact h.elim
  · exact hne (List.prefix_nil.mp hstart)

/-- What is over before a position below a node is reached is over before the node is. -/
theorem Before.endsBefore {earlier position below : List Nat}
    (h : Before earlier (position ++ below)) : EndsBefore earlier position := by
  induction position generalizing earlier with
  | nil =>
    refine .inr ⟨List.nil_prefix, ?_⟩
    rintro rfl
    cases below <;> exact h.elim
  | cons j position ih =>
    cases earlier with
    | nil => exact h.elim
    | cons i earlier => exact endsBefore_cons_iff.mpr (h.imp_right fun h => ⟨h.1, ih h.2⟩)

theorem endsBefore_append {position below : List Nat} (hbelow : below ≠ []) :
    EndsBefore (position ++ below) position :=
  .inr ⟨List.prefix_append _ _, fun heq => hbelow (List.self_eq_append_right.mp heq)⟩

/-! ## Postorder by children -/

/-- The nodes of a tree, each after the nodes below it. -/
def Place.postorder (p : Place) : List Place :=
  p.node.postorder p.around p.name

theorem postorderMembers_eq_flatMap (around : List String) (members : List (String × Node)) :
    postorderMembers around members = (placesIn around members).flatMap Place.postorder := by
  rw [postorderMembers_eq, placesIn, List.flatMap_map]
  rfl

theorem Place.postorder_eq (p : Place) :
    p.postorder = p.children.flatMap Place.postorder ++ [p] := by
  obtain ⟨around, name, node⟩ := p
  cases node with
  | scalar s => rfl
  | reference r => rfl
  | array item bounds =>
    rw [Place.children_array rfl, List.flatMap_singleton]
    rfl
  | object members =>
    rw [Place.children_object rfl, ← postorderMembers_eq_flatMap]
    rfl

theorem Place.mem_postorder_iff {p q : Place} : q ∈ p.postorder ↔ p.Has q :=
  Node.mem_postorder_iff

/-- **Positions and postorder.** A node that is over before another one stands before it in the
postorder. -/
theorem precedes_of_endsBefore {forest : List Place} {earlier position : List Nat} {p q : Place}
    (hp : placeAt? forest earlier = some p) (hq : placeAt? forest position = some q)
    (h : EndsBefore earlier position) : Precedes (forest.flatMap Place.postorder) p q := by
  -- Down the common part of the two positions, to the list of trees where they part.
  induction position generalizing forest earlier with
  | nil => cases hq
  | cons j position ih =>
    cases earlier with
    | nil => cases hp
    | cons i earlier =>
      obtain ⟨tree, htree, hbelow⟩ := Option.bind_eq_some_iff.mp hp
      obtain ⟨tree', htree', hbelow'⟩ := Option.bind_eq_some_iff.mp hq
      obtain ⟨front, back, rfl, rfl⟩ := exists_split htree'
      rw [List.flatMap_append, List.flatMap_cons]
      rcases endsBefore_cons_iff.mp h with hlt | ⟨rfl, hends⟩
      · rw [List.getElem?_append_left hlt] at htree
        refine Precedes.of_mem ?_ (List.mem_append_left _ (Place.mem_postorder_iff.mpr ⟨_, hbelow'⟩))
        exact List.mem_flatMap.mpr
          ⟨tree, List.mem_of_getElem? htree, Place.mem_postorder_iff.mpr ⟨_, hbelow⟩⟩
      · obtain rfl := Option.some.inj (htree.symm.trans htree')
        refine Precedes.append_left (Precedes.append_right ?_ _) _
        rw [Place.postorder_eq]
        cases earlier with
        | nil =>
          exact absurd hends not_nil_endsBefore
        | cons k earlier =>
          cases position with
          | nil =>
            obtain rfl := Option.some.inj hbelow'
            refine Precedes.of_mem ?_ (List.mem_singleton.mpr rfl)
            obtain ⟨c, hc, hhas⟩ := exists_placeAt?_iff.mp ⟨k :: earlier, hbelow⟩
            exact List.mem_flatMap.mpr ⟨c, hc, Place.mem_postorder_iff.mpr hhas⟩
          | cons k' position =>
            have hp' : placeAt? tree.children (k :: earlier) = some p := hbelow
            have hq' : placeAt? tree.children (k' :: position) = some q := hbelow'
            exact (ih hp' hq' hends).append_right _

theorem Schema.postorder_eq (s : Schema) :
    s.postorder = (placesIn [] s.entries).flatMap Place.postorder :=
  postorderMembers_eq_flatMap [] s.entries

/-! ## Types in the order of their declaration -/

/-- The nodes of a list that declare types: those that are no references. -/
def declaring (places : List Place) : List Place :=
  places.filter fun p => !p.node.isReference

/-- The types that the nodes of a list declare. -/
def declaredTypes (places : List Place) : List QualifiedName :=
  (declaring places).map Place.type

theorem mem_declaredTypes {places : List Place} {type : QualifiedName} :
    type ∈ declaredTypes places ↔
      ∃ p ∈ places, p.node.isReference = false ∧ p.type = type := by
  simp [declaredTypes, declaring, and_assoc]

theorem declaredTypes_singleton {p : Place} (h : p.node.isReference = false) :
    declaredTypes [p] = [p.type] := by
  simp [declaredTypes, declaring, h]

theorem declaredTypes_append (front back : List Place) :
    declaredTypes (front ++ back) = declaredTypes front ++ declaredTypes back := by
  rw [declaredTypes, declaring, List.filter_append, List.map_append]
  rfl

theorem declaredTypes_flatMap (places : List Place) (f : Place → List Place) :
    declaredTypes (places.flatMap f) = places.flatMap fun p => declaredTypes (f p) := by
  rw [declaredTypes, declaring, List.filter_flatMap, List.map_flatMap]
  rfl

/-- From the trees of a list to the list. -/
theorem nodup_declaredTypes_of_forall {around : List String} {members : List (String × Node)}
    (hnodup : (memberTypes members).Nodup)
    (htrees : ∀ p ∈ placesIn around members, (declaredTypes p.postorder).Nodup) :
    (declaredTypes ((placesIn around members).flatMap Place.postorder)).Nodup := by
  rw [declaredTypes_flatMap, List.nodup_flatMap]
  refine ⟨htrees, ?_⟩
  rw [placesIn, List.pairwise_map]
  refine (List.nodup_flatMap.mp hnodup).2.imp fun hdisjoint type htype htype' => ?_
  obtain ⟨q, hq, href, rfl⟩ := mem_declaredTypes.mp htype
  obtain ⟨q', hq', href', hsame⟩ := mem_declaredTypes.mp htype'
  -- Both classes lead through one type of the scope, which only one of the trees declares.
  obtain ⟨first, hfirst, hstart⟩ := (Place.mem_postorder_iff.mp hq).exists_classPath href
  obtain ⟨first', hfirst', hstart'⟩ := (Place.mem_postorder_iff.mp hq').exists_classPath href'
  rw [Place.classPath_eq_of_type_eq hsame] at hstart'
  obtain rfl := eq_of_isPrefix_append hstart hstart'
  exact hdisjoint hfirst hfirst'

theorem Place.TypesApart.nodup_declaredTypes {p : Place} (h : p.TypesApart) :
    (declaredTypes p.postorder).Nodup := by
  induction p using Place.induction with
  | step p ih =>
    rw [Place.postorder_eq, declaredTypes_append, List.nodup_append]
    refine ⟨?_, ?_, ?_⟩
    · have htrees : ∀ c ∈ p.children, (declaredTypes c.postorder).Nodup :=
        fun c hc => ih c hc (h.child hc)
      cases hnode : p.node with
      | scalar s => rw [Place.children, hnode]; exact List.nodup_nil
      | reference r => rw [Place.children, hnode]; exact List.nodup_nil
      | array item bounds =>
        rw [Place.children_array hnode] at htrees ⊢
        rw [List.flatMap_singleton]
        exact htrees _ (List.mem_singleton.mpr rfl)
      | object members =>
        rw [Place.children_object hnode] at htrees ⊢
        exact nodup_declaredTypes_of_forall (h.2 p members p.has_self hnode) htrees
    · cases href : p.node.isReference <;> simp [declaredTypes, declaring, href]
    · intro type htype type' htype' hsame
      obtain ⟨q, hq, href, rfl⟩ := mem_declaredTypes.mp htype
      obtain ⟨p', hp', -, rfl⟩ := mem_declaredTypes.mp htype'
      obtain rfl := List.mem_singleton.mp hp'
      obtain ⟨c, hc, hq⟩ := List.mem_flatMap.mp hq
      exact h.classPath_ne hc (Place.mem_postorder_iff.mp hq) href
        (Place.classPath_eq_of_type_eq hsame)

/-- **Each type once.** The nodes of an admissible schema declare different types. -/
theorem Schema.Admissible.nodup_declaredTypes {s : Schema} (hs : s.Admissible) :
    (declaredTypes s.postorder).Nodup := by
  rw [Schema.postorder_eq]
  exact nodup_declaredTypes_of_forall hs.memberTypes_nodup fun root hroot =>
    (hs.typesApart hroot).nodup_declaredTypes

/-! ## What a node needs stands before it -/

/-- **Providers come first.** The type that a node below another one provides, itself or through the
object it refers to, is declared by a node before the other one in the postorder. -/
theorem Schema.exists_precedes {t : Schema}
    (hrefs : EachReferenceIn Reference.IsSettled [] [] t.entries) {position below : List Nat}
    {p c : Place} (hp : t.at? position = some p) (hc : t.at? (position ++ below) = some c)
    (hbelow : below ≠ []) :
    ∃ o, t.Has o ∧ o.node.isReference = false ∧ o.type = c.provided ∧
      Precedes t.postorder o p := by
  rw [Schema.postorder_eq]
  by_cases href : c.node.isReference = true
  · obtain ⟨r, hr⟩ := Node.exists_of_isReference href
    rcases eachReferenceIn_iff.mp hrefs _ c r hc hr with hnone | ⟨earlier, o, ho, hobject, h, hpath⟩
    · cases hnone
    · have hnode := Node.isReference_of_isObject hobject
      refine ⟨o, ⟨earlier, ho⟩, hnode, ?_, precedes_of_endsBefore ho hp h.endsBefore⟩
      rw [Place.provided_eq_of_path hr hobject hpath, Place.provided_of_not_reference hnode]
  · rw [Bool.not_eq_true] at href
    exact ⟨c, ⟨_, hc⟩, href, (Place.provided_of_not_reference href).symm,
      precedes_of_endsBefore hc hp (endsBefore_append hbelow)⟩

end ConfigForge
