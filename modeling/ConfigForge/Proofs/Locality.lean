import ConfigForge.Proofs.Spelling
import ConfigForge.Proofs.WalkOrder

/-!
# Locality

When the walk comes to an entry, it knows the objects of all entries before. Two schemas with an
entry in common may so come to it with different objects complete. None of these lies inside the
entry, and a reference that finds nothing inside the entry means the object that it spells in full,
in both schemas. So the entry is settled alike and gives the same code.

Results:

* `meant?_congr`: what a reference means depends on the objects inside those around it.
* `Place.settle_eq_of_alike`: what the settled form of a tree depends on.
* `entry_code_same`: an entry gives the same code in all schemas that give code.
-/

namespace ConfigForge

open Emit (Target)

/-! ## References -/

/-- A reference means the same among two lists of objects, if it means something in both and the
lists agree on the objects inside those around it. -/
theorem meant?_congr {done done' : List (List String)} {around : List String} {r : Reference}
    (hdone : Spelled done) (hdone' : Spelled done') (haround : DotFree around)
    (hagree : ∀ d, 0 < d → d ≤ around.length →
      (around.take d ++ r.names ∈ done ↔ around.take d ++ r.names ∈ done'))
    (h : r.Resolves (· ∈ done) around) (h' : r.Resolves (· ∈ done') around) :
    r.meant? done around = r.meant? done' around := by
  obtain ⟨path, hpath⟩ := Option.isSome_iff_exists.mp (meant?_isSome_iff.mpr h)
  obtain ⟨path', hpath'⟩ := Option.isSome_iff_exists.mp (meant?_isSome_iff.mpr h')
  rw [hpath, hpath']
  obtain ⟨d, hd, rfl, hmem, hinner⟩ := (meant?_eq_some_iff hdone haround).mp hpath
  obtain ⟨d', hd', rfl, hmem', hinner'⟩ := (meant?_eq_some_iff hdone' haround).mp hpath'
  -- The deeper of the two would be inside an object around, where the lists agree.
  have hnot : ¬ d < d' := by
    intro hlt
    exact hinner d' hlt hd' ((hagree d' (by omega) hd').mpr hmem')
  have hnot' : ¬ d' < d := by
    intro hlt
    exact hinner' d hlt hd ((hagree d (by omega) hd).mp hmem)
  obtain rfl : d = d' := by omega
  rfl

/-! ## Trees -/

/-- Whether two lists of objects agree on the objects inside those of the given types. -/
structure Alike (types : List String) (done done' : List (List String)) : Prop where
  spelled : Spelled done
  spelled' : Spelled done'
  agree : ∀ first rest, typeName first ∈ types → (first :: rest ∈ done ↔ first :: rest ∈ done')

theorem Alike.append {types : List String} {done done' more : List (List String)}
    (h : Alike types done done') (hmore : Spelled more) :
    Alike types (done ++ more) (done' ++ more) := by
  refine ⟨?_, ?_, fun first rest hfirst => ?_⟩
  · intro path hpath
    exact (List.mem_append.mp hpath).elim (h.spelled path) (hmore path)
  · intro path hpath
    exact (List.mem_append.mp hpath).elim (h.spelled' path) (hmore path)
  · rw [List.mem_append, List.mem_append, h.agree first rest hfirst]

namespace Place

/-- Whether a node stands inside an object of the given types, or declares only such types itself. -/
def Under (types : List String) (p : Place) : Prop :=
  match p.around with
  | [] => ∀ type ∈ p.node.types p.name, type ∈ types
  | first :: _ => typeName first ∈ types

theorem Under.child {types : List String} {p c : Place} (h : p.Under types) (hc : c ∈ p.children) :
    c.Under types := by
  obtain ⟨around, name, node⟩ := p
  cases node with
  | scalar s => simp [children] at hc
  | reference r => simp [children] at hc
  | array item bounds =>
    rw [children_array rfl, List.mem_singleton] at hc
    subst hc
    cases around with
    | nil => exact fun type htype => h type (List.mem_cons_of_mem _ htype)
    | cons first rest => exact h
  | object members =>
    rw [children_object rfl] at hc
    obtain ⟨m, -, rfl⟩ := mem_placesIn.mp hc
    cases around with
    | nil => exact h (typeName name) List.mem_cons_self
    | cons first rest => exact h

theorem spelled_completed {p : Place} (h : ∀ q, p.Has q → DotFree q.path) : Spelled p.completed := by
  intro path hpath
  obtain ⟨q, hq, -, rfl⟩ := mem_completed_iff.mp hpath
  exact ⟨q.path_ne_nil, h q hq⟩

end Place

/-- From the nodes of a list to the list: every node adds the same objects to both. -/
theorem settleMembers_congr {types : List String} {around : List String}
    {members : List (String × Node)} {done done' : List (List String)}
    (hnode : ∀ m ∈ members, ∀ done done', Alike types done done' →
      m.2.EachReference Reference.Resolves done around m.1 →
      m.2.EachReference Reference.Resolves done' around m.1 →
        m.2.settle done around m.1 = m.2.settle done' around m.1)
    (hspelled : ∀ m ∈ members, Spelled (m.2.completed around m.1)) (halike : Alike types done done')
    (hrefs : EachReferenceIn Reference.Resolves done around members)
    (hrefs' : EachReferenceIn Reference.Resolves done' around members) :
    settleMembers done around members = settleMembers done' around members := by
  induction members generalizing done done' with
  | nil => rfl
  | cons m members ih =>
    have hfirst := hnode m List.mem_cons_self done done' halike hrefs.1 hrefs'.1
    have halike' := halike.append (hspelled m List.mem_cons_self)
    have hrest := ih (fun m hm => hnode m (List.mem_cons_of_mem _ hm))
      (fun m hm => hspelled m (List.mem_cons_of_mem _ hm)) halike' hrefs.2 hrefs'.2
    rw [settleMembers, settleMembers, hfirst, hrest]

/-- The settled form of a tree depends on the objects inside the types that the tree stands in or
declares, and on no others. -/
theorem Place.settle_eq_of_alike {types : List String} (p : Place) (hunder : p.Under types)
    (hdots : ∀ q, p.Has q → DotFree q.path) {done done' : List (List String)}
    (halike : Alike types done done')
    (hrefs : p.node.EachReference Reference.Resolves done p.around p.name)
    (hrefs' : p.node.EachReference Reference.Resolves done' p.around p.name) :
    p.node.settle done p.around p.name = p.node.settle done' p.around p.name := by
  induction p using Place.induction generalizing done done' with
  | step p ih =>
    have hbelow : ∀ c ∈ p.children, c.Under types ∧ ∀ q, c.Has q → DotFree q.path := fun c hc =>
      ⟨hunder.child hc, fun q hq => hdots q (has_of_child hc hq)⟩
    obtain ⟨around, name, node⟩ := p
    cases node with
    | scalar s => rfl
    | reference r =>
      have haround : DotFree around := fun n hn =>
        hdots _ (has_self _) n (List.mem_append_left _ hn)
      have hmeant : r.meant? done around = r.meant? done' around := by
        refine meant?_congr halike.spelled halike.spelled' haround ?_ hrefs hrefs'
        intro d hpos hd
        cases around with
        | nil => exact absurd hd (by simp; omega)
        | cons first rest =>
          obtain ⟨d, rfl⟩ := Nat.exists_eq_succ_of_ne_zero (Nat.ne_of_gt hpos)
          exact halike.agree first _ hunder
      rw [Node.settle, Node.settle, Reference.settle, Reference.settle, hmeant]
    | array item bounds =>
      have hc : (⟨around, itemName name, item⟩ : Place) ∈
          (⟨around, name, .array item bounds⟩ : Place).children := List.mem_singleton.mpr rfl
      have hitem := ih _ hc (hbelow _ hc).1 (hbelow _ hc).2 halike hrefs hrefs'
      rw [Node.settle, Node.settle, hitem]
    | object members =>
      have hchild : ∀ m ∈ members, (⟨around ++ [name], m.1, m.2⟩ : Place) ∈
          (⟨around, name, .object members⟩ : Place).children := fun m hm =>
        mem_placesIn.mpr ⟨m, hm, rfl⟩
      have hmembers : settleMembers done (around ++ [name]) members =
          settleMembers done' (around ++ [name]) members := by
        refine settleMembers_congr (fun m hm done done' halike hrefs hrefs' => ?_) (fun m hm => ?_)
          halike hrefs hrefs'
        · have hc := hchild m hm
          exact ih _ hc (hbelow _ hc).1 (hbelow _ hc).2 halike hrefs hrefs'
        · exact spelled_completed (hbelow _ (hchild m hm)).2
      rw [Node.settle, Node.settle, hmembers]

/-! ## Entries -/

theorem Entries.get?_of_mem {α : Type} {entries : Entries α} (hnodup : entries.names.Nodup)
    {name : String} {value : α} (h : (name, value) ∈ entries) : entries.get? name = some value := by
  induction entries with
  | nil => cases h
  | cons first rest ih =>
    obtain ⟨key, old⟩ := first
    obtain ⟨hnew, hrest⟩ := List.nodup_cons.mp hnodup
    rw [Entries.get?]
    rcases List.mem_cons.mp h with heq | hmem
    · obtain ⟨rfl, rfl⟩ := Prod.mk.inj heq
      exact if_pos rfl
    · have hne : key ≠ name := by
        rintro rfl
        exact hnew (List.mem_map.mpr ⟨_, hmem, rfl⟩)
      rw [if_neg hne]
      exact ih hrest hmem

theorem names_settleMembers (done : List (List String)) (around : List String)
    (members : List (String × Node)) :
    Entries.names (settleMembers done around members) = Entries.names members := by
  induction members generalizing done with
  | nil => rfl
  | cons m members ih =>
    rw [settleMembers]
    exact congrArg (m.1 :: ·) (ih _)

/-- Every entry has a name of its own. -/
theorem Schema.Admissible.names_nodup {s : Schema} (hs : s.Admissible) :
    (Entries.names s.entries).Nodup := by
  have hnodup : (memberTypes s.entries).Nodup := hs.outermost.sublist s.types_sublist
  have hdisjoint := (List.nodup_flatMap.mp hnodup).2
  refine List.pairwise_map.mpr (hdisjoint.imp_of_mem fun {e e'} he he' hdisjoint heq => ?_)
  have htype : typeName e.1 ∈ e.2.types e.1 := Node.own_type_mem_types (hs.entries e he).2
  have htype' : typeName e'.1 ∈ e'.2.types e'.1 := Node.own_type_mem_types (hs.entries e' he').2
  exact hdisjoint htype (heq ▸ htype')

/-- The code of an entry is that of its settled form among the objects of the entries before it. -/
theorem exists_unit {target : Target} {s : Schema} {units : Entries CodeUnit}
    (h : generateUnits target s = .ok units) {name : String} {node : Node}
    (he : (name, node) ∈ s.entries) :
    ∃ front back, s.entries = front ++ (name, node) :: back ∧
      node.EachReference Reference.Resolves (completedMembers [] front) [] name ∧
      units.get? name =
        some (unitOf target (name, node.settle (completedMembers [] front) [] name)).2 := by
  obtain ⟨hs, rfl⟩ := generateUnits_ok_iff.mp h
  obtain ⟨front, back, hsplit⟩ := List.append_of_mem he
  obtain ⟨-, hrefs, -⟩ := admissible_iff.mp hs
  rw [hsplit, eachReferenceIn_append] at hrefs
  refine ⟨front, back, hsplit, hrefs.2.1, ?_⟩
  have hnames : Entries.names (s.settled.entries.map (unitOf target)) =
      Entries.names s.entries := by
    rw [← names_settleMembers [] [] s.entries, Entries.names, Entries.names, List.map_map]
    rfl
  refine Entries.get?_of_mem (hnames ▸ hs.names_nodup) (List.mem_map.mpr ⟨(name, _), ?_, rfl⟩)
  rw [Schema.settled, hsplit, settleMembers_append]
  exact List.mem_append_right _ List.mem_cons_self

/-- No entry before another one has objects inside the types of that one. -/
theorem Schema.Admissible.not_mem_completed_front {s : Schema} (hs : s.Admissible)
    {front back : List (String × Node)} {e : String × Node} (hsplit : s.entries = front ++ e :: back)
    {first : String} {rest : List String} (htype : typeName first ∈ e.2.types e.1) :
    first :: rest ∉ completedMembers [] front := by
  intro hmem
  rw [completedMembers_eq, List.mem_flatMap] at hmem
  obtain ⟨root, hroot, hmem⟩ := hmem
  obtain ⟨m, hm, rfl⟩ := mem_placesIn.mp hroot
  obtain ⟨first', rest', hpath, htype'⟩ := Node.exists_of_mem_completed hmem
  obtain ⟨rfl, -⟩ := List.cons.inj hpath
  have hnodup : (memberTypes s.entries).Nodup := hs.outermost.sublist s.types_sublist
  rw [hsplit, memberTypes, List.flatMap_append, List.nodup_append] at hnodup
  have hfront : typeName first ∈ front.flatMap fun m => m.2.types m.1 :=
    List.mem_flatMap.mpr ⟨m, hm, htype'⟩
  have hback : typeName first ∈ (e :: back).flatMap fun m => m.2.types m.1 :=
    List.mem_flatMap.mpr ⟨e, List.mem_cons_self, htype⟩
  exact hnodup.2.2 _ hfront _ hback rfl

theorem Schema.Admissible.spelled_completed {s : Schema} (hs : s.Admissible)
    {front back : List (String × Node)} (hsplit : s.entries = front ++ back) :
    Spelled (completedMembers [] front) := by
  intro path hpath
  rw [completedMembers_eq, List.mem_flatMap] at hpath
  obtain ⟨root, hroot, hpath⟩ := hpath
  obtain ⟨m, hm, rfl⟩ := mem_placesIn.mp hroot
  have hmem : m ∈ s.entries := hsplit ▸ List.mem_append_left _ hm
  refine Place.spelled_completed (fun q hq => ?_) path hpath
  exact hs.dotFree_path (Schema.has_iff.mpr ⟨_, mem_placesIn.mpr ⟨m, hmem, rfl⟩, hq⟩)

/-- **Locality.** An entry that two schemas have in common gives the same code in both, if both give
code, whatever their other entries are and in whatever order they stand. -/
theorem entry_code_same {target : Target} {s s' : Schema} {units units' : Entries CodeUnit}
    {name : String} {node : Node} (h : generateUnits target s = .ok units)
    (h' : generateUnits target s' = .ok units') (he : (name, node) ∈ s.entries)
    (he' : (name, node) ∈ s'.entries) :
    ∃ unit, units.get? name = some unit ∧ units'.get? name = some unit := by
  obtain ⟨hs, -⟩ := generateUnits_ok_iff.mp h
  obtain ⟨hs', -⟩ := generateUnits_ok_iff.mp h'
  obtain ⟨front, back, hsplit, hrefs, hunit⟩ := exists_unit h he
  obtain ⟨front', back', hsplit', hrefs', hunit'⟩ := exists_unit h' he'
  have halike : Alike (node.types name) (completedMembers [] front) (completedMembers [] front') := by
    refine ⟨hs.spelled_completed hsplit, hs'.spelled_completed hsplit', fun first rest hfirst => ?_⟩
    exact iff_of_false (hs.not_mem_completed_front hsplit hfirst)
      (hs'.not_mem_completed_front hsplit' hfirst)
  have hunder : (⟨[], name, node⟩ : Place).Under (node.types name) := fun type htype => htype
  have hdots : ∀ q, (⟨[], name, node⟩ : Place).Has q → DotFree q.path := fun q hq =>
    hs.dotFree_path (Schema.has_iff.mpr ⟨_, mem_placesIn.mpr ⟨_, he, rfl⟩, hq⟩)
  have hsettle := Place.settle_eq_of_alike _ hunder hdots halike hrefs hrefs'
  refine ⟨_, hunit, ?_⟩
  rw [hunit']
  exact congrArg (fun settled => some (unitOf target (name, settled)).2) hsettle.symm

/-- A schema with the entries of another one in which a further entry with a `point` of its own comes
first. -/
def crowdedExample : Schema :=
  ⟨("shape", .object [("point", .object [("y", .scalar (.bool none))])]) :: nestedExample.entries⟩

theorem crowdedExample_path_same :
    ∃ units units' unit, generateUnits Options.default.target nestedExample = .ok units ∧
      generateUnits Options.default.target crowdedExample = .ok units' ∧
      units.get? "path" = some unit ∧ units'.get? "path" = some unit := by
  obtain ⟨units, h⟩ := Schema.generates_of_toBool
    (show (generateUnits Options.default.target nestedExample).toBool = true by decide)
  obtain ⟨units', h'⟩ := Schema.generates_of_toBool
    (show (generateUnits Options.default.target crowdedExample).toBool = true by decide)
  have he := List.mem_cons_of_mem (("point", .object [("x", .scalar (.bool none))]) : String × Node)
    (List.mem_singleton_self ("path", Node.object [("start", .reference ⟨["point"]⟩),
      ("steps", .array (.object [("to", .reference ⟨["point"]⟩)]) ⟨none, none⟩)]))
  obtain ⟨unit, hunit, hunit'⟩ := entry_code_same h h' he (List.mem_cons_of_mem _ he)
  exact ⟨units, units', unit, h, h', hunit, hunit'⟩

end ConfigForge
