import ConfigForge.Output.Layout
import ConfigForge.Proofs.Run

/-!
# Admissible schemas

Which schemas give code can be told from the schema alone: from its nodes, their positions, and the
identifiers they declare. No state of a walk is involved.

Results:

* `Schema.Admissible.settled`: settling an admissible schema gives an admissible one.
* `generateUnits_ok_iff`: the units of a schema are those of its settled form, and they exist exactly
  if the schema is admissible.
* `exists_generateUnits_iff_admissible`: a schema gives code exactly if it is admissible.
-/

namespace ConfigForge

open Emit

/-- The conditions under which a schema gives code. -/
structure Schema.Admissible (s : Schema) : Prop where
  /-- Bounds and defaults are consistent. -/
  limits : s.check = .ok ()
  /-- Entries have identifiers for names, and none of them is a reference. -/
  entries : ∀ e ∈ s.entries, isIdentifier e.1 = true ∧ e.2.isReference = false
  /-- Members of objects have identifiers for names, and none of them is reserved. -/
  members : ∀ p members, s.Has p → p.node = .object members →
    ∀ m ∈ members, isIdentifier m.1 = true ∧ isReserved m.1 = false
  /-- Every reference, looked at inside some of the objects around it, is spelled like the path of
  an object that is over before the reference is reached. -/
  references : ∀ position p r, s.at? position = some p → p.node = .reference r →
    ∃ d ≤ p.around.length, ∃ earlier o, s.at? earlier = some o ∧ o.node.isObject = true ∧
      Before earlier position ∧ dotted (p.around.take d ++ [r.target]) = dotted o.path
  /-- The identifiers declared in the target namespace differ. -/
  outermost : s.identifiers.Nodup
  /-- The identifiers declared in a class differ from each other, from the members of every class,
  and from the names of the class and of the classes around it. -/
  classes : ∀ p members, s.Has p → p.node = .object members →
    (memberIdentifiers members).Nodup ∧
      ∀ x ∈ memberIdentifiers members, x ∉ classMemberNames ++ p.scope ++ [p.type.name]

theorem isMemberName_iff {name : String} :
    isMemberName name = true ↔ isIdentifier name = true ∧ isReserved name = false := by
  simp [isMemberName]

/-- In a schema the references that resolve are those that the objects before them answer. -/
theorem resolves_completeAt_iff {forest : List Place} {position : List Nat} {around : List String}
    {r : Reference} :
    r.Resolves (CompleteAt [] forest position) around ↔
      ∃ d ≤ around.length, ∃ earlier o, placeAt? forest earlier = some o ∧
        o.node.isObject = true ∧ Before earlier position ∧
        dotted (around.take d ++ [r.target]) = dotted o.path := by
  constructor
  · rintro ⟨d, hd, path, hpath | ⟨earlier, o, ho, hobject, hbefore, rfl⟩, hkey⟩
    · cases hpath
    · exact ⟨d, hd, earlier, o, ho, hobject, hbefore, hkey⟩
  · rintro ⟨d, hd, earlier, o, ho, hobject, hbefore, hkey⟩
    exact ⟨d, hd, o.path, .inr ⟨earlier, o, ho, hobject, hbefore, rfl⟩, hkey⟩

/-- Names that are apart in all trees of a schema are apart at all its places. -/
theorem forall_allNamesApart_iff {s : Schema} :
    (∀ p ∈ placesIn [] s.entries, p.AllNamesApart) ↔ ∀ p, s.Has p → p.NamesApart := by
  constructor
  · intro h p hp
    obtain ⟨tree, htree, hhas⟩ := Schema.has_iff.mp hp
    exact h tree htree p hhas
  · intro h tree htree p hhas
    exact h p (Schema.has_iff.mpr ⟨tree, htree, hhas⟩)

theorem admissible_iff {s : Schema} :
    s.Admissible ↔
      s.check = .ok () ∧ EachReferenceIn Reference.Resolves [] [] s.entries ∧
        (∀ e ∈ s.entries, isIdentifier e.1 = true ∧ e.2.isReference = false) ∧
        (∀ p ∈ placesIn [] s.entries, p.AllNamesApart) ∧ Scope.outermost.Free s.identifiers := by
  rw [forall_allNamesApart_iff, eachReferenceIn_iff]
  constructor
  · intro h
    refine ⟨h.limits, fun position p r hp hr => ?_, h.entries, fun p hp members hm => ?_,
      h.outermost, fun x _ hx => nomatch hx⟩
    · exact resolves_completeAt_iff.mpr (h.references position p r hp hr)
    · refine ⟨fun m hmem => isMemberName_iff.mpr (h.members p members hp hm m hmem), ?_⟩
      exact h.classes p members hp hm
  · rintro ⟨hlimits, hrefs, hentries, hapart, hfree⟩
    refine ⟨hlimits, hentries, fun p members hp hm m hmem => ?_,
      fun position p r hp hr => ?_, hfree.1, fun p members hp hm => ?_⟩
    · exact isMemberName_iff.mp ((hapart p hp members hm).1 m hmem)
    · exact resolves_completeAt_iff.mp (hrefs position p r hp hr)
    · exact (hapart p hp members hm).2

@[simp] theorem Schema.identifiers_settled (s : Schema) :
    s.settled.identifiers = s.identifiers := by
  obtain ⟨entries⟩ := s
  change (settleMembers [] [] entries).flatMap _ = entries.flatMap _
  generalize ([] : List (List String)) = done
  induction entries generalizing done with
  | nil => rfl
  | cons entry rest ih =>
    rw [settleMembers, List.flatMap_cons, List.flatMap_cons, ih, Node.identifiers_settle]

/-- The settled form of an admissible schema is admissible, and its references are settled. -/
theorem Schema.Admissible.settled {s : Schema} (h : s.Admissible) :
    s.settled.Admissible ∧ EachReferenceIn Reference.IsSettled [] [] s.settled.entries := by
  obtain ⟨hlimits, hrefs, hentries, hapart, hfree⟩ := admissible_iff.mp h
  have hsettled : EachReferenceIn Reference.IsSettled [] [] s.settled.entries :=
    EachReferenceIn.settle (fun _ _ _ hr => hr.isSettled_settle) [] [] s.entries hrefs
  refine ⟨admissible_iff.mpr ⟨?_, ?_, fun e he => ?_, ?_, ?_⟩, hsettled⟩
  · rw [← hlimits]
    exact Node.checkMembers_settleMembers [] [] [] s.entries
  · exact EachReferenceIn.imp (fun _ _ _ hr => hr.resolves) [] [] _ hsettled
  · obtain ⟨before, node, hmem, hnode⟩ := mem_settleMembers he
    have hentry := hentries (e.1, node) hmem
    rw [hnode, Node.isReference_settle]
    exact hentry
  · exact allNamesApart_settleMembers [] [] s.entries hapart
  · rw [Schema.identifiers_settled]
    exact hfree

/-- The units of a schema exist exactly if it is admissible, and they are those of its settled
form. -/
theorem generateUnits_ok_iff {target : Target} {s : Schema} {units : Entries CodeUnit} :
    generateUnits target s = .ok units ↔
      s.Admissible ∧ units = s.settled.entries.map (unitOf target) := by
  rw [admissible_iff, generateUnits, Except.bind_eq_ok_iff]
  simp only [Except.bind_eq_ok_iff]
  have hstart : Context.initial = .moment [] [] [] [.outermost] := rfl
  rw [hstart]
  constructor
  · rintro ⟨⟨⟩, hcheck, ⟨out, ctx⟩, hwalk, ⟨⟩, hfinish, hresult⟩
    obtain ⟨⟨hrefs, hentries, hapart, hfree⟩, rfl, rfl⟩ := (walkEntries_ok_iff target _).mp hwalk
    obtain rfl := Except.ok.inj hresult
    refine ⟨⟨?_, hrefs, hentries, hapart, hfree⟩, rfl⟩
    cases hlimits : s.check with
    | ok u => rfl
    | error e => rw [hlimits] at hcheck; cases hcheck
  · rintro ⟨⟨hlimits, hrefs, hentries, hapart, hfree⟩, rfl⟩
    refine ⟨(), by rw [hlimits]; rfl, ⟨_, _⟩,
      (walkEntries_ok_iff target _).mpr ⟨⟨hrefs, hentries, hapart, hfree⟩, rfl, rfl⟩, (), rfl, rfl⟩

/-- **When a schema gives code.** For every target, generation succeeds exactly on the admissible
schemas. -/
theorem exists_generateUnits_iff_admissible (target : Target) (s : Schema) :
    (∃ units, generateUnits target s = .ok units) ↔ s.Admissible := by
  constructor
  · rintro ⟨units, h⟩
    exact (generateUnits_ok_iff.mp h).1
  · intro h
    exact ⟨_, generateUnits_ok_iff.mpr ⟨h, rfl⟩⟩

end ConfigForge
