import ConfigForge.Proofs.Balance
import ConfigForge.Proofs.LegalNames
import ConfigForge.Proofs.Visits
import Mathlib.Logic.Function.Iterate

/-!
# Laws of type names

A type name is read off a member name piece by piece. An underscore between two names only separates
pieces, so the type name of both together is made of the two type names. A type name has no underscore
and starts in upper case, so it is its own type name.

The item of an array goes by the name of the array with `_element` behind it. Its type therefore has
the name of the array's type with `Element` behind it, and arrays of arrays repeat this at every level.

Results:

* `typeName_typeName`: a type name is its own type name.
* `typeName_iterate_itemName`: the type name of an item any number of arrays down.
* `walkNode_arraysOf`: what the walk of arrays in arrays does with the innermost item.
* `typeName_laws`: the laws of type names, and the types of items in nested arrays.
-/

namespace ConfigForge

open Emit

/-! ## Type names of type names -/

theorem underscore_not_mem_typeName {name : String} (h : isIdentifier name = true) :
    '_' ∉ (typeName name).toList := by
  intro hmem
  have halphanum := typeName_isAlphanum h hmem
  revert halphanum
  decide

/-- Upper case is kept by upper case. -/
theorem upper_toUpper {c : Char} (h : c.isAlphanum = true) : Text.upper c.toUpper = [c.toUpper] := by
  have hupper := isAlphanum_toUpper h
  have htwice : c.toUpper.toUpper = c.toUpper :=
    ascii_forall (P := fun c => c.toUpper.toUpper = c.toUpper) (by decide) (isAlphanum_toNat_lt h)
  rw [Text.upper_of_isAscii _ (isAlphanum_toNat_lt hupper), htwice]

/-- **A type name is its own type name.** It is one piece, which starts in upper case. -/
theorem typeName_typeName {name : String} (h : isIdentifier name = true) :
    typeName (typeName name) = typeName name := by
  obtain ⟨c, rest, -, halphanum, hchars⟩ := exists_typeName_eq h
  rw [← String.toList_inj, toList_typeName fun d hd => typeName_isWordChar h hd,
    Text.split_of_not_mem (underscore_not_mem_typeName h), List.flatMap_singleton, hchars, capitalize,
    upper_toUpper halphanum, List.singleton_append]

/-! ## Items of arrays -/

theorem typeName_itemName {name : String} (h : isIdentifier name = true) :
    typeName (itemName name) = typeName name ++ "Element" := by
  have hitem : itemName name = name ++ "_" ++ "element" := by
    rw [itemName, String.append_assoc]
    rfl
  have helement : typeName "element" = "Element" := by decide
  have hword : ∀ c ∈ "element".toList, isWordChar c = true := List.all_eq_true.mp (by decide)
  rw [hitem, typeName_append (fun c hc => all_isWordChar_of_isIdentifier h hc) hword, helement]

theorem isIdentifier_iterate_itemName {name : String} (h : isIdentifier name = true) (k : Nat) :
    isIdentifier (itemName^[k] name) = true := by
  induction k with
  | zero => exact h
  | succ k ih =>
    rw [Function.iterate_succ_apply']
    exact isIdentifier_itemName ih

/-- The type of an item any number of arrays down. -/
theorem typeName_iterate_itemName {name : String} (h : isIdentifier name = true) (k : Nat) :
    typeName (itemName^[k] name) = typeName name ++ String.join (List.replicate k "Element") := by
  induction k with
  | zero => exact (String.append_empty).symm
  | succ k ih =>
    rw [Function.iterate_succ_apply', typeName_itemName (isIdentifier_iterate_itemName h k), ih,
      List.replicate_succ', String.join_append, String.append_assoc]
    simp

/-! ## Arrays in arrays -/

/-- Arrays in arrays, the bounds of the outermost first, around an innermost item. -/
def arraysOf : List ItemBounds → Node → Node
  | [], inner => inner
  | b :: bounds, inner => .array (arraysOf bounds inner) b

/-- What is no reference is given the type that is named after it. -/
theorem walkNode_name {target : Target} {node : Node} {ctx ctx' : Context} {name : String}
    {emitted : EmittedType} (href : node.isReference = false)
    (h : walkNode target ctx name node = .ok (emitted, ctx')) :
    emitted.name = ctx.path.qualify name := by
  cases node with
  | reference r => cases href
  | scalar s =>
    obtain ⟨declared, -, h⟩ := Except.bind_eq_ok_iff.mp h
    obtain ⟨rfl, -⟩ := Prod.mk.inj (Except.ok.inj h)
    rfl
  | object members =>
    obtain ⟨declared, -, h⟩ := Except.bind_eq_ok_iff.mp h
    obtain ⟨⟨out, inside⟩, -, h⟩ := Except.bind_eq_ok_iff.mp h
    obtain ⟨left, -, h⟩ := Except.bind_eq_ok_iff.mp h
    obtain ⟨rfl, -⟩ := Prod.mk.inj (Except.ok.inj h)
    rfl
  | array item bounds =>
    obtain ⟨declared, -, h⟩ := Except.bind_eq_ok_iff.mp h
    obtain ⟨⟨out, inside⟩, -, h⟩ := Except.bind_eq_ok_iff.mp h
    obtain ⟨⟨found, left⟩, -, h⟩ := Except.bind_eq_ok_iff.mp h
    obtain ⟨rfl, -⟩ := Prod.mk.inj (Except.ok.inj h)
    rfl

/-- The walk of an array walks its item, in the context at its only child, among the same objects. -/
theorem walkNode_item {target : Target} {item : Node} {bounds : ItemBounds} {ctx : Context}
    {name : String} {result : EmittedType × Context}
    (h : walkNode target ctx name (.array item bounds) = .ok result) :
    ∃ inside walked, contextBelow? target ctx name 0 (.array item bounds) = some inside ∧
      inside.path = ctx.path ∧ walkNode target inside (itemName name) item = .ok walked := by
  obtain ⟨declared, hdeclare, h⟩ := Except.bind_eq_ok_iff.mp h
  obtain ⟨walked, hitem, -⟩ := Except.bind_eq_ok_iff.mp h
  refine ⟨declared.enterArray bounds, walked, ?_, (Context.declareAll_grows hdeclare).path, hitem⟩
  rw [contextBelow?, hdeclare]
  rfl

/-- **Arrays in arrays.** The walk of arrays in arrays walks the innermost item under the name that
`_element` is added to once for every array, in the context at its position. -/
theorem walkNode_arraysOf {target : Target} {inner : Node} (around : List String)
    (bounds : List ItemBounds) {ctx : Context} {name : String} {result : EmittedType × Context}
    (h : walkNode target ctx name (arraysOf bounds inner) = .ok result) :
    ∃ inside walked, (⟨around, name, arraysOf bounds inner⟩ : Place).contextAt? target ctx
        (List.replicate bounds.length 0) = some inside ∧ inside.path = ctx.path ∧
      walkNode target inside (itemName^[bounds.length] name) inner = .ok walked := by
  induction bounds generalizing ctx name result with
  | nil => exact ⟨ctx, result, rfl, rfl, h⟩
  | cons b bounds ih =>
    obtain ⟨below, walked, hbelow, hpath, hitem⟩ := walkNode_item h
    obtain ⟨inside, innermost, hcontext, hpath', hinner⟩ := ih hitem
    refine ⟨inside, innermost, ?_, hpath'.trans hpath, hinner⟩
    rw [arraysOf, List.length_cons, List.replicate_succ, Place.contextAt?, hbelow,
      Place.children_array rfl]
    exact hcontext

/-- **Laws of type names.** The type name of an identifier is not empty, has no underscore, and is its
own type name. Two identifiers with an underscore between them have the type names one after the other.
So where an array is nested any number of levels deep, the walk gives the item at that level, unless it
is a reference, the type name of the array with as many times `Element` behind it. -/
theorem typeName_laws {a b : String} (ha : isIdentifier a = true) (hb : isIdentifier b = true) :
    typeName a ≠ "" ∧ '_' ∉ (typeName a).toList ∧ typeName (typeName a) = typeName a ∧
    typeName (a ++ "_" ++ b) = typeName a ++ typeName b ∧
    ∀ (target : Target) (ctx : Context) (bounds : List ItemBounds) (inner : Node) result,
      inner.isReference = false → walkNode target ctx a (arraysOf bounds inner) = .ok result →
        ∃ inside emitted after,
          (⟨ctx.path.names, a, arraysOf bounds inner⟩ : Place).contextAt? target ctx
            (List.replicate bounds.length 0) = some inside ∧
          walkNode target inside (itemName^[bounds.length] a) inner = .ok (emitted, after) ∧
          emitted.name = ⟨ctx.path.classNames,
            typeName a ++ String.join (List.replicate bounds.length "Element")⟩ := by
  refine ⟨typeName_ne_empty ha, underscore_not_mem_typeName ha, typeName_typeName ha,
    typeName_append (fun c hc => all_isWordChar_of_isIdentifier ha hc)
      (fun c hc => all_isWordChar_of_isIdentifier hb hc), fun target ctx bounds inner result href h => ?_⟩
  obtain ⟨inside, ⟨emitted, after⟩, hcontext, hpath, hinner⟩ :=
    walkNode_arraysOf ctx.path.names bounds h
  refine ⟨inside, emitted, after, hcontext, hinner, ?_⟩
  rw [walkNode_name href hinner, hpath, NamePath.qualify, typeName_iterate_itemName ha]

/-- In a matrix of rows of flags, the flags are called `MatrixElementElement`. -/
theorem matrix_items_named :
    isIdentifier "matrix" = true ∧ isIdentifier "row_1" = true ∧
    typeName ("matrix" ++ "_" ++ "row_1") = typeName "matrix" ++ typeName "row_1" ∧
    ∃ inside emitted after,
      walkNode Options.default.target inside "matrix_element_element" (.scalar (.bool none)) =
        .ok (emitted, after) ∧
      emitted.name = ⟨[], "MatrixElementElement"⟩ := by
  have hok : (walkNode Options.default.target .initial "matrix"
      (arraysOf [⟨none, none⟩, ⟨some 2, none⟩] (.scalar (.bool none)))).toBool = true := by decide
  have hmatrix : isIdentifier "matrix" = true := by decide
  have hrow : isIdentifier "row_1" = true := by decide
  obtain ⟨-, -, -, hboth, harrays⟩ := typeName_laws hmatrix hrow
  refine ⟨hmatrix, hrow, hboth, ?_⟩
  cases hwalk : walkNode Options.default.target .initial "matrix"
      (arraysOf [⟨none, none⟩, ⟨some 2, none⟩] (.scalar (.bool none))) with
  | error e => rw [hwalk] at hok; cases hok
  | ok result =>
    obtain ⟨inside, emitted, after, -, hinner, hname⟩ := harrays _ _ _ _ _ rfl hwalk
    have htype : typeName "matrix" = "Matrix" := by decide
    refine ⟨inside, emitted, after, hinner, ?_⟩
    rw [hname, htype]
    decide

end ConfigForge
