import ConfigForge.Cpp.Name
import ConfigForge.Entries
import ConfigForge.Schema.Node

/-!
# References to objects

An object can be referred to once its class is complete. The table of complete objects is keyed by
the dotted names that lead to them. A reference is looked up from the inside out: as a path inside
the innermost object around it, then inside the next one, and last from the root of the schema.
-/

namespace ConfigForge

/-- The complete objects by the dotted names that lead to them. -/
structure ReferenceTable where
  objects : Entries QualifiedName
deriving DecidableEq, Repr

namespace ReferenceTable

/-- No object is complete. -/
def empty : ReferenceTable :=
  ⟨[]⟩

/-- The number of complete objects. -/
def size (t : ReferenceTable) : Nat :=
  t.objects.length

/-- The table with the object at `path` complete. -/
def register (t : ReferenceTable) (path : String) (name : QualifiedName) : ReferenceTable :=
  ⟨t.objects.put path name⟩

/-- The dotted names of `target` inside the object at `around`. -/
def pathInside (around : List String) (target : String) : String :=
  match around with
  | [] => target
  | _ => Text.joinWith "." around ++ "." ++ target

/-- The first object that is found when `target` is looked up inside the first `depth` of the
objects around it, then inside one less, down to the root. -/
def resolveFrom? (t : ReferenceTable) (enclosing : List String) (target : String) :
    Nat → Option QualifiedName
  | 0 => t.objects.get? target
  | depth + 1 =>
    match t.objects.get? (pathInside (enclosing.take (depth + 1)) target) with
    | some name => some name
    | none => resolveFrom? t enclosing target depth

/-- The object that a reference means inside the objects `enclosing`, outermost first
(`resolve`). -/
def resolve? (t : ReferenceTable) (enclosing : List String) (r : Reference) :
    Option QualifiedName :=
  t.resolveFrom? enclosing r.target enclosing.length

end ReferenceTable

end ConfigForge
