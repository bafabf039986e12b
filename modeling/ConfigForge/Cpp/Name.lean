import ConfigForge.Naming

/-!
# Qualified names

A type is declared in the target namespace or inside classes. Its qualified name holds the names of
those classes, outermost first, and its own name. While a schema is walked, the name path holds the
names, as written, of the objects around the current node.

Results:

* `pop?_push`: the name entered last is the one that is left.
-/

namespace ConfigForge

/-- The name of a type with the classes around it. -/
structure QualifiedName where
  scope : List String
  name : String
deriving DecidableEq, Repr

/-- Class names with a `::` after each of them. -/
def qualification : List String → String
  | [] => ""
  | c :: rest => c ++ "::" ++ qualification rest

namespace QualifiedName

/-- What stands before the name of a type or of a helper, seen from the target namespace
(`scope_prefix`). -/
def scopeText (q : QualifiedName) : String :=
  qualification q.scope

/-- The type as seen from the target namespace (`type_path`). -/
def typePath (q : QualifiedName) : String :=
  q.scopeText ++ q.name

/-- The type as seen from anywhere; `namespaces` are the names of the target namespace. -/
def absolute (namespaces : List String) (q : QualifiedName) : String :=
  "::" ++ qualification namespaces ++ q.typePath

/-- A function whose name is a verb and the name of the type. -/
def function (q : QualifiedName) (verb : String) : String :=
  q.scopeText ++ verb ++ q.name

/-- A helper of the type as seen from the target namespace. -/
def helper (q : QualifiedName) (h : Helper) : String :=
  q.scopeText ++ h.name q.name

end QualifiedName

/-- The names of the objects around a node, outermost first. -/
structure NamePath where
  names : List String
deriving DecidableEq, Repr

namespace NamePath

/-- The path at the root. -/
def root : NamePath :=
  ⟨[]⟩

/-- The path inside the object `name`. -/
def push (p : NamePath) (name : String) : NamePath :=
  ⟨p.names ++ [name]⟩

/-- The name of the innermost object and the path around it. -/
def pop? (p : NamePath) : Option (String × NamePath) :=
  p.names.getLast?.map fun last => (last, ⟨p.names.dropLast⟩)

/-- The names of the classes around a node. -/
def classNames (p : NamePath) : List String :=
  p.names.map typeName

/-- The dotted text of the path. -/
def dotted (p : NamePath) : String :=
  Text.joinWith "." p.names

/-- The dotted text of a member of the innermost object (`member_path`). -/
def memberPath (p : NamePath) (name : String) : String :=
  if p.dotted = "" then name else p.dotted ++ "." ++ name

/-- The name of the type of a member of the innermost object. -/
def qualify (p : NamePath) (name : String) : QualifiedName :=
  ⟨p.classNames, typeName name⟩

theorem pop?_push (p : NamePath) (name : String) : (p.push name).pop? = some (name, p) := by
  simp [push, pop?]

end NamePath

end ConfigForge
