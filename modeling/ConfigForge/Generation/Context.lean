import ConfigForge.Generation.Error
import ConfigForge.Generation.References

/-!
# The state of a walk

While a schema is walked, the context holds the objects and arrays around the current node, the
names taken in every open scope, and the objects that are complete. There is a scope for the target
namespace and one for every open class. A name can be declared once in a scope.
-/

namespace ConfigForge

/-- A C++ scope: the class it belongs to, empty for the target namespace, and the names taken. -/
structure Scope where
  label : String
  taken : List String
deriving DecidableEq, Repr

/-- The scope of the target namespace before any declaration. -/
def Scope.outermost : Scope :=
  ⟨"", []⟩

/-- The scope of a class. The members of every class are taken, and so are the names of the class
and of the classes around it, because definitions outside the class are qualified with them. -/
def Scope.ofClass (name : QualifiedName) : Scope :=
  ⟨name.typePath, classMemberNames ++ name.scope ++ [name.name]⟩

/-- The state of a walk. -/
structure Context where
  /-- The objects around the current node. -/
  path : NamePath
  /-- The bounds of the arrays around the current node, innermost first. -/
  arrays : List ItemBounds
  /-- The objects that are complete. -/
  references : ReferenceTable
  /-- The open scopes, innermost first. -/
  scopes : List Scope
deriving DecidableEq, Repr

namespace Context

/-- The context at the start of a walk. -/
def initial : Context :=
  ⟨.root, [], .empty, [.outermost]⟩

/-- Declares a name in the innermost scope. -/
def declare (ctx : Context) (name : String) : Except GenerationError Context :=
  match ctx.scopes with
  | [] => .error (.unbalanced .noScope)
  | scope :: around =>
    if scope.taken.contains name then .error (.collision scope.label name)
    else .ok { ctx with scopes := { scope with taken := name :: scope.taken } :: around }

/-- Declares names one after the other. -/
def declareAll (ctx : Context) : List String → Except GenerationError Context
  | [] => .ok ctx
  | name :: rest => do (← ctx.declare name).declareAll rest

/-- Declares a type together with its helpers (`declare_type`). -/
def declareType (ctx : Context) (name : QualifiedName) : Except GenerationError Context :=
  ctx.declareAll (typeNames name.name)

/-- Enters the object `name`, whose class is `type` (`open_scope`). -/
def enterObject (ctx : Context) (name : String) (type : QualifiedName) : Context :=
  { ctx with path := ctx.path.push name, scopes := Scope.ofClass type :: ctx.scopes }

/-- Leaves the innermost object, whose class `type` is complete from here on (`close_scope`). -/
def leaveObject (ctx : Context) (type : QualifiedName) : Except GenerationError Context :=
  match ctx.scopes with
  | _ :: scope :: around => do
    let (_, path) ← ctx.path.leave
    return { ctx with
      path := path
      references := ctx.references.register ctx.path.dotted type
      scopes := scope :: around }
  | _ => .error (.unbalanced .outermostScope)

/-- Enters an array. -/
def enterArray (ctx : Context) (bounds : ItemBounds) : Context :=
  { ctx with arrays := bounds :: ctx.arrays }

/-- Leaves the innermost array (`pop_array`). -/
def leaveArray (ctx : Context) : Except GenerationError (ItemBounds × Context) :=
  match ctx.arrays with
  | [] => .error (.unbalanced .noArray)
  | bounds :: around => .ok (bounds, { ctx with arrays := around })

/-- Checks at the end of a walk that everything entered has been left. -/
def finish (ctx : Context) : Except GenerationError Unit :=
  if ctx.path ≠ .root then .error (.unbalanced (.openObject ctx.path))
  else if ctx.arrays ≠ [] then .error (.unbalanced .openArray)
  else if ctx.scopes.length ≠ 1 then .error (.unbalanced .openScope)
  else .ok ()

end Context

end ConfigForge
