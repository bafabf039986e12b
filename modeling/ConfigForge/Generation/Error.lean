import ConfigForge.Cpp.Name
import ConfigForge.Schema.Error

/-!
# Errors of generation

Code generation stops at the first error: a fault or a contradiction in the schema, a reference to
an object that is not there yet, two declarations of one name in a scope, or a walk that lost its
balance. The wording of all messages is here.

Results:

* `leave_push`: the object entered last can be left.
-/

namespace ConfigForge

/-- A walk that left more than it entered, or entered more than it left. -/
inductive BalanceFault where
  /-- An object is left where none is open. -/
  | noObject
  /-- A name is declared where no scope is open. -/
  | noScope
  /-- The outermost scope is closed. -/
  | outermostScope
  /-- An array is left where none is open. -/
  | noArray
  /-- The walk ends inside an object. -/
  | openObject (path : NamePath)
  /-- The walk ends inside an array. -/
  | openArray
  /-- The walk ends inside the scope of a class. -/
  | openScope
deriving DecidableEq, Repr

/-- The message of a fault of balance. -/
def BalanceFault.message : BalanceFault → String
  | .noObject => "namespace stack popped while empty"
  | .noScope => "no open type scope"
  | .outermostScope => "type scope stack popped at root"
  | .noArray => "array stack popped while empty"
  | .openObject path => "namespace stack not empty after generation: " ++ path.dotted
  | .openArray => "array stack not empty after generation"
  | .openScope => "type scopes left open after generation"

/-- Why no code is generated. -/
inductive GenerationError where
  /-- The schema has a fault. -/
  | schema (e : SchemaError)
  /-- The schema contradicts itself. -/
  | constraint (e : ConstraintError)
  /-- A member refers to an object that is not complete where the member stands. -/
  | unresolved (member target : String)
  /-- A name is declared twice in a scope; `scope` is the class, or empty for the namespace. -/
  | collision (scope name : String)
  /-- The walk lost its balance. -/
  | unbalanced (fault : BalanceFault)
deriving DecidableEq, Repr

/-- The message of an error. -/
def GenerationError.message : GenerationError → String
  | .schema e => "schema error: " ++ e.message
  | .constraint e => "constraint error: " ++ e.message
  | .unresolved member target => s!"unresolved reference '{target}' in '{member}'"
  | .collision scope name => s!"name '{name}' declared twice in scope '{scope}'"
  | .unbalanced fault => "internal generator error: " ++ fault.message

/-- The name of the innermost object and the path around it. -/
def NamePath.leave (p : NamePath) : Except GenerationError (String × NamePath) :=
  match p.pop? with
  | some popped => .ok popped
  | none => .error (.unbalanced .noObject)

theorem NamePath.leave_push (p : NamePath) (name : String) :
    (p.push name).leave = .ok (name, p) := by
  rw [leave, pop?_push]

end ConfigForge
