import ConfigForge.Emit.Alias
import ConfigForge.Emit.Class
import ConfigForge.Emit.Vector
import ConfigForge.Generation.Context
import ConfigForge.Schema.Constraint

/-!
# From schemas to code

A schema is walked depth first in the order of its text. Every node declares its type in the scope
it stands in and gives the code of the type; the code of an object or an array is built from the
code of its parts. An entry of the schema gives one unit of code in the target namespace.
-/

namespace ConfigForge

open Code (Fragment PlacedFragment)
open Emit

/-- The code of an entry of a schema, and its type. -/
structure CodeUnit where
  fragment : PlacedFragment
  name : QualifiedName
deriving DecidableEq, Repr

/-- The name under which the item of the array `name` is walked. -/
def itemName (name : String) : String :=
  name ++ "_element"

/-- Whether a member may be declared under its name. -/
def isMemberName (name : String) : Bool :=
  isIdentifier name && !isReserved name

mutual

/-- The code of the node called `name` (`visit`). -/
def walkNode (target : Target) (ctx : Context) (name : String) :
    Node → Except GenerationError (EmittedType × Context)
  | .scalar s => do
    let type := ctx.path.qualify name
    let ctx ← ctx.declareType type
    return (⟨aliasFragment target type.name s s.primitive, type⟩, ctx)
  | .object members => do
    let type := ctx.path.qualify name
    let ctx ← ctx.declareType type
    let (emitted, ctx) ← walkMembers target (ctx.enterObject name type) members
    let ctx ← ctx.leaveObject type
    return (⟨classFragment target name type emitted, type⟩, ctx)
  | .array item bounds => do
    let type := ctx.path.qualify name
    let ctx ← ctx.declareType type
    let (emitted, ctx) ← walkNode target (ctx.enterArray bounds) (itemName name) item
    let (bounds, ctx) ← ctx.leaveArray
    return (⟨vectorFragment target type.name emitted bounds, type⟩, ctx)
  | .reference r =>
    match ctx.references.resolve? ctx.path.names r with
    | some type => .ok (⟨Fragment.empty, type⟩, ctx)
    | none => .error (.unresolved (ctx.path.memberPath name) r.target)

/-- The members of the innermost object. The name of a member is declared after its type. -/
def walkMembers (target : Target) (ctx : Context) :
    List (String × Node) → Except GenerationError (List Member × Context)
  | [] => .ok ([], ctx)
  | (name, node) :: rest =>
    if isMemberName name then do
      let (emitted, ctx) ← walkNode target ctx name node
      let ctx ← ctx.declare name
      let (members, ctx) ← walkMembers target ctx rest
      return (⟨name, emitted⟩ :: members, ctx)
    else .error (.schema (.at (ctx.path.names ++ [name]) (.invalidName name)))

end

/-- The units of the entries of a schema. -/
def walkEntries (target : Target) (ctx : Context) :
    List (String × Node) → Except GenerationError (List (String × CodeUnit) × Context)
  | [] => .ok ([], ctx)
  | (name, node) :: rest =>
    if !isIdentifier name then .error (.schema (.at [name] (.invalidName name)))
    else if node.isReference then .error (.schema (.at [name] .topLevelReference))
    else do
      let (emitted, ctx) ← walkNode target ctx name node
      let (units, ctx) ← walkEntries target ctx rest
      return ((name, ⟨emitted.fragment.place .topLevel, emitted.name⟩) :: units, ctx)

/-- The units of a schema (`generate`). Bounds and defaults are checked before the walk begins. -/
def generateUnits (target : Target) (schema : Schema) :
    Except GenerationError (Entries CodeUnit) := do
  schema.check.mapError .constraint
  let (units, ctx) ← walkEntries target .initial schema.entries
  ctx.finish
  return units

end ConfigForge
