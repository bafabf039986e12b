import ConfigForge.Cpp.Function

/-!
# Functions of a type

Every generated type `T` has five helper functions, declared in the scope that declares `T`:

* `void InitT(T *val)` sets a value to its initial state,
* `bool ValidateT(const T &val)` tells whether a value is acceptable,
* `bool ValidateT(const json &json)` tells whether a JSON node is acceptable,
* `bool TToJson(const T &val, json *json)` writes a value to a JSON node,
* `bool JsonToT(const json &json, T *val)` reads a value from a JSON node.
-/

namespace ConfigForge.Emit

open Code (Line Fragment)
open Cpp

/-- What the generated code is written for: the JSON document type and the names of the enclosing
namespaces, outermost first. -/
structure Target where
  jsonType : String
  namespaces : List String
deriving DecidableEq, Repr

/-- The code of a node and the name of the type it provides. The code of a reference is empty, and
the type is the one referred to. -/
structure EmittedType where
  fragment : Fragment
  name : QualifiedName
deriving DecidableEq, Repr

/-! ## Signatures -/

/-- The value as a pointer, to be changed. -/
def valuePointer (type : String) : Param :=
  ⟨false, .owned (.here type), "*", "val"⟩

/-- The value as a reference, to be looked at. -/
def valueReference (type : String) : Param :=
  ⟨true, .owned (.here type), "&", "val"⟩

/-- The JSON node as a pointer, to be changed. -/
def jsonPointer (target : Target) : Param :=
  ⟨false, .plain target.jsonType, "*", "json"⟩

/-- The JSON node as a reference, to be looked at. -/
def jsonReference (target : Target) : Param :=
  ⟨true, .plain target.jsonType, "&", "json"⟩

/-- The signature of `Init` (`init_head`). -/
def initSignature (type : String) : Signature :=
  ⟨"void", Helper.init.name type, [valuePointer type], false⟩

/-- The signature of `Validate` for values (`validate_head`). -/
def validateSignature (type : String) : Signature :=
  ⟨"bool", Helper.validate.name type, [valueReference type], false⟩

/-- The signature of `Validate` for JSON nodes (`validate_json_head`). -/
def validateJsonSignature (target : Target) (type : String) : Signature :=
  ⟨"bool", Helper.validate.name type, [jsonReference target], false⟩

/-- The signature of `ToJson` (`to_json_head`). -/
def toJsonSignature (target : Target) (type : String) : Signature :=
  ⟨"bool", Helper.toJson.name type, [valueReference type, jsonPointer target], false⟩

/-- The signature of `JsonTo` (`json_to_head`). -/
def jsonToSignature (target : Target) (type : String) : Signature :=
  ⟨"bool", Helper.jsonTo.name type, [jsonReference target, valuePointer type], false⟩

/-- The signatures of the helpers of a type, in the order in which they are written. -/
def signatures (target : Target) (type : String) : List Signature :=
  [initSignature type, validateSignature type, validateJsonSignature target type,
    toJsonSignature target type, jsonToSignature target type]

/-- The declarations of the helpers of a type (`push_prototypes`). -/
def prototypes (target : Target) (type : String) : List Line :=
  (signatures target type).map Signature.prototype

/-! ## Definitions -/

/-- The bodies of the helpers of a type. -/
structure HelperBodies where
  init : List Block
  validate : List Block
  validateJson : List Block
  toJson : List Block
  jsonTo : List Block
deriving DecidableEq, Repr

/-- The helpers of a type. -/
def helperFunctions (target : Target) (type : String) (bodies : HelperBodies) : List Function :=
  [⟨initSignature type, bodies.init⟩, ⟨validateSignature type, bodies.validate⟩,
    ⟨validateJsonSignature target type, bodies.validateJson⟩,
    ⟨toJsonSignature target type, bodies.toJson⟩, ⟨jsonToSignature target type, bodies.jsonTo⟩]

/-- Statements as a body. -/
def statements (stmts : List Stmt) : List Block :=
  stmts.map Block.line

/-- A body that conjoins conditions. Without conditions it accepts everything. -/
def conjunction (conditions : List Expr) : List Stmt :=
  if conditions.isEmpty then [.discard "val", .accept]
  else
    let result := Expr.var "result"
    .declare (.plain "bool") "result" (.bool true) ::
      conditions.map (fun c => .assign result (.binary .and result c)) ++ [.leave result]

end ConfigForge.Emit
