import ConfigForge.Emit.TypeFunctions

/-!
# Code of objects

An object becomes a class. The types of its members are declared inside the class, so their code is
placed there first; their definitions stand before those of the class. The class has a constructor,
comparisons, conversions from and to text, its data members and a hook that can refuse an update.

A JSON object is decoded field by field. A field that is no member is refused, and a member without
a field keeps its value.
-/

namespace ConfigForge.Emit

open Code (Line Fragment PlacedFragment)
open Cpp

/-- A member of an object: its name as written, which is also the name of the data member and of
the JSON field, and its type. -/
structure Member where
  name : String
  emitted : EmittedType
deriving DecidableEq, Repr

/-- The type of a member, as the bodies refer to it. -/
def Member.owner (m : Member) : Owner :=
  .named m.emitted.name

/-! ## Helpers -/

/-- The data member of the value that a helper works on. -/
def Member.ofValue (m : Member) : Expr :=
  .dot .val m.name

/-- A pointer to the data member of the value that a helper works on. -/
def Member.pointer (m : Member) : Expr :=
  .address (.arrow .val m.name)

/-- The value of the current field in a loop over fields. -/
def fieldValue : Expr :=
  (Expr.var "it").ask "value"

/-- A body that runs the action of a member for the JSON field of its name (`field_dispatch`). -/
def dispatch (action : Member → Stmt) : List Member → List Block
  | [] => [.line (.leave (.binary .and (Expr.json.ask "is_object") (Expr.json.ask "empty")))]
  | m :: rest =>
    [.line (.rejectIf (.not (Expr.json.ask "is_object"))),
      .fieldLoop (m.name, action m) (rest.map fun r => (r.name, action r)), .line .accept]

/-- The mark that the value is not used, for objects without members. -/
def unusedValue (members : List Member) : List Stmt :=
  if members.isEmpty then [.discard "val"] else []

/-- The bodies of the helpers of an object (`push_helpers`). -/
def classBodies (target : Target) (members : List Member) : HelperBodies where
  init := statements (unusedValue members ++
    members.map fun m => .evaluate (.callHelper .init m.owner m.pointer))
  validate := statements
    (conjunction (members.map fun m => .callHelper .validate m.owner m.ofValue))
  validateJson := dispatch
    (fun m => .rejectIf (.not (.callHelper .validate m.owner fieldValue))) members
  toJson := statements (unusedValue members ++
    .assign (.deref .json) (.call0 (.static (.plain target.jsonType) "object")) ::
    members.map (fun m => .rejectIf (.not (.callHelper .toJson m.owner
      (.comma m.ofValue (.address (.index (.paren (.deref .json)) (.text m.name))))))) ++
    [.accept])
  jsonTo := statements (unusedValue members) ++ dispatch
    (fun m => .rejectIf (.not (.callHelper .jsonTo m.owner (.comma fieldValue m.pointer)))) members

/-! ## Methods -/

/-- A reference to another object of the class. -/
def otherParam (type : String) : Param :=
  ⟨true, .owned (.here type), "&", "other"⟩

/-- The body of `operator==` (`equality_body`). -/
def equalityBody (members : List Member) : List Stmt :=
  (if members.isEmpty then [.discard "other"] else []) ++
    members.map (fun m => .rejectIf
      (.binary .ne (.arrow .this m.name) (.dot (.var "other") m.name))) ++ [.accept]

/-- The body of `ToString`: the object as a JSON text with one field, its name as written. -/
def toStringBody (target : Target) (rawName type : String) : List Stmt :=
  let json := TypeName.plain target.jsonType
  [.declare json "json" (.call0 (.static json "object")),
    .leaveIf (.not (.callHelper .toJson (.here type)
      (.comma (.deref .this) (.address (.index .json (.text rawName))))))
      (.call0 (.type (.plain "std::string"))),
    .leave (Expr.json.ask "dump")]

/-- The body of `FromString`. The object changes only after every step has succeeded. -/
def fromStringBody (target : Target) (rawName type : String) : List Stmt :=
  let json := TypeName.plain target.jsonType
  let it := Expr.var "it"
  let updated := Expr.var "updated"
  let validate := Expr.var "validate"
  [.declare json "json" (.call (.static json "parse")
      (.comma (.comma (.var "text") (.var "nullptr")) (.bool false))),
    .rejectIf (.binary .or (.binary .or (Expr.json.ask "is_discarded")
      (.not (Expr.json.ask "is_object"))) (.binary .ne (Expr.json.ask "size") (.count 1))),
    .declare (.plain "auto") "it" (.call (.dot .json "find") (.text rawName)),
    .rejectIf (.binary .eq it (Expr.json.ask "end")),
    .rejectIf (.binary .and validate (.not (.callHelper .validate (.here type) (.deref it)))),
    .declare (.owned (.here type)) "updated" (.deref .this),
    .rejectIf (.not (.callHelper .jsonTo (.here type) (.comma (.deref it) (.address updated)))),
    .rejectIf (.binary .and validate (.not (.callHelper .validate (.here type) updated))),
    .rejectIf (.binary .and (.var "pre_update")
      (.not (.call (.var "pre_update") (.comma (.deref .this) updated)))),
    .assign (.deref .this) updated,
    .accept]

/-- The methods of a class (`push_methods`). -/
def methods (target : Target) (rawName type : String) (members : List Member) : List Function :=
  [⟨⟨"", type ++ "::" ++ type, [], false⟩,
      statements [.evaluate (.callHelper .init (.here type) .this)]⟩,
    ⟨⟨"bool", type ++ "::operator==", [otherParam type], true⟩,
      statements (equalityBody members)⟩,
    ⟨⟨"bool", type ++ "::operator!=", [otherParam type], true⟩,
      statements [.leave (.not (.paren (.binary .eq (.deref .this) (.var "other"))))]⟩,
    ⟨⟨"std::string", type ++ "::ToString", [], true⟩,
      statements (toStringBody target rawName type)⟩,
    ⟨⟨"bool", type ++ "::FromString",
        [⟨true, .plain "std::string", "&", "text"⟩, ⟨false, .plain "bool", "", "validate"⟩], false⟩,
      statements (fromStringBody target rawName type)⟩]

/-! ## The class -/

/-- The declarations of the methods, inside the class. -/
def methodDeclarations (type : String) : List String :=
  [type ++ "();",
    "bool operator==(const " ++ type ++ " &other) const;",
    "bool operator!=(const " ++ type ++ " &other) const;",
    "std::string ToString() const;",
    "bool FromString(const std::string &text, bool validate = true);"]

/-- The declarations of the data members and of the hook. -/
def dataMembers (target : Target) (type : String) (members : List Member) : List String :=
  members.map (fun m => m.emitted.name.absolute target.namespaces ++ " " ++ m.name ++ ";") ++
    ["std::function<bool(const " ++ type ++ " &, const " ++ type ++ " &)> pre_update;"]

/-- The lines of the class (`push_class_body`). The code of its member types comes first, all
forward declarations before all declarations. -/
def classLines (target : Target) (type : String) (members : List Member)
    (placed : List PlacedFragment) : List String :=
  let nested := (placed.flatMap PlacedFragment.forward) ++ placed.flatMap PlacedFragment.declarations
  ("class " ++ type ++ " \x7b") :: " public:" ::
    (nested ++ (if nested.isEmpty then [] else [""]) ++ methodDeclarations type ++ [""] ++
      dataMembers target type members).map (Code.indent 1) ++ ["\x7d;"]

/-- The place of the member types of a class. -/
def memberPlacement (name : QualifiedName) : Code.Placement :=
  .inClass (name.typePath ++ "::")

/-- The code of an object type with the given qualified name; `rawName` is its name as written. -/
def classFragment (target : Target) (rawName : String) (name : QualifiedName)
    (members : List Member) : Fragment :=
  let type := name.name
  let placed := members.map fun m => m.emitted.fragment.place (memberPlacement name)
  { forward := [Line.ofText ("class " ++ type ++ ";")]
    declarations :=
      (classLines target type members placed).map Line.ofText ++ prototypes target type
    definitions :=
      (placed.flatMap PlacedFragment.definitions).map Line.ofText ++
        (methods target rawName type members ++
          helperFunctions target type (classBodies target members)).flatMap Function.lines }

end ConfigForge.Emit
