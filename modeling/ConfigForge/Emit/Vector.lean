import ConfigForge.Emit.TypeFunctions
import ConfigForge.Schema.Node

/-!
# Code of arrays

An array becomes a typedef of a vector of its item type, whose code comes first. The helpers go
through the items and check their number against the bounds.
-/

namespace ConfigForge.Emit

open Code (Line Fragment)
open Cpp

/-- The statements that reject a container with too few or too many items (`violations`). -/
def sizeChecks (bounds : ItemBounds) (container : Expr) : List Stmt :=
  ((bounds.least.filter (0 < ·)).map fun n =>
    Stmt.rejectIf (.binary .lt (container.ask "size") (.size n))).toList ++
  (bounds.most.map fun n =>
    Stmt.rejectIf (.binary .gt (container.ask "size") (.size n))).toList

/-- The local variable for one item. -/
def element : Expr := .var "element"

/-- The position in a counting loop. -/
def position : Expr := .var "i"

/-- The rejection of a JSON node that is no array. -/
def requireArray : Stmt :=
  .rejectIf (.not (Expr.json.ask "is_array"))

/-- The bodies of the helpers of an array. An item is read into a local variable, because a vector
of truth values has no references to its items. -/
def vectorBodies (target : Target) (item : QualifiedName) (bounds : ItemBounds) :
    HelperBodies where
  init := .line (.evaluate (.call0 (.arrow .val "clear"))) ::
    (if 0 < bounds.initialLength then
      [.countLoop (.size bounds.initialLength)
        [.declare (.owned (.named item)) "element" (.call0 (.type (.owned (.named item)))),
          .evaluate (.callHelper .init (.named item) (.address element)),
          .evaluate (.call (.arrow .val "push_back") element)]]
    else [])
  validate := statements (sizeChecks bounds .val) ++
    [.countLoop (Expr.val.ask "size")
      [.rejectIf (.not (.callHelper .validate (.named item) (.index .val position)))],
      .line .accept]
  validateJson := statements (requireArray :: sizeChecks bounds .json) ++
    [.itemLoop [.rejectIf (.not (.callHelper .validate (.named item) element))], .line .accept]
  toJson :=
    [.line (.assign (.deref .json) (.call0 (.static (.plain target.jsonType) "array"))),
      .countLoop (Expr.val.ask "size")
        [.declareEmpty (.plain target.jsonType) "element",
          .rejectIf (.not (.callHelper .toJson (.named item)
            (.comma (.index .val position) (.address element)))),
          .evaluate (.call (.arrow .json "push_back") element)],
      .line .accept]
  jsonTo :=
    [.line requireArray,
      .line (.evaluate (.call (.arrow .val "resize") (Expr.json.ask "size"))),
      .countLoop (Expr.json.ask "size")
        [.declare (.owned (.named item)) "element" (.index (.paren (.deref .val)) position),
          .rejectIf (.not (.callHelper .jsonTo (.named item)
            (.comma (.index .json position) (.address element)))),
          .assign (.index (.paren (.deref .val)) position) element],
      .line .accept]

/-- The code of an array type: the code of its item and its own. Both stand in the same place. -/
def vectorFragment (target : Target) (type : String) (item : EmittedType) (bounds : ItemBounds) :
    Fragment :=
  item.fragment.append
    { forward := [Line.ofText
        ("typedef std::vector< " ++ item.name.absolute target.namespaces ++ "> " ++ type ++ ";")]
      declarations := prototypes target type
      definitions :=
        (helperFunctions target type (vectorBodies target item.name bounds)).flatMap
          Function.lines }

end ConfigForge.Emit
