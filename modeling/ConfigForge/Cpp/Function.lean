import ConfigForge.Code.Fragment
import ConfigForge.Cpp.Expr

/-!
# C++ statements and functions

A function is a signature and a body. A body is a sequence of statements, counting loops, loops over
the items of a JSON array, and loops over the fields of a JSON object that choose what to do by the
name of the field.
-/

namespace ConfigForge.Cpp

open Code (Line)

/-! ## Statements -/

/-- Statements of one line. -/
inductive Stmt where
  /-- `target = value;` -/
  | assign (target value : Expr)
  /-- `type name = value;` -/
  | declare (type : TypeName) (name : String) (value : Expr)
  /-- `type name;` -/
  | declareEmpty (type : TypeName) (name : String)
  /-- `e;` -/
  | evaluate (e : Expr)
  /-- `(void)name;`, for a parameter that is not used. -/
  | discard (name : String)
  /-- `return e;` -/
  | leave (e : Expr)
  /-- `if (condition) return e;` -/
  | leaveIf (condition e : Expr)
deriving DecidableEq, Repr

/-- Fails if the condition holds. -/
def Stmt.rejectIf (condition : Expr) : Stmt :=
  .leaveIf condition (.bool false)

/-- Succeeds. -/
def Stmt.accept : Stmt :=
  .leave (.bool true)

/-- The line of a statement. -/
def Stmt.line : Stmt → Line
  | .assign target value => (target.line.text " = " ++ value.line).text ";"
  | .declare type name value => (type.line.text (" " ++ name ++ " = ") ++ value.line).text ";"
  | .declareEmpty type name => type.line.text (" " ++ name ++ ";")
  | .evaluate e => e.line.text ";"
  | .discard name => Line.ofText ("(void)" ++ name ++ ";")
  | .leave e => (Line.ofText "return " ++ e.line).text ";"
  | .leaveIf condition e =>
    ((Line.ofText "if (" ++ condition.line).text ") return " ++ e.line).text ";"

/-! ## Blocks -/

/-- Statements and loops. -/
inductive Block where
  | line (s : Stmt)
  /-- Runs the body for `i` from 0 up to, not including, `bound`. -/
  | countLoop (bound : Expr) (body : List Stmt)
  /-- Runs the body for every `element` of the JSON array. -/
  | itemLoop (body : List Stmt)
  /-- Runs, for every field `it` of the JSON object, the statement of the branch with the field's
  name, and fails if there is none. -/
  | fieldLoop (first : String × Stmt) (rest : List (String × Stmt))
deriving DecidableEq, Repr

/-- A line one level further in. -/
def indentLine (l : Line) : Line :=
  Line.ofText Code.indentUnit ++ l

/-- The two lines of a branch; `word` opens the branch. -/
def branchLines (word : String) (branch : String × Stmt) : List Line :=
  let test := Expr.binary .eq (Expr.ask (.var "it") "key") (.text branch.1)
  [(Line.ofText (word ++ " (") ++ test.line).text ") \x7b", indentLine branch.2.line]

/-- The lines of a block. -/
def Block.lines : Block → List Line
  | .line s => [s.line]
  | .countLoop bound body =>
    (Line.ofText "for (size_t i = 0; i < " ++ bound.line).text "; ++i) \x7b" ::
      body.map (fun s => indentLine s.line) ++ [Line.ofText "\x7d"]
  | .itemLoop body =>
    Line.ofText "for (const auto &element : json) \x7b" ::
      body.map (fun s => indentLine s.line) ++ [Line.ofText "\x7d"]
  | .fieldLoop first rest =>
    Line.ofText "for (auto it = json.begin(); it != json.end(); ++it) \x7b" ::
      (branchLines "if" first ++ rest.flatMap (branchLines "\x7d else if") ++
        [Line.ofText "\x7d else \x7b", indentLine (Stmt.leave (.bool false)).line,
          Line.ofText "\x7d"]).map indentLine ++ [Line.ofText "\x7d"]

/-! ## Signatures -/

/-- A parameter: its type, whether it is constant, the mark of a pointer or a reference, and its
name. -/
structure Param where
  isConst : Bool
  type : TypeName
  mark : String
  name : String
deriving DecidableEq, Repr

/-- The text of a parameter. -/
def Param.line (p : Param) : Line :=
  (Line.ofText (if p.isConst then "const " else "") ++ p.type.line).text (" " ++ p.mark ++ p.name)

/-- A function signature. `name` stands after the qualification by the scope, and `result` is empty
for a constructor. -/
structure Signature where
  result : String
  name : String
  params : List Param
  isConst : Bool
deriving DecidableEq, Repr

namespace Signature

/-- The parameters between the round brackets. -/
def paramsLine (params : List Param) : Line :=
  match params with
  | [] => Line.empty
  | p :: rest => rest.foldl (fun l q => l.text ", " ++ q.line) p.line

/-- The result type with the blank after it. -/
def resultText (s : Signature) : String :=
  if s.result = "" then "" else s.result ++ " "

/-- What follows the parameters. -/
def constText (s : Signature) : String :=
  if s.isConst then " const" else ""

/-- The declaration in the scope of the function. -/
def prototype (s : Signature) : Line :=
  (Line.ofSlot .storage ++ Line.ofText (s.resultText ++ s.name ++ "(") ++ paramsLine s.params).text
    (")" ++ s.constText ++ ";")

/-- The first line of the definition, which stands outside all classes. -/
def head (s : Signature) : Line :=
  (Line.ofText s.resultText ++ Line.ofSlot .scope ++ Line.ofText (s.name ++ "(") ++
    paramsLine s.params).text (")" ++ s.constText ++ " \x7b")

end Signature

/-- A function. -/
structure Function where
  signature : Signature
  body : List Block
deriving DecidableEq, Repr

/-- The definition of a function, with an empty line after it. -/
def Function.lines (f : Function) : List Line :=
  f.signature.head :: (f.body.flatMap Block.lines).map indentLine ++
    [Line.ofText "\x7d", Line.empty]

end ConfigForge.Cpp
