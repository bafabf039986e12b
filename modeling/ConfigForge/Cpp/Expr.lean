import ConfigForge.Code.Line
import ConfigForge.Cpp.Literal
import ConfigForge.Cpp.Name

/-!
# C++ expressions

The expressions that generated function bodies are made of. A type or a helper is named in one of
two ways: relative to the place of the code, which is still open, or by its qualified name.

Results:

* `fill_helper_here`, `fill_helper_named`: how a helper is spelled in the two ways.
-/

namespace ConfigForge.Cpp

open Code (Line)

/-- A generated type, as a body refers to it. -/
inductive Owner where
  /-- The type of this name in the scope of the code itself. -/
  | here (type : String)
  /-- The type with this qualified name. -/
  | named (type : QualifiedName)
deriving DecidableEq, Repr

/-- A type in a body: a generated one or one that is only spelled. -/
inductive TypeName where
  | owned (owner : Owner)
  | plain (spelling : String)
deriving DecidableEq, Repr

/-- The operators between two operands. -/
inductive BinaryOp where
  | and
  | or
  | eq
  | ne
  | lt
  | gt
  | le
  | ge
deriving DecidableEq, Repr

/-- The sign of an operator. -/
def BinaryOp.sign : BinaryOp → String
  | .and => "&&"
  | .or => "||"
  | .eq => "=="
  | .ne => "!="
  | .lt => "<"
  | .gt => ">"
  | .le => "<="
  | .ge => ">="

/-- Expressions. Brackets are written where `paren` says so. -/
inductive Expr where
  /-- A variable or a word such as `this`. -/
  | var (name : String)
  | bool (b : Bool)
  | integer (value : Int) (type : Primitive)
  | double (value : Binary64)
  | text (value : String)
  /-- A decimal numeral without suffix. -/
  | count (n : Nat)
  /-- A decimal numeral with the suffix `U`. -/
  | size (n : Nat)
  | not (e : Expr)
  | deref (e : Expr)
  | address (e : Expr)
  | paren (e : Expr)
  | binary (op : BinaryOp) (left right : Expr)
  | dot (e : Expr) (member : String)
  | arrow (e : Expr) (member : String)
  | index (e position : Expr)
  /-- A member function for a type, such as `json.get<T>`. -/
  | typed (e : Expr) (type : TypeName)
  /-- A static member of a type. -/
  | static (type : TypeName) (member : String)
  /-- A type in the place of a function, as in `T()`. -/
  | type (t : TypeName)
  /-- The name of a helper. -/
  | helper (h : Helper) (owner : Owner)
  /-- A call without arguments. -/
  | call0 (function : Expr)
  /-- A call; several arguments are a `comma` expression. -/
  | call (function arguments : Expr)
  | comma (left right : Expr)
deriving DecidableEq, Repr

/-- The spelling of a generated type. -/
def Owner.typeLine : Owner → Line
  | .here type => Line.ofSlot .scope ++ Line.ofText type
  | .named q => Line.ofText q.typePath

/-- The spelling of a helper of a generated type. -/
def Owner.helperLine (h : Helper) : Owner → Line
  | .here type => Line.ofSlot .scope ++ Line.ofText (h.name type)
  | .named q => Line.ofText (q.helper h)

/-- The spelling of a type. -/
def TypeName.line : TypeName → Line
  | .owned owner => owner.typeLine
  | .plain spelling => Line.ofText spelling

/-- The text of an expression, with the place of the code still open. -/
def Expr.line : Expr → Line
  | .var name => Line.ofText name
  | .bool b => Line.ofText (boolLiteral b)
  | .integer value t => Line.ofText (integerLiteral value t)
  | .double x => Line.ofText (numberLiteral x)
  | .text s => Line.ofText (stringLiteral s)
  | .count n => Line.ofText (toString n)
  | .size n => Line.ofText (toString n ++ "U")
  | .not e => Line.ofText "!" ++ e.line
  | .deref e => Line.ofText "*" ++ e.line
  | .address e => Line.ofText "&" ++ e.line
  | .paren e => (Line.ofText "(" ++ e.line).text ")"
  | .binary op left right => left.line.text (" " ++ op.sign ++ " ") ++ right.line
  | .dot e member => e.line.text ("." ++ member)
  | .arrow e member => e.line.text ("->" ++ member)
  | .index e position => (e.line.text "[" ++ position.line).text "]"
  | .typed e t => (e.line.text "<" ++ t.line).text ">"
  | .static t member => t.line.text ("::" ++ member)
  | .type t => t.line
  | .helper h owner => owner.helperLine h
  | .call0 function => function.line.text "()"
  | .call function arguments => (function.line.text "(" ++ arguments.line).text ")"
  | .comma left right => left.line.text ", " ++ right.line

theorem fill_helper_here (p : Code.Placement) (h : Helper) (type : String) :
    (Expr.helper h (.here type)).line.fill p = p.scope ++ h.name type := by
  simp [Expr.line, Owner.helperLine, Code.Placement.value]

theorem fill_helper_named (p : Code.Placement) (h : Helper) (q : QualifiedName) :
    (Expr.helper h (.named q)).line.fill p = q.helper h := by
  simp [Expr.line, Owner.helperLine]

/-! ## Usual expressions -/

namespace Expr

/-- The value that a helper works on. -/
def val : Expr := .var "val"

/-- The JSON node that a helper works on. -/
def json : Expr := .var "json"

/-- The object that a method works on. -/
def this : Expr := .var "this"

/-- A call of a member function without arguments. -/
def ask (e : Expr) (question : String) : Expr :=
  .call0 (.dot e question)

/-- A call of a helper. -/
def callHelper (h : Helper) (owner : Owner) (arguments : Expr) : Expr :=
  .call (.helper h owner) arguments

/-- The value of the JSON node as a type. -/
def jsonAs (type : TypeName) : Expr :=
  .call0 (.typed (.dot json "get") type)

end Expr

end ConfigForge.Cpp
