import ConfigForge.Proofs.Statements
import ConfigForge.Proofs.StringLiterals

/-!
# The meaning of source lines

The plain meaning of the lines of a function that sets a value, checks a value, or checks or reads a
JSON scalar. The lines are read as statements and loops, and these are run. Nothing is used of the
code but its text.

Integers are exact, and a conversion to an integer type is taken modulo its width. A pointer is
modelled by the value it points to: `val`, `*val` and `&element` all stand for a cell, and a call
that gets a pointer changes the cell. No generated body keeps two pointers to one cell.

Functions call each other and loops go round, so the meaning of a source is given up to a depth of
calls and a number of turns. Beyond these, and for code that goes through JSON containers or writes
JSON, there is no result.

Results:

* `convert_of_holds`: a value of an integer type is converted to itself.
* `literal?_toString_append`, `literal?_stringLiteral`: what the literals of numbers and texts stand for.
* `Term.path?_pathTerm`: a path is read as the name it spells.
-/

namespace ConfigForge

/-! ## Numbers -/

/-- The equality of IEEE 754: a NaN equals nothing, and both zeros are equal. -/
def Binary64.same (x y : Binary64) : Bool :=
  !x.isNaN && !y.isNaN && x.place = y.place

/-- The number with the other sign. -/
def Binary64.negate (x : Binary64) : Binary64 :=
  x.withSign (!x.isNegative)

/-- An integer as a value of an integer type. -/
def convert (signed : Bool) (width : Width) (i : Int) : Int :=
  if signed then i.bmod (1 <<< width.bits) else i % (1 <<< width.bits : Nat)

theorem convert_of_holds {signed : Bool} {width : Width} {i : Int}
    (h : (integerRange signed width).holds i = true) : convert signed width i = i := by
  rw [mem_range_iff] at h
  cases signed with
  | false =>
    rw [if_neg Bool.false_ne_true] at h
    rw [convert, if_neg Bool.false_ne_true]
    exact Int.emod_eq_of_lt h.1 h.2
  | true =>
    rw [if_pos rfl] at h
    rw [convert, if_pos rfl]
    cases width <;> simp only [Width.bits] at h ⊢ <;> rw [Int.bmod_eq_of_le] <;> omega

/-- The primitive types. -/
def Primitive.all : List Primitive :=
  Width.all.flatMap (fun width => [.integer true width, .integer false width]) ++
    [.double, .bool, .string]

/-- The primitive type with a C++ name. -/
def Primitive.ofCppName? (spelling : String) : Option Primitive :=
  Primitive.all.find? fun p => p.cppName = spelling

theorem Primitive.ofCppName?_cppName (p : Primitive) : ofCppName? p.cppName = some p := by
  cases p with
  | integer signed width => cases signed <;> cases width <;> decide
  | _ => decide

namespace Cpp

/-! ## Values -/

/-- A JSON node as a program holds it. An integer is held with or without sign, in 64 bits. -/
inductive JsonNode where
  | null
  | bool (b : Bool)
  | unsigned (n : UInt64)
  | signed (i : Int64)
  | double (x : Binary64)
  | text (s : String)
  | array (items : List JsonNode)
  | object (fields : List (String × JsonNode))

namespace JsonNode

/-- The integer that a node holds. -/
def integer? : JsonNode → Option Int
  | .unsigned n => some n.toNat
  | .signed i => some i.toInt
  | _ => none

/-- Whether a node holds an integer without sign. -/
def isUnsigned : JsonNode → Bool
  | .unsigned _ => true
  | _ => false

/-- The answer to a question about the kind of a node. -/
def answer? (node : JsonNode) : String → Option Bool
  | "is_boolean" => some (node matches .bool _)
  | "is_string" => some (node matches .text _)
  | "is_number" => some (node.integer?.isSome || node matches .double _)
  | "is_number_integer" => some node.integer?.isSome
  | "is_number_unsigned" => some node.isUnsigned
  | _ => none

end JsonNode

/-- A value of a generated program. -/
inductive Value where
  | bool (b : Bool)
  | integer (i : Int)
  | double (x : Binary64)
  | text (s : String)
  | vector (items : List Value)
  | object (fields : List (String × Value))
  | json (node : JsonNode)

/-- The value of a JSON node as a primitive type. -/
def JsonNode.get? (node : JsonNode) : Primitive → Option Value
  | .integer sign width => node.integer?.map fun i => .integer (convert sign width i)
  | .double => match node with
    | .double x => some (.double x)
    | _ => node.integer?.map fun i => .double (Binary64.ofInt i)
  | .bool => match node with
    | .bool b => some (.bool b)
    | _ => none
  | .string => match node with
    | .text s => some (.text s)
    | _ => none

namespace Value

/-- What a cell holds before anything has been written to it. -/
def blank : Value :=
  .object []

/-- The data member of an object. -/
def field? (v : Value) (name : String) : Option Value :=
  match v with
  | .object fields => Entries.get? fields name
  | _ => none

/-- The object with a data member set. -/
def setField (v : Value) (name : String) (new : Value) : Value :=
  match v with
  | .object fields => .object (Entries.put fields name new)
  | _ => .object [(name, new)]

/-- The item of a vector. -/
def item? (v : Value) (position : Value) : Option Value :=
  match v, position with
  | .vector items, .integer i => items[i.toNat]?
  | _, _ => none

/-- The answer of a value to a question. -/
def answer? (v : Value) (question : String) : Option Value :=
  match v with
  | .vector items => if question = "size" then some (.integer items.length) else none
  | .json node => (node.answer? question).map .bool
  | _ => none

/-- The negative of a number. -/
def negate? : Value → Option Value
  | .integer i => some (.integer (-i))
  | .double x => some (.double x.negate)
  | _ => none

/-- The difference of two integers. -/
def minus? : Value → Value → Option Value
  | .integer i, .integer j => some (.integer (i - j))
  | _, _ => none

theorem field?_setField_self (v : Value) (name : String) (new : Value) :
    (v.setField name new).field? name = some new := by
  cases v with
  | object fields => exact Entries.get?_put_self fields name new
  | _ => simp [setField, field?, Entries.get?]

theorem field?_setField_of_ne (v : Value) {name other : String} (h : name ≠ other) (new : Value) :
    (v.setField name new).field? other = v.field? other := by
  cases v with
  | object fields => exact Entries.get?_put_of_ne fields h new
  | _ => simp [setField, field?, Entries.get?, h]

end Value

/-- Whether a comparison holds, given how its sides compare. -/
def BinaryOp.holds? (less equal greater : Bool) : BinaryOp → Option Bool
  | .eq => some equal
  | .ne => some !equal
  | .lt => some less
  | .gt => some greater
  | .le => some (less || equal)
  | .ge => some (greater || equal)
  | .and | .or => none

/-- The comparison of two values. -/
def BinaryOp.compare? (op : BinaryOp) (left right : Value) : Option Bool :=
  match left, right with
  | .integer i, .integer j => op.holds? (i < j) (i = j) (j < i)
  | .double x, .double y => op.holds? (x.lt y) (x.same y) (y.lt x)
  | _, _ => none

/-- An operator between two results. The right one counts only if the left one does not decide. -/
def BinaryOp.combine? (op : BinaryOp) (left right : Option Value) : Option Value :=
  match op with
  | .and => match left with
    | some (.bool true) => right
    | some (.bool false) => some (.bool false)
    | _ => none
  | .or => match left with
    | some (.bool true) => some (.bool true)
    | some (.bool false) => right
    | _ => none
  | _ => left.bind fun l => right.bind fun r => (op.compare? l r).map .bool

/-! ## Literals -/

/-- The number that digits and a decimal exponent stand for, rounded to the nearest one. -/
def decimalValue (digits : List Char) (exponent : Int) : Binary64 :=
  Binary64.ofRatio (Nat.ofDigitChars 10 digits 0 * Nat.pow 10 exponent.toNat)
    (Nat.pow 10 (-exponent).toNat)

/-- The exponent at the end of a number. -/
def readExponent? : List Char → Option Int
  | [] => some 0
  | 'e' :: '-' :: digits =>
    if digits ≠ [] ∧ digits.all Char.isDigit then some (-(Nat.ofDigitChars 10 digits 0 : Int))
    else none
  | 'e' :: digits =>
    if digits ≠ [] ∧ digits.all Char.isDigit then some (Nat.ofDigitChars 10 digits 0) else none
  | _ => none

/-- The floating point number that a token is: digits, possibly with a point and an exponent. -/
def readReal? (token : List Char) : Option Binary64 :=
  let whole := token.takeWhile Char.isDigit
  let behind := token.dropWhile Char.isDigit
  let point := behind.head? = some '.'
  let fraction := if point then (behind.drop 1).takeWhile Char.isDigit else []
  let last := if point then (behind.drop 1).dropWhile Char.isDigit else behind
  if whole = [] then none
  else (readExponent? last).map fun e => decimalValue (whole ++ fraction) (e - fraction.length)

/-- The text up to its first NUL. -/
def cutAtNul (s : String) : String :=
  String.ofList (s.toList.takeWhile (· ≠ Char.ofNat 0))

/-- The value of a literal. A text alone is taken up to its first NUL. -/
def literal? (text : String) : Option Value :=
  if text = "true" then some (.bool true)
  else if text = "false" then some (.bool false)
  else if text.toList.head? = some '"' then (literalText? text).map fun s => .text (cutAtNul s)
  else ((readNumeral? text.toList).map fun n => Value.integer n.value).or
    ((readReal? text.toList).map .double)

/-- The text that is made from a literal and its length in bytes. -/
def sizedText? : Term → Option Value
  | .binary .comma (.atom literal) (.atom count) =>
    (literalText? literal).bind fun s => (readNumeral? count.toList).bind fun n =>
      if n.value = s.utf8ByteSize then some (.text s) else none
  | _ => none

/-! ## Terms -/

/-- The name that a term spells. -/
def Term.path? : Term → Option String
  | .atom name => some name
  | .access .scope e name => e.path?.map fun path => path ++ "::" ++ name
  | _ => none

/-- What the lines of a function can use of the rest of the source: the primitive types behind type
names, the turns that a loop may take, the value that `Init` makes of what was there before, and the
answer of `Validate` about a value. Functions are given by their names. -/
structure World where
  types : String → Option Primitive
  turns : Nat
  init : String → Value → Option Value
  validate : String → Value → Option Bool

/-- The variables of a function and what they hold. -/
abbrev Env := Entries Value

section

variable (w : World) (env : Env)

/-- The primitive type that a type name stands for. -/
def World.primitive? (name : String) : Option Primitive :=
  (Primitive.ofCppName? name).or (w.types name)

/-- The value of a term. -/
def Term.eval : Term → Option Value
  | .atom text => (literal? text).or (env.get? text)
  | .unary .not e => match e.eval with
    | some (.bool b) => some (.bool !b)
    | _ => none
  | .unary .minus e => e.eval.bind Value.negate?
  | .unary .deref e | .unary .address e => e.eval
  | .unary .increment _ => none
  | .binary .comma _ _ => none
  | .binary .difference left right => left.eval.bind fun l => right.eval.bind fun r => l.minus? r
  | .binary (.op op) left right => op.combine? left.eval right.eval
  | .access .dot e member | .access .arrow e member => e.eval.bind fun v => v.field? member
  | .access .scope _ _ => none
  | .index e position => e.eval.bind fun v => position.eval.bind fun i => v.item? i
  | .typed _ _ => none
  | .call0 (.access .dot e question) => e.eval.bind fun v => v.answer? question
  | .call0 (.typed (.access .dot e "get") type) => match e.eval with
    | some (.json node) => (type.path?.bind w.primitive?).bind fun p => node.get? p
    | _ => none
  | .call0 _ => none
  | .call function e => function.path?.bind fun name =>
    if name = "std::string" then sizedText? e
    else e.eval.bind fun v => (w.validate name v).map .bool

theorem Term.eval_atom (text : String) :
    (Term.atom text).eval w env = (literal? text).or (env.get? text) := rfl

theorem Term.eval_minus (e : Term) :
    (Term.unary .minus e).eval w env = (e.eval w env).bind Value.negate? := rfl

theorem Term.eval_call (function e : Term) :
    (Term.call function e).eval w env = function.path?.bind fun name =>
      if name = "std::string" then sizedText? e
      else (e.eval w env).bind fun v => (w.validate name v).map .bool := rfl

/-- The floating point number that a literal stands for, with a minus possibly in front. -/
def Term.real? : Term → Option Binary64
  | .atom text => match literal? text with
    | some (.double x) => some x
    | _ => none
  | .unary .minus e => e.real?.map Binary64.negate
  | _ => none

/-- The variables after a value has been written to the cell that a term names. -/
def Term.write? (new : Value) : Term → Option Env
  | .atom name => some (env.put name new)
  | .unary .deref e | .unary .address e => e.write? new
  | .access .dot e member | .access .arrow e member =>
    e.write? (((e.eval w env).getD .blank).setField member new)
  | _ => none

/-- The variables after a member function has been called for its effect. -/
def Term.performMember? (function item : Term) : Option Env :=
  match function with
  | .access .arrow e "push_back" => match e.eval w env with
    | some (.vector items) => (item.eval w env).bind fun v =>
      e.write? w env (.vector (items ++ [v]))
    | _ => none
  | _ => none

/-- The variables after a term has been evaluated for its effect. -/
def Term.perform? : Term → Option Env
  | .call function e => match function.path? with
    | some name => (w.init name ((e.eval w env).getD .blank)).bind fun new => e.write? w env new
    | none => function.performMember? w env e
  | .call0 (.access .arrow e "clear") => e.write? w env (.vector [])
  | .unary .increment e => match e.eval w env with
    | some (.integer i) => e.write? w env (.integer (i + 1))
    | _ => none
  | _ => none

end

/-! ## Statements and loops -/

/-- How far a body has come: it goes on, or it has returned a value. -/
inductive Outcome where
  | running (env : Env)
  | returned (value : Value) (env : Env)

namespace Outcome

/-- The variables at the end. -/
def env : Outcome → Env
  | .running env => env
  | .returned _ env => env

/-- The truth value that was returned. -/
def answer? : Outcome → Option Bool
  | .returned (.bool b) _ => some b
  | _ => none

/-- What comes next, if nothing has been returned. -/
def andThen (outcome : Option Outcome) (next : Env → Option Outcome) : Option Outcome :=
  outcome.bind fun
    | .running env => next env
    | .returned v env => some (.returned v env)

@[simp] theorem andThen_running (env : Env) (next : Env → Option Outcome) :
    andThen (some (.running env)) next = next env := rfl

theorem andThen_assoc (outcome : Option Outcome) (next after : Env → Option Outcome) :
    andThen (andThen outcome next) after = andThen outcome fun env => andThen (next env) after := by
  match outcome with
  | none => rfl
  | some (.running env) => rfl
  | some (.returned v env) => rfl

end Outcome

open Outcome (andThen)

section

variable (w : World)

/-- Runs a statement. A variable that is declared with `T()` holds nothing yet. -/
def Statement.run (env : Env) : Statement → Option Outcome
  | .assign target value => (value.eval w env).bind fun v => (target.write? w env v).map .running
  | .declare type name value =>
    if value = .call0 type then some (.running (env.put name .blank))
    else (value.eval w env).map fun v => .running (env.put name v)
  | .declareEmpty _ name => some (.running (env.put name .blank))
  | .evaluate e => (e.perform? w env).map .running
  | .discard _ => some (.running env)
  | .leave e => (e.eval w env).map fun v => .returned v env
  | .leaveIf condition e => match condition.eval w env with
    | some (.bool true) => (e.eval w env).map fun v => .returned v env
    | some (.bool false) => some (.running env)
    | _ => none

/-- Runs statements one after the other. -/
def runStatements (env : Env) : List Statement → Option Outcome
  | [] => some (.running env)
  | s :: rest => andThen (s.run w env) fun env => runStatements env rest

/-- Goes on with a loop for at most so many turns. -/
def Loop.run (l : Loop) : Nat → Env → Option Outcome
  | 0, _ => none
  | turns + 1, env => match l.condition.eval w env with
    | some (.bool true) =>
      andThen (runStatements w env l.body) fun env =>
        (l.step.perform? w env).bind fun env => l.run turns env
    | some (.bool false) => some (.running env)
    | _ => none

/-- Runs a command. -/
def Command.run (env : Env) : Command → Option Outcome
  | .statement s => s.run w env
  | .loop l => andThen (l.first.run w env) (l.run w w.turns)

/-- Runs commands one after the other. -/
def runCommands (env : Env) : List Command → Option Outcome
  | [] => some (.running env)
  | c :: rest => andThen (c.run w env) fun env => runCommands env rest

/-- Runs the lines of a body. -/
def runLines (env : Env) (lines : List String) : Option Outcome :=
  (readCommands? lines).bind (runCommands w env)

end

/-! ## Values of literals -/

theorem literal?_bool (b : Bool) : literal? (boolLiteral b) = some (.bool b) := by
  cases b <;> rfl

/-- A word that is a number stands for it. -/
theorem literal?_toString_append (n : Nat) (s : Suffix) :
    literal? (toString n ++ s.spelling) = some (.integer n) := by
  have hnumeral := readNumeral?_toString n s
  rw [← String.toList_append] at hnumeral
  have hne : ∀ word : String, readNumeral? word.toList = none → toString n ++ s.spelling ≠ word := by
    rintro word hnone rfl
    rw [hnone] at hnumeral
    cases hnumeral
  have hquote : (toString n ++ s.spelling).toList.head? ≠ some '"' :=
    (isWord_toString_append n s).ne_quote
  rw [literal?, if_neg (hne "true" (by decide)), if_neg (hne "false" (by decide)), if_neg hquote,
    hnumeral]
  rfl

theorem literal?_stringLiteral (s : String) :
    literal? (stringLiteral s) = some (.text (cutAtNul s)) := by
  have hhead : (stringLiteral s).toList.head? = some '"' := by
    rw [toList_stringLiteral]
    rfl
  have hne : ∀ word : String, word.toList.head? ≠ some '"' → stringLiteral s ≠ word := by
    rintro word hword rfl
    exact hword hhead
  rw [literal?, if_neg (hne "true" (by decide)), if_neg (hne "false" (by decide)), if_pos hhead,
    literalText?_stringLiteral]
  rfl

theorem Term.eval_of_real? (w : World) (env : Env) {t : Term} {x : Binary64}
    (h : t.real? = some x) : t.eval w env = some (.double x) := by
  induction t generalizing x with
  | atom text =>
    rw [Term.real?] at h
    rw [Term.eval_atom]
    split at h
    · next y hy =>
      obtain rfl := Option.some.inj h
      rw [hy]
      rfl
    · cases h
  | unary op e ih =>
    cases op with
    | minus =>
      obtain ⟨y, hy, rfl⟩ := Option.map_eq_some_iff.mp h
      rw [Term.eval_minus, ih hy]
      rfl
    | _ => cases h
  | _ => cases h

/-! ## Paths -/

/-- The name that a path is read as is the path. -/
theorem Term.path?_pathTerm {text : String} (h : IsPath text) : (pathTerm text).path? = some text := by
  obtain ⟨scope, name, hwords, rfl⟩ := h
  rw [pathTerm, (reads_qualification hwords).2.1]
  clear hwords
  induction scope using List.reverseRecOn generalizing name with
  | nil => rw [qualification, String.empty_append]; rfl
  | append_singleton scope last ih =>
    rw [namesTerm_append (by simp), Term.path?, ih, qualification_append]
    rfl

end Cpp

end ConfigForge
