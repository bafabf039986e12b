import ConfigForge.Proofs.Rendering
import ConfigForge.Proofs.StringLiterals

/-!
# The entries of members in the code of an object

The code of an object speaks of its members in seven places: the data members of the class,
`operator==`, and the five helpers. The places are read here from the lines of the code. A function
stands behind its head, up to the brace that closes it. The two helpers that take JSON apart go
through the fields with a chain of branches, and a branch has the name of its member in a literal,
which is read as C++ reads it. So nothing is assumed about names or about the code of the members'
own types, which comes before that of the object.

Results:

* `body?_of_functions`: a function is found by its head, if no later one has the same.
* `chain?_dispatch`: the chain of a dispatch has one branch per member, under the member's name.
* `selected?_of_mem`, `selected?_of_not_mem`: among branches with different keys, a key selects the
  branch that has it, and another key none.
* `object_entries_agree`: the seven places have one entry per member, in the order of the members,
  and an object is written with exactly the keys that are accepted when it is read.
-/

namespace ConfigForge.Emit

open Code (Line Placement PlacedFragment)
open Cpp

/-! ## Reading functions and chains -/

/-- The lines behind the last line `opening`, up to the next line `closing`. -/
def block? (opening closing : String) (lines : List String) : Option (List String) :=
  let behind := (lines.reverse.takeWhile (· ≠ opening)).reverse
  if opening ∈ lines ∧ closing ∈ behind then some (behind.takeWhile (· ≠ closing)) else none

/-- The body of the function with a signature in placed code. -/
def body? (p : Placement) (code : PlacedFragment) (s : Signature) : Option (List String) :=
  block? (s.head.fill p) "\x7d" code.definitions

/-- The text of the literal between `front` and `back` in a line. -/
def literalIn? (front back line : String) : Option String := do
  let (bytes, rest) ← lexString (← behind? front line.toList)
  if rest = back.toList then textOf? bytes else none

/-- A branch of a chain: the key that it tests for and what it does. -/
structure Branch where
  key : String
  action : String
deriving DecidableEq, Repr

/-- The branch with the given two lines; `word` opens it. -/
def branch? (word test action : String) : Option Branch := do
  let key ← literalIn? ("    " ++ word ++ " (it.key() == ") ") \x7b" test
  let action ← behind? "      " action.toList
  some ⟨key, String.ofList action⟩

/-- How a chain ends: a key without a branch is refused. After the last field, the object is
accepted. -/
def chainEnd : List String :=
  ["    \x7d else \x7b", "      return false;", "    \x7d", "  \x7d", "  return true;"]

/-- The branches of a chain behind the first one. -/
def elseBranches? : List String → Option (List Branch)
  | test :: action :: rest =>
    if test :: action :: rest = chainEnd then some []
    else do
      let branch ← branch? "\x7d else if" test action
      let branches ← elseBranches? rest
      some (branch :: branches)
  | _ => none

/-- The branches of a body that goes through the fields of a JSON object. Without branches the
object must be empty. -/
def chain? (body : List String) : Option (List Branch) :=
  match body.dropWhile (· = "  (void)val;") with
  | [line] => if line = "  return json.is_object() && json.empty();" then some [] else none
  | check :: loop :: test :: action :: rest =>
    if check = "  if (!json.is_object()) return false;" ∧
        loop = "  for (auto it = json.begin(); it != json.end(); ++it) \x7b" then do
      let branch ← branch? "if" test action
      let branches ← elseBranches? rest
      some (branch :: branches)
    else none
  | _ => none

/-- What a chain does for a key: the action of the first branch for it. Without one the key is
refused. -/
def selected? (branches : List Branch) (key : String) : Option String :=
  (branches.find? (·.key = key)).map Branch.action

/-! ## The entries of a member -/

namespace Member

/-- The declaration of the data member. -/
def dataEntry (target : Target) (m : Member) : String :=
  "  " ++ m.emitted.name.absolute target.namespaces ++ " " ++ m.name ++ ";"

/-- The comparison in `operator==`. -/
def equalityEntry (m : Member) : String :=
  "  if (this->" ++ m.name ++ " != other." ++ m.name ++ ") return false;"

/-- The call in `Init`. -/
def initEntry (m : Member) : String :=
  "  " ++ m.emitted.name.helper .init ++ "(&val->" ++ m.name ++ ");"

/-- The call in `Validate` for values. -/
def validateEntry (m : Member) : String :=
  "  result = result && " ++ m.emitted.name.helper .validate ++ "(val." ++ m.name ++ ");"

/-- What stands before the key in the call in `ToJson`. -/
def writeFront (m : Member) : String :=
  "  if (!" ++ m.emitted.name.helper .toJson ++ "(val." ++ m.name ++ ", &(*json)["

/-- The call in `ToJson`. -/
def writeEntry (m : Member) : String :=
  m.writeFront ++ stringLiteral m.name ++ "])) return false;"

/-- The key under which a line of `ToJson` writes the member. -/
def writtenKey? (m : Member) (line : String) : Option String :=
  literalIn? m.writeFront "])) return false;" line

/-- The branch in `Validate` for JSON nodes. -/
def checkBranch (m : Member) : Branch :=
  ⟨m.name, "if (!" ++ m.emitted.name.helper .validate ++ "(it.value())) return false;"⟩

/-- The branch in `JsonTo`. -/
def readBranch (m : Member) : Branch :=
  ⟨m.name, "if (!" ++ m.emitted.name.helper .jsonTo ++ "(it.value(), &val->" ++ m.name ++
    ")) return false;"⟩

end Member

/-- The signature of `operator==`. -/
def equalitySignature (type : String) : Signature :=
  ⟨"bool", type ++ "::operator==", [otherParam type], true⟩

/-- The hook of a class, which follows its data members. -/
def hookLine (type : String) : String :=
  "  std::function<bool(const " ++ type ++ " &, const " ++ type ++ " &)> pre_update;"

/-- The code of the type `type` has one entry per member, in their order, in each of the seven
places. What else stands there is there for every object, or for those without members. -/
structure HasEntries (target : Target) (type : String) (p : Placement) (members : List Member)
    (code : PlacedFragment) : Prop where
  data : block? "" (hookLine type) code.declarations = some (members.map (Member.dataEntry target))
  equality : body? p code (equalitySignature type) =
    some ((if members.isEmpty then ["  (void)other;"] else []) ++
      members.map Member.equalityEntry ++ ["  return true;"])
  init : body? p code (initSignature type) =
    some ((if members.isEmpty then ["  (void)val;"] else []) ++ members.map Member.initEntry)
  validate : body? p code (validateSignature type) =
    some (if members.isEmpty then ["  (void)val;", "  return true;"]
      else "  bool result = true;" :: members.map Member.validateEntry ++ ["  return result;"])
  toJson : body? p code (toJsonSignature target type) =
    some ((if members.isEmpty then ["  (void)val;"] else []) ++
      ("  *json = " ++ target.jsonType ++ "::object();") :: members.map Member.writeEntry ++
      ["  return true;"])
  validateJson : (body? p code (validateJsonSignature target type)).bind chain? =
    some (members.map Member.checkBranch)
  jsonTo : (body? p code (jsonToSignature target type)).bind chain? =
    some (members.map Member.readBranch)

/-! ## Finding a function -/

theorem block?_eq {opening closing : String} {front body rest : List String}
    (hbody : opening ∉ body) (hclosing : closing ∉ body) (hne : opening ≠ closing)
    (hrest : opening ∉ rest) :
    block? opening closing (front ++ opening :: (body ++ closing :: rest)) = some body := by
  have hbehind : ((front ++ opening :: (body ++ closing :: rest)).reverse.takeWhile
      (· ≠ opening)).reverse = body ++ closing :: rest := by
    have hall : ∀ l ∈ (body ++ closing :: rest).reverse, decide (l ≠ opening) = true := by
      intro l hl
      rw [decide_eq_true_iff]
      rintro rfl
      simp only [List.mem_reverse, List.mem_append, List.mem_cons] at hl
      rcases hl with hl | hl | hl
      · exact hbody hl
      · exact hne hl
      · exact hrest hl
    rw [List.reverse_append, List.reverse_cons, List.append_assoc,
      List.takeWhile_append_of_pos hall]
    simp
  have htake : (body ++ closing :: rest).takeWhile (· ≠ closing) = body := by
    have hall : ∀ l ∈ body, decide (l ≠ closing) = true := fun l hl =>
      decide_eq_true fun h => hclosing (h ▸ hl)
    rw [List.takeWhile_append_of_pos hall]
    simp
  rw [block?, hbehind, if_pos (by simp), htake]

theorem head?_fill_head {s : Signature} (h : s.result = "void" ∨ s.result = "bool")
    (p : Placement) : (s.head.fill p).toList.head? = s.result.toList.head? := by
  have hresult : s.resultText = s.result ++ " " := by
    rw [Signature.resultText, if_neg (by rcases h with h | h <;> rw [h] <;> decide)]
  rw [fill_head, hresult]
  rcases h with h | h <;> simp [h]

/-- **Functions.** A function is found by its head, if no later function has the same. -/
theorem body?_of_functions {p : Placement} {code : PlacedFragment} {front : List String}
    {functions after : List Function} {f : Function} (before : List Function)
    (hcode : code.definitions = front ++ (functions.flatMap Function.lines).map (Line.fill p))
    (hfunctions : functions = before ++ f :: after)
    (hresult : f.signature.result = "void" ∨ f.signature.result = "bool")
    (hafter : ∀ g ∈ after, f.signature.head.fill p ≠ g.signature.head.fill p) :
    body? p code f.signature = some (bodyLines p f.body) := by
  have hfirst := head?_fill_head hresult p
  -- a head starts with its result, and nothing else at the margin starts so
  have hne : ∀ l : String, l.toList.head? ≠ some 'v' → l.toList.head? ≠ some 'b' →
      f.signature.head.fill p ≠ l := by
    rintro l hv hb rfl
    rcases hresult with h | h <;> simp [h] at hfirst
    · exact hv hfirst
    · exact hb hfirst
  have hbody : ∀ body, f.signature.head.fill p ∉ bodyLines p body := fun body hmem =>
    hne _ (by simp [head?_of_mem_bodyLines hmem]) (by simp [head?_of_mem_bodyLines hmem]) rfl
  have hrest :
      f.signature.head.fill p ∉ "" :: (after.flatMap Function.lines).map (Line.fill p) := by
    rw [List.map_flatMap]
    intro hmem
    rcases List.mem_cons.mp hmem with hmem | hmem
    · exact hne "" (by simp) (by simp) hmem
    · obtain ⟨g, hg, hmem⟩ := List.mem_flatMap.mp hmem
      rw [fill_functionLines] at hmem
      simp only [List.cons_append, List.mem_cons, List.mem_append, List.not_mem_nil,
        or_false] at hmem
      rcases hmem with hmem | hmem | hmem | hmem
      · exact hafter g hg hmem
      · exact hbody _ hmem
      · exact hne "\x7d" (by decide) (by decide) hmem
      · exact hne "" (by decide) (by decide) hmem
  have hclosing : "\x7d" ∉ bodyLines p f.body := fun hmem =>
    absurd (head?_of_mem_bodyLines hmem) (by decide)
  have hlines : code.definitions = (front ++ (before.flatMap Function.lines).map (Line.fill p)) ++
      f.signature.head.fill p :: (bodyLines p f.body ++ "\x7d" ::
        ("" :: (after.flatMap Function.lines).map (Line.fill p))) := by
    rw [hcode, hfunctions, List.flatMap_append, List.flatMap_cons, List.map_append, List.map_append,
      fill_functionLines]
    simp
  rw [body?, hlines]
  exact block?_eq (hbody _) hclosing (hne "\x7d" (by decide) (by decide)) hrest

/-! ## Heads that differ -/

theorem ne_of_endings {s t x y : String} (hs : x.toList <:+ s.toList) (ht : y.toList <:+ t.toList)
    (hx : ¬ x.toList <:+ y.toList) (hy : ¬ y.toList <:+ x.toList) : s ≠ t := by
  rintro rfl
  rcases List.suffix_or_suffix_of_suffix hs ht with h | h
  · exact hx h
  · exact hy h

section Endings

variable (target : Target) (type : String) (p : Placement)

theorem ending_equality :
    " &other) const \x7b".toList <:+ ((equalitySignature type).head.fill p).toList :=
  ending_head p _ [] (otherParam type) rfl
    (by simp [otherParam, equalitySignature, Signature.constText])

theorem ending_init : " *val) \x7b".toList <:+ ((initSignature type).head.fill p).toList :=
  ending_head p _ [] (valuePointer type) rfl
    (by simp [valuePointer, initSignature, Signature.constText])

theorem ending_validate :
    " &val) \x7b".toList <:+ ((validateSignature type).head.fill p).toList :=
  ending_head p _ [] (valueReference type) rfl
    (by simp [valueReference, validateSignature, Signature.constText])

theorem ending_validateJson :
    " &json) \x7b".toList <:+ ((validateJsonSignature target type).head.fill p).toList :=
  ending_head p _ [] (jsonReference target) rfl
    (by simp [jsonReference, validateJsonSignature, Signature.constText])

theorem ending_toJson :
    " *json) \x7b".toList <:+ ((toJsonSignature target type).head.fill p).toList :=
  ending_head p _ [valueReference type] (jsonPointer target) rfl
    (by simp [jsonPointer, toJsonSignature, Signature.constText])

theorem ending_jsonTo :
    " *val) \x7b".toList <:+ ((jsonToSignature target type).head.fill p).toList :=
  ending_head p _ [jsonReference target] (valuePointer type) rfl
    (by simp [valuePointer, jsonToSignature, Signature.constText])

end Endings

/-! ## The functions of an object -/

section Object

variable (target : Target) (rawName : String) (name : QualifiedName) (members : List Member)
variable (p : Placement)

theorem place_definitions :
    ((classFragment target rawName name members).place p).definitions =
      ((members.map fun m => m.emitted.fragment.place (memberPlacement name)).flatMap
        PlacedFragment.definitions) ++
      ((methods target rawName name.name members ++
        helperFunctions target name.name (classBodies target members)).flatMap
          Function.lines).map (Line.fill p) := by
  simp [classFragment, Code.Fragment.place, Function.comp_def]

/-- No function behind `operator==` has its head. -/
theorem equalityHead_ne {f : Function}
    (h : f ∈ (methods target rawName name.name members).drop 2 ++
      helperFunctions target name.name (classBodies target members)) :
    (equalitySignature name.name).head.fill p ≠ f.signature.head.fill p := by
  have hending := ending_equality name.name p
  simp only [methods, helperFunctions, List.drop_succ_cons, List.drop_zero, List.cons_append,
    List.nil_append, List.mem_cons, List.not_mem_nil, or_false] at h
  rcases h with rfl | rfl | rfl | rfl | rfl | rfl | rfl | rfl
  · -- `operator!=` differs in the operator alone
    intro heq
    have hchars := congrArg String.toList heq
    simp [fill_head, equalitySignature, Signature.resultText] at hchars
  · have hstring : "() const \x7b".toList <:+ ((⟨"std::string", name.name ++ "::ToString", [],
        true⟩ : Signature).head.fill p).toList := by
      rw [fill_head]
      exact ⟨("std::string " ++ p.scope ++ name.name ++ "::ToString").toList,
        by simp [Signature.resultText, Signature.constText, Signature.paramsLine, Line.fill,
          Line.empty, Code.fillPieces]⟩
    exact ne_of_endings hending hstring (by decide) (by decide)
  · have htext : ∀ params result const, " validate) \x7b".toList <:+ ((⟨result, const, params ++
        [⟨false, .plain "bool", "", "validate"⟩], false⟩ : Signature).head.fill p).toList :=
      fun params result const => ending_head p _ params _ rfl (by simp [Signature.constText])
    exact ne_of_endings hending (htext [_] _ _) (by decide) (by decide)
  · exact ne_of_endings hending (ending_init _ p) (by decide) (by decide)
  · exact ne_of_endings hending (ending_validate _ p) (by decide) (by decide)
  · exact ne_of_endings hending (ending_validateJson _ _ p) (by decide) (by decide)
  · exact ne_of_endings hending (ending_toJson _ _ p) (by decide) (by decide)
  · exact ne_of_endings hending (ending_jsonTo _ _ p) (by decide) (by decide)

theorem body?_equality :
    body? p ((classFragment target rawName name members).place p) (equalitySignature name.name) =
      some (bodyLines p (statements (equalityBody members))) :=
  body?_of_functions (f := ⟨equalitySignature name.name, statements (equalityBody members)⟩)
    ((methods target rawName name.name members).take 1)
    (place_definitions target rawName name members p) rfl (.inr rfl)
    fun _ hg => equalityHead_ne target rawName name members p hg

/-- The other helpers, each found by its head. `Init` is the only one without a result, and the rest
differ in their last parameters. -/
theorem body?_helpers :
    let code := (classFragment target rawName name members).place p
    let bodies := classBodies target members
    body? p code (initSignature name.name) = some (bodyLines p bodies.init) ∧
    body? p code (validateSignature name.name) = some (bodyLines p bodies.validate) ∧
    body? p code (validateJsonSignature target name.name) =
      some (bodyLines p bodies.validateJson) ∧
    body? p code (toJsonSignature target name.name) = some (bodyLines p bodies.toJson) ∧
    body? p code (jsonToSignature target name.name) = some (bodyLines p bodies.jsonTo) := by
  intro code bodies
  let own := methods target rawName name.name members
  let helpers := helperFunctions target name.name bodies
  have hcode := place_definitions target rawName name members p
  have hvalidate := ending_validate name.name p
  have hvalidateJson := ending_validateJson target name.name p
  have htoJson := ending_toJson target name.name p
  have hjsonTo := ending_jsonTo target name.name p
  have hvoid : ("void".toList.head? : Option Char) ≠ "bool".toList.head? := by decide
  refine ⟨?_, ?_, ?_, ?_, ?_⟩
  · refine body?_of_functions (f := ⟨_, bodies.init⟩) own hcode rfl (.inl rfl) fun g hg heq => ?_
    have hresult : g.signature.result = "bool" := by
      simp only [List.mem_cons, List.not_mem_nil, or_false] at hg
      rcases hg with rfl | rfl | rfl | rfl <;> rfl
    have hheads := congrArg (fun l => l.toList.head?) heq
    rw [head?_fill_head (.inl rfl), head?_fill_head (.inr hresult), hresult] at hheads
    exact hvoid hheads
  · refine body?_of_functions (f := ⟨_, bodies.validate⟩) (own ++ helpers.take 1) hcode rfl
      (.inr rfl) ?_
    simp only [List.forall_mem_cons]
    exact ⟨ne_of_endings hvalidate hvalidateJson (by decide) (by decide),
      ne_of_endings hvalidate htoJson (by decide) (by decide),
      ne_of_endings hvalidate hjsonTo (by decide) (by decide), List.forall_mem_nil _⟩
  · refine body?_of_functions (f := ⟨_, bodies.validateJson⟩) (own ++ helpers.take 2) hcode rfl
      (.inr rfl) ?_
    simp only [List.forall_mem_cons]
    exact ⟨ne_of_endings hvalidateJson htoJson (by decide) (by decide),
      ne_of_endings hvalidateJson hjsonTo (by decide) (by decide), List.forall_mem_nil _⟩
  · refine body?_of_functions (f := ⟨_, bodies.toJson⟩) (own ++ helpers.take 3) hcode rfl
      (.inr rfl) ?_
    simp only [List.forall_mem_cons]
    exact ⟨ne_of_endings htoJson hjsonTo (by decide) (by decide), List.forall_mem_nil _⟩
  · exact body?_of_functions (f := ⟨_, bodies.jsonTo⟩) (own ++ helpers.take 4) hcode rfl (.inr rfl)
      (List.forall_mem_nil _)

end Object

/-! ## The lines of the bodies -/

section Lines

variable (p : Placement) (m : Member)

theorem bodyLines_statements (stmts : List Stmt) :
    bodyLines p (statements stmts) = stmts.map fun s => "  " ++ s.line.fill p := by
  simp [bodyLines, statements, List.flatMap_map, Block.lines, ← List.map_eq_flatMap,
    Function.comp_def]

theorem line_discard (name : String) :
    "  " ++ (Stmt.discard name).line.fill p = "  (void)" ++ name ++ ";" := by
  apply String.toList_inj.mp
  simp [Stmt.line]

theorem line_accept : "  " ++ Stmt.accept.line.fill p = "  return true;" := by
  apply String.toList_inj.mp
  simp [Stmt.accept, Stmt.line, Expr.line, boolLiteral]

theorem line_equality :
    "  " ++ (Stmt.rejectIf (.binary .ne (.arrow .this m.name)
      (.dot (.var "other") m.name))).line.fill p = m.equalityEntry := by
  delta Member.equalityEntry
  apply String.toList_inj.mp
  simp [Stmt.rejectIf, Stmt.line, Expr.line, Expr.this, BinaryOp.sign, boolLiteral]

theorem fill_callHelper (h : Helper) (arguments : Expr) :
    (Expr.callHelper h m.owner arguments).line.fill p =
      m.emitted.name.helper h ++ "(" ++ arguments.line.fill p ++ ")" := by
  simp [Expr.callHelper, Expr.line, Owner.helperLine, Member.owner]

theorem line_init :
    "  " ++ (Stmt.evaluate (.callHelper .init m.owner m.pointer)).line.fill p = m.initEntry := by
  apply String.toList_inj.mp
  simp [Stmt.line, fill_callHelper, Member.pointer, Expr.line, Expr.val, Member.initEntry]

theorem line_validate :
    "  " ++ (Stmt.assign (.var "result") (.binary .and (.var "result")
      (.callHelper .validate m.owner m.ofValue))).line.fill p = m.validateEntry := by
  delta Member.validateEntry
  apply String.toList_inj.mp
  simp [Stmt.line, Expr.line, fill_callHelper, Member.ofValue, Expr.val, BinaryOp.sign]

theorem line_write :
    "  " ++ (Stmt.rejectIf (.not (.callHelper .toJson m.owner (.comma m.ofValue
      (.address (.index (.paren (.deref .json)) (.text m.name))))))).line.fill p =
      m.writeEntry := by
  apply String.toList_inj.mp
  simp [Stmt.rejectIf, Stmt.line, Expr.line, fill_callHelper, Member.ofValue, Expr.val, Expr.json,
    boolLiteral, Member.writeEntry, Member.writeFront]

theorem fill_check :
    (Stmt.rejectIf (.not (.callHelper .validate m.owner fieldValue))).line.fill p =
      m.checkBranch.action := by
  apply String.toList_inj.mp
  simp [Stmt.rejectIf, Stmt.line, Expr.line, fill_callHelper, fieldValue, Expr.ask, boolLiteral,
    Member.checkBranch]

theorem fill_read :
    (Stmt.rejectIf (.not (.callHelper .jsonTo m.owner (.comma fieldValue m.pointer)))).line.fill p =
      m.readBranch.action := by
  apply String.toList_inj.mp
  simp [Stmt.rejectIf, Stmt.line, Expr.line, fill_callHelper, fieldValue, Expr.ask, Expr.val,
    boolLiteral, Member.pointer, Member.readBranch]

end Lines

/-! ## Reading a chain -/

theorem literalIn?_stringLiteral (front back s : String) :
    literalIn? front back (front ++ stringLiteral s ++ back) = some s := by
  have hline : (front ++ stringLiteral s ++ back).toList =
      front.toList ++ ((stringLiteral s).toList ++ back.toList) := by
    rw [String.toList_append, String.toList_append, List.append_assoc]
  simp only [literalIn?, hline, behind?_append, lexString_stringLiteral, Option.bind_eq_bind,
    Option.bind_some, if_pos, textOf?_utf8]

/-- The two lines of a branch, as they stand in a function. -/
def Branch.lines (word : String) (b : Branch) : List String :=
  ["    " ++ word ++ " (it.key() == " ++ stringLiteral b.key ++ ") \x7b", "      " ++ b.action]

theorem fill_branchLines (p : Placement) (word key : String) (s : Stmt) :
    ((branchLines word (key, s)).map indentLine).map (fun l => "  " ++ l.fill p) =
      Branch.lines word ⟨key, s.line.fill p⟩ := by
  simp only [branchLines, Branch.lines, List.map_cons, List.map_nil, List.cons.injEq, and_true]
  constructor <;> apply String.toList_inj.mp
  · simp [indentLine, Code.indentUnit, Expr.line, Expr.ask, BinaryOp.sign]
  · simp [indentLine, Code.indentUnit]

theorem branch?_lines (word : String) (b : Branch) :
    branch? word ("    " ++ word ++ " (it.key() == " ++ stringLiteral b.key ++ ") \x7b")
      ("      " ++ b.action) = some b := by
  simp only [branch?, literalIn?_stringLiteral, String.toList_append, behind?_append,
    Option.bind_eq_bind, Option.bind_some, String.ofList_toList]

theorem elseBranches?_lines (branches : List Branch) :
    elseBranches? (branches.flatMap (Branch.lines "\x7d else if") ++ chainEnd) = some branches := by
  induction branches with
  | nil => decide
  | cons b branches ih =>
    have hne : ∀ rest, ("    " ++ "\x7d else if" ++ " (it.key() == " ++ stringLiteral b.key ++
        ") \x7b") :: rest ≠ chainEnd := by
      intro rest heq
      have hchars := congrArg String.toList (List.cons.inj heq).1
      simp at hchars
    rw [List.flatMap_cons, List.append_assoc, Branch.lines, List.cons_append, List.cons_append,
      List.nil_append, elseBranches?, if_neg (hne _), branch?_lines, ih]
    rfl

/-- The lines of a dispatch over members. -/
theorem bodyLines_dispatch (p : Placement) (action : Member → Stmt) (m : Member)
    (rest : List Member) :
    bodyLines p (dispatch action (m :: rest)) =
      "  if (!json.is_object()) return false;" ::
        "  for (auto it = json.begin(); it != json.end(); ++it) \x7b" ::
        (Branch.lines "if" ⟨m.name, (action m).line.fill p⟩ ++
          (rest.map fun r => (⟨r.name, (action r).line.fill p⟩ : Branch)).flatMap
            (Branch.lines "\x7d else if") ++ chainEnd) := by
  have hcheck : "  " ++ (Stmt.rejectIf (.not (Expr.json.ask "is_object"))).line.fill p =
      "  if (!json.is_object()) return false;" := by
    simp [Stmt.rejectIf, Stmt.line, Expr.line, Expr.ask, Expr.json, boolLiteral]
  have hrest : ((rest.map fun r => (r.name, action r)).flatMap
      (branchLines "\x7d else if")).map (fun l => "  " ++ (indentLine l).fill p) =
      (rest.map fun r => (⟨r.name, (action r).line.fill p⟩ : Branch)).flatMap
        (Branch.lines "\x7d else if") := by
    rw [List.map_flatMap, List.flatMap_map, List.flatMap_map]
    refine List.flatMap_congr fun r _ => ?_
    rw [← fill_branchLines, List.map_map]
    rfl
  have hfirst := fill_branchLines p "if" m.name (action m)
  rw [List.map_map] at hfirst
  have hend : [Line.ofText "\x7d else \x7b", indentLine (Stmt.leave (.bool false)).line,
      Line.ofText "\x7d"].map (fun l => "  " ++ (indentLine l).fill p) ++
        ["  " ++ (Line.ofText "\x7d").fill p, "  " ++ Stmt.accept.line.fill p] = chainEnd := by
    simp [indentLine, Code.indentUnit, Stmt.accept, Stmt.line, Expr.line, boolLiteral, chainEnd]
  rw [← hrest, ← hfirst, ← hend, ← hcheck]
  simp [bodyLines, dispatch, Block.lines, Function.comp_def]

/-- **Chains.** A dispatch is read as one branch per member. -/
theorem chain?_dispatch (p : Placement) (action : Member → Stmt) (members : List Member) :
    chain? (bodyLines p (dispatch action members)) =
      some (members.map fun m => ⟨m.name, (action m).line.fill p⟩) := by
  cases members with
  | nil =>
    have hline : bodyLines p (dispatch action []) =
        ["  return json.is_object() && json.empty();"] := by
      simp [bodyLines, dispatch, Block.lines, Stmt.line, Expr.line, Expr.ask, Expr.json,
        BinaryOp.sign]
    have hread : chain? ["  return json.is_object() && json.empty();"] = some [] := by decide
    rw [hline, hread, List.map_nil]
  | cons m rest =>
    have hdrop : ∀ lines : List String,
        ("  if (!json.is_object()) return false;" :: lines).dropWhile (· = "  (void)val;") =
          "  if (!json.is_object()) return false;" :: lines := by
      intro lines
      rw [List.dropWhile_cons_of_neg (by decide)]
    have hfirst := branch?_lines "if" ⟨m.name, (action m).line.fill p⟩
    rw [bodyLines_dispatch, Branch.lines, chain?, hdrop]
    simp only [List.cons_append, List.nil_append, hfirst, elseBranches?_lines,
      Option.bind_eq_bind, Option.bind_some, and_self, if_true, List.map_cons]

theorem chain?_discard (body : List String) : chain? ("  (void)val;" :: body) = chain? body := by
  rw [chain?, List.dropWhile_cons_of_pos (by decide), ← chain?]

/-! ## Selection -/

/-- Among branches with different keys, a branch is selected by its key. -/
theorem selected?_of_mem {branches : List Branch} (hnodup : (branches.map Branch.key).Nodup)
    {b : Branch} (hb : b ∈ branches) : selected? branches b.key = some b.action := by
  induction branches with
  | nil => cases hb
  | cons first rest ih =>
    obtain ⟨hfirst, hrest⟩ := List.nodup_cons.mp hnodup
    rcases List.mem_cons.mp hb with rfl | hb
    · rw [selected?, List.find?_cons_of_pos (by simp), Option.map_some]
    · have hne : first.key ≠ b.key := fun h => hfirst (h ▸ List.mem_map_of_mem hb)
      rw [selected?, List.find?_cons_of_neg (by simpa using hne), ← selected?, ih hrest hb]

theorem selected?_of_not_mem {branches : List Branch} {key : String}
    (h : key ∉ branches.map Branch.key) : selected? branches key = none := by
  rw [selected?, Option.map_eq_none_iff, List.find?_eq_none]
  intro b hb
  simp only [decide_eq_true_eq]
  rintro rfl
  exact h (List.mem_map_of_mem hb)

/-! ## The code of an object -/

section Code

variable (target : Target) (rawName : String) (name : QualifiedName) (members : List Member)
variable (p : Placement)

theorem indent_dataEntry (m : Member) :
    Code.indent 1 (m.emitted.name.absolute target.namespaces ++ " " ++ m.name ++ ";") =
      m.dataEntry target := by
  rw [indent_of_ne (by simp), Member.dataEntry]
  simp only [String.append_assoc]
  rfl

theorem indent_hook (type : String) :
    Code.indent 1 ("std::function<bool(const " ++ type ++ " &, const " ++ type ++
      " &)> pre_update;") = hookLine type := by
  delta hookLine
  rw [indent_of_ne (by simp)]
  apply String.toList_inj.mp
  simp [Code.indentation, Code.indentUnit]

/-- The data members of a class stand between the last empty line and the hook. -/
theorem place_declarations :
    ∃ front, ((classFragment target rawName name members).place p).declarations =
      front ++ "" :: (members.map (Member.dataEntry target) ++ hookLine name.name ::
        "\x7d;" :: (prototypes target name.name).map (Line.fill p)) := by
  let placed := members.map fun m => m.emitted.fragment.place (memberPlacement name)
  let nested := placed.flatMap PlacedFragment.forward ++ placed.flatMap PlacedFragment.declarations
  refine ⟨("class " ++ name.name ++ " \x7b") :: " public:" ::
    (nested ++ (if nested.isEmpty then [] else [""]) ++ methodDeclarations name.name).map
      (Code.indent 1), ?_⟩
  have hempty : Code.indent 1 "" = "" := rfl
  simp [classFragment, Code.Fragment.place, classLines, dataMembers, ← indent_hook,
    ← indent_dataEntry, nested, placed, hempty, Function.comp_def]

theorem block?_dataMembers :
    block? "" (hookLine name.name)
        ((classFragment target rawName name members).place p).declarations =
      some (members.map (Member.dataEntry target)) := by
  have hentry : ∀ m : Member, (m.dataEntry target).toList.take 3 = [' ', ' ', ':'] := by
    intro m
    simp [Member.dataEntry, QualifiedName.absolute]
  have hhook : (hookLine name.name).toList.take 3 = [' ', ' ', 's'] := by
    delta hookLine
    simp
  obtain ⟨front, hlines⟩ := place_declarations target rawName name members p
  rw [hlines]
  refine block?_eq ?_ ?_ ?_ ?_
  · intro hmem
    obtain ⟨m, -, heq⟩ := List.mem_map.mp hmem
    have htake := hentry m
    rw [heq] at htake
    cases htake
  · intro hmem
    obtain ⟨m, -, heq⟩ := List.mem_map.mp hmem
    have htake := hentry m
    rw [heq, hhook] at htake
    exact absurd htake (by decide)
  · intro heq
    rw [← heq] at hhook
    cases hhook
  · intro hmem
    rcases List.mem_cons.mp hmem with h | hmem
    · exact absurd h (by decide)
    · obtain ⟨line, hline, heq⟩ := List.mem_map.mp hmem
      obtain ⟨signature, -, rfl⟩ := List.mem_map.mp hline
      simp [fill_prototype] at heq

/-- The mark of a parameter that is not used stands in the bodies of objects without members. -/
theorem lines_unused (parameter : String) :
    (if members.isEmpty then [Stmt.discard parameter] else []).map
      (fun s => "  " ++ s.line.fill p) =
        if members.isEmpty then ["  (void)" ++ parameter ++ ";"] else [] := by
  split
  · rw [List.map_singleton, line_discard]
  · rfl

theorem bodyLines_validate :
    bodyLines p (classBodies target members).validate =
      if members.isEmpty then ["  (void)val;", "  return true;"]
      else "  bool result = true;" :: members.map Member.validateEntry ++ ["  return result;"] := by
  have hdeclare : "  " ++ (Stmt.declare (.plain "bool") "result" (.bool true)).line.fill p =
      "  bool result = true;" := by
    simp [Stmt.line, TypeName.line, Expr.line, boolLiteral]
  have hleave : "  " ++ (Stmt.leave (.var "result")).line.fill p = "  return result;" := by
    simp [Stmt.line, Expr.line]
  rw [classBodies, bodyLines_statements, conjunction, List.isEmpty_map]
  split
  · rw [List.map_cons, List.map_singleton, line_discard, line_accept]
    rfl
  · rw [List.map_append, List.map_cons, List.map_singleton, List.map_map, List.map_map, hdeclare,
      hleave]
    simp only [Function.comp_def, line_validate]

theorem bodyLines_toJson :
    bodyLines p (classBodies target members).toJson =
      (if members.isEmpty then ["  (void)val;"] else []) ++
        ("  *json = " ++ target.jsonType ++ "::object();") :: members.map Member.writeEntry ++
        ["  return true;"] := by
  have hobject : "  " ++ (Stmt.assign (.deref .json) (.call0 (.static (.plain target.jsonType)
      "object"))).line.fill p = "  *json = " ++ target.jsonType ++ "::object();" := by
    apply String.toList_inj.mp
    simp [Stmt.line, Expr.line, Expr.json, TypeName.line]
  rw [classBodies, bodyLines_statements, List.map_append, List.map_append, List.map_cons,
    unusedValue, lines_unused, hobject, List.map_map, List.map_singleton, line_accept]
  simp only [Function.comp_def, line_write]
  rfl

theorem chain?_jsonTo :
    chain? (bodyLines p (classBodies target members).jsonTo) =
      some (members.map Member.readBranch) := by
  let action : Member → Stmt := fun m =>
    .rejectIf (.not (.callHelper .jsonTo m.owner (.comma fieldValue m.pointer)))
  have hbody : bodyLines p (classBodies target members).jsonTo =
      (if members.isEmpty then ["  (void)val;"] else []) ++
        bodyLines p (dispatch action members) := by
    have hunused := lines_unused members p "val"
    rw [← unusedValue, ← bodyLines_statements] at hunused
    rw [classBodies, bodyLines, List.flatMap_append, List.map_append]
    exact congrArg (· ++ _) hunused
  have hchain : chain? (bodyLines p (classBodies target members).jsonTo) =
      chain? (bodyLines p (dispatch action members)) := by
    rw [hbody]
    split
    · exact chain?_discard _
    · rfl
  rw [hchain, chain?_dispatch]
  exact congrArg some (List.map_congr_left fun m _ => by rw [fill_read]; rfl)

/-- The code of an object has the entries of its members. -/
theorem hasEntries_classFragment :
    HasEntries target name.name p members
      ((classFragment target rawName name members).place p) := by
  obtain ⟨hinit, hvalidate, hvalidateJson, htoJson, hjsonTo⟩ :=
    body?_helpers target rawName name members p
  constructor
  · exact block?_dataMembers target rawName name members p
  · rw [body?_equality, bodyLines_statements, equalityBody, List.map_append, List.map_append,
      lines_unused, List.map_map, List.map_singleton, line_accept]
    simp only [Function.comp_def, line_equality]
    rfl
  · rw [hinit, classBodies, bodyLines_statements, List.map_append, unusedValue, lines_unused,
      List.map_map]
    simp only [Function.comp_def, line_init]
    rfl
  · rw [hvalidate, bodyLines_validate]
  · rw [htoJson, bodyLines_toJson]
  · rw [hvalidateJson, Option.bind_some, classBodies, chain?_dispatch]
    exact congrArg some (List.map_congr_left fun m _ => by rw [fill_check]; rfl)
  · rw [hjsonTo, Option.bind_some, chain?_jsonTo]

end Code

/-- **Encoding and decoding.** The code of an object has one entry per member, in the order of the
members, in each of the seven places. Where the members have different names, both chains over JSON
fields take the action of a member for a key exactly if the key is the member's name, and refuse
every other key; and `ToJson` writes exactly the keys that decoding accepts, in the same order. -/
theorem object_entries_agree (target : Target) (rawName : String) (name : QualifiedName)
    {members : List Member} (hnodup : (members.map Member.name).Nodup) (p : Placement) :
    let code := (classFragment target rawName name members).place p
    HasEntries target name.name p members code ∧
    ∃ checks reads,
      (body? p code (validateJsonSignature target name.name)).bind chain? = some checks ∧
      (body? p code (jsonToSignature target name.name)).bind chain? = some reads ∧
      (∀ m ∈ members, selected? checks m.name = some m.checkBranch.action ∧
        selected? reads m.name = some m.readBranch.action) ∧
      (∀ key ∉ members.map Member.name,
        selected? checks key = none ∧ selected? reads key = none) ∧
      checks.map Branch.key = reads.map Branch.key ∧
      List.zipWith Member.writtenKey? members (members.map Member.writeEntry) =
        reads.map fun b => some b.key := by
  intro code
  have hentries := hasEntries_classFragment target rawName name members p
  have hchecks : (members.map Member.checkBranch).map Branch.key = members.map Member.name :=
    List.map_map
  have hreads : (members.map Member.readBranch).map Branch.key = members.map Member.name :=
    List.map_map
  refine ⟨hentries, _, _, hentries.validateJson, hentries.jsonTo, ?_, ?_, ?_, ?_⟩
  · intro m hm
    exact ⟨selected?_of_mem (hchecks ▸ hnodup) (List.mem_map_of_mem hm),
      selected?_of_mem (hreads ▸ hnodup) (List.mem_map_of_mem hm)⟩
  · intro key hkey
    exact ⟨selected?_of_not_mem (hchecks ▸ hkey), selected?_of_not_mem (hreads ▸ hkey)⟩
  · rw [hchecks, hreads]
  · have hwritten : ∀ m : Member, m.writtenKey? m.writeEntry = some m.name :=
      fun m => literalIn?_stringLiteral _ _ _
    rw [List.zipWith_map_right, List.zipWith_self, List.map_map]
    exact List.map_congr_left fun m _ => hwritten m

/-- Two members, one of them with quotes in its name. -/
def quotedExample : List Member :=
  [⟨"port", ⟨.empty, ⟨["Outer"], "Port"⟩⟩⟩, ⟨"say \"hi\"", ⟨.empty, ⟨["Outer"], "Greeting"⟩⟩⟩]

theorem quotedExample_selected :
    (quotedExample.map Member.name).Nodup ∧
    ∃ reads, (body? .topLevel ((classFragment ⟨"nlohmann::json", ["cfg"]⟩ "outer" ⟨[], "Outer"⟩
        quotedExample).place .topLevel)
          (jsonToSignature ⟨"nlohmann::json", ["cfg"]⟩ "Outer")).bind chain? = some reads ∧
      selected? reads "say \"hi\"" =
        some "if (!Outer::JsonToGreeting(it.value(), &val->say \"hi\")) return false;" ∧
      selected? reads "say hi" = none := by
  have hnodup : (quotedExample.map Member.name).Nodup := by decide
  obtain ⟨-, checks, reads, -, hreads, hmember, hother, -, -⟩ :=
    object_entries_agree ⟨"nlohmann::json", ["cfg"]⟩ "outer" ⟨[], "Outer"⟩ hnodup .topLevel
  refine ⟨hnodup, reads, hreads, ?_, (hother "say hi" (by decide)).2⟩
  have haction : (Member.readBranch ⟨"say \"hi\"", ⟨.empty, ⟨["Outer"], "Greeting"⟩⟩⟩).action =
      "if (!Outer::JsonToGreeting(it.value(), &val->say \"hi\")) return false;" := by decide
  rw [← haction]
  exact (hmember ⟨"say \"hi\"", ⟨.empty, ⟨["Outer"], "Greeting"⟩⟩⟩ (by simp [quotedExample])).2

end ConfigForge.Emit
