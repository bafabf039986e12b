import ConfigForge.Proofs.CompleteMembers
import ConfigForge.Proofs.CompletionOrder
import ConfigForge.Proofs.Locality
import ConfigForge.Proofs.Mentions

/-!
# Heads and prototypes in full

The code of a type is written before it is known which classes stand around it, and the slots for
them are filled level by level. The outcome is the same as if every function had been written with
the qualified name of its type in hand, one type after the other in the postorder of the entry:
first the types below a node, then the node. References add nothing.

Results:

* `filter_isHead_functions`: the heads of the functions of a node, in full.
* `filter_isHead_definitions`: the heads in the definitions of a node.
* `prototypes_declarations`: the prototypes in the declarations of a node, those of a type together.
* `heads_and_prototypes_in_postorder`: the same for every entry of a schema.
-/

namespace ConfigForge

open Code (Line Placement PlacedFragment Fragment)
open Emit Cpp

/-! ## Heads and prototypes with qualified names -/

/-- A helper of a type as it is written: its result, which helper it is, and its parameters. -/
structure HelperText where
  result : String
  helper : Helper
  params : String

/-- The helpers of a type, in the order in which they are written. -/
def helperTexts (jsonType : String) (q : QualifiedName) : List HelperText :=
  [⟨"void", .init, q.typePath ++ " *val"⟩,
    ⟨"bool", .validate, "const " ++ q.typePath ++ " &val"⟩,
    ⟨"bool", .validate, "const " ++ jsonType ++ " &json"⟩,
    ⟨"bool", .toJson, "const " ++ q.typePath ++ " &val, " ++ jsonType ++ " *json"⟩,
    ⟨"bool", .jsonTo, "const " ++ jsonType ++ " &json, " ++ q.typePath ++ " *val"⟩]

/-- The heads of the helpers of a type. -/
def helperHeads (jsonType : String) (q : QualifiedName) : List String :=
  (helperTexts jsonType q).map fun t =>
    t.result ++ " " ++ q.helper t.helper ++ "(" ++ t.params ++ ") \x7b"

/-- The heads of the methods of a class. -/
def methodHeads (q : QualifiedName) : List String :=
  [q.typePath ++ "::" ++ q.name ++ "() \x7b",
    "bool " ++ q.typePath ++ "::operator==(const " ++ q.typePath ++ " &other) const \x7b",
    "bool " ++ q.typePath ++ "::operator!=(const " ++ q.typePath ++ " &other) const \x7b",
    "std::string " ++ q.typePath ++ "::ToString() const \x7b",
    "bool " ++ q.typePath ++ "::FromString(const std::string &text, bool validate) \x7b"]

/-- The heads of the functions of a node that is no reference. -/
def Place.heads (jsonType : String) (p : Place) : List String :=
  (if p.node.isObject then methodHeads p.type else []) ++ helperHeads jsonType p.type

/-- The prototypes of the helpers of a type, as they stand in the declarations of an entry. -/
def prototypeLines (jsonType : String) (q : QualifiedName) : List String :=
  (helperTexts jsonType q).map fun t =>
    String.ofList (List.replicate (2 * q.scope.length) ' ') ++
      (if q.scope = [] then "" else "static ") ++
      t.result ++ " " ++ t.helper.name q.name ++ "(" ++ t.params ++ ");"

/-- Whether a line is the head of a function: it starts in the first column and ends with a brace. -/
def isHead (line : String) : Bool :=
  line.toList.head?.any (· ≠ ' ') && line.toList.getLast? == some '\x7b'

/-- Whether a line is the prototype of a helper: its first word is `static`, or it is not indented and
its first word is `void` or `bool`. -/
def isPrototype (line : String) : Bool :=
  (words line).head? == some "static" ||
    (bare line == line && ((words line).head? == some "void" || (words line).head? == some "bool"))

/-! ## Signatures -/

section

variable (target : Target) (q : QualifiedName)

theorem fill_valuePointer :
    (valuePointer q.name).line.fill (scopePlacement q.scope) = q.typePath ++ " *val" := by
  simp [valuePointer, Param.line, TypeName.line, Owner.typeLine, Placement.value,
    scopePlacement_scope, QualifiedName.typePath, QualifiedName.scopeText]

theorem fill_valueReference :
    (valueReference q.name).line.fill (scopePlacement q.scope) =
      "const " ++ q.typePath ++ " &val" := by
  simp [valueReference, Param.line, TypeName.line, Owner.typeLine, Placement.value,
    scopePlacement_scope, QualifiedName.typePath, QualifiedName.scopeText, String.append_assoc]

theorem fill_otherParam :
    (otherParam q.name).line.fill (scopePlacement q.scope) =
      "const " ++ q.typePath ++ " &other" := by
  simp [otherParam, Param.line, TypeName.line, Owner.typeLine, Placement.value,
    scopePlacement_scope, QualifiedName.typePath, QualifiedName.scopeText, String.append_assoc]

theorem fill_jsonPointer (p : Placement) :
    (jsonPointer target).line.fill p = target.jsonType ++ " *json" := by
  simp [jsonPointer, Param.line, TypeName.line]

theorem fill_jsonReference (p : Placement) :
    (jsonReference target).line.fill p = "const " ++ target.jsonType ++ " &json" := by
  simp [jsonReference, Param.line, TypeName.line, String.append_assoc]

/-- The signatures of the helpers, filled, are the helpers as they are written in full. -/
theorem map_signatures (text : String → String → String → String → String) :
    (signatures target q.name).map (fun s => text s.resultText s.name
        ((Signature.paramsLine s.params).fill (scopePlacement q.scope)) s.constText) =
      (helperTexts target.jsonType q).map fun t =>
        text (t.result ++ " ") (t.helper.name q.name) t.params "" := by
  have hvoid : ∀ name params, (⟨"void", name, params, false⟩ : Signature).resultText = "void" ++ " " :=
    fun _ _ => if_neg (show "void" ≠ "" by decide)
  have hbool : ∀ name params, (⟨"bool", name, params, false⟩ : Signature).resultText = "bool" ++ " " :=
    fun _ _ => if_neg (show "bool" ≠ "" by decide)
  have hval : " &val, " = " &val" ++ ", " := by decide
  have hjson : " &json, " = " &json" ++ ", " := by decide
  rw [helperTexts, hval, hjson]
  simp only [signatures, initSignature, validateSignature, validateJsonSignature, toJsonSignature,
    jsonToSignature, List.map_cons, List.map_nil, hvoid, hbool, Signature.paramsLine,
    List.foldl_cons, List.foldl_nil, Line.fill_append, Line.fill_text, fill_valuePointer,
    fill_valueReference, fill_jsonPointer, fill_jsonReference, Signature.constText,
    String.append_assoc, Bool.false_eq_true, if_false]

/-- The heads of the helpers, in full. -/
theorem helperHeads_eq :
    (signatures target q.name).map (fun s => s.head.fill (scopePlacement q.scope)) =
      helperHeads target.jsonType q := by
  have hclose : ") \x7b" = ")" ++ "" ++ " \x7b" := by decide
  simp only [fill_head]
  rw [map_signatures target q fun result name params const =>
      result ++ (scopePlacement q.scope).scope ++ name ++ "(" ++ params ++ ")" ++ const ++ " \x7b",
    helperHeads, hclose]
  refine List.map_congr_left fun t _ => ?_
  simp only [scopePlacement_scope, QualifiedName.helper, QualifiedName.scopeText,
    String.append_assoc, -String.reduceAppend]

theorem indentation_eq (levels : Nat) :
    Code.indentation levels = String.ofList (List.replicate (2 * levels) ' ') := by
  induction levels with
  | zero => rfl
  | succ levels ih =>
    rw [Code.indentation, ih, Nat.mul_succ, Nat.add_comm, List.replicate_add, String.ofList_append]
    rfl

theorem indent_of_ne {line : String} (h : line ≠ "") {levels : Nat} :
    Code.indent levels line = Code.indentation levels ++ line :=
  if_neg h

theorem scopePlacement_storage (scope : List String) :
    (scopePlacement scope).storage = if scope = [] then "" else "static " := by
  cases scope <;> rfl

/-- The prototypes of the helpers, in full. -/
theorem prototypeLines_eq :
    ((prototypes target q.name).map (Line.fill (scopePlacement q.scope))).map
        (Code.indent q.scope.length) = prototypeLines target.jsonType q := by
  have hindent : ∀ s : Signature,
      Code.indent q.scope.length (s.prototype.fill (scopePlacement q.scope)) =
        Code.indentation q.scope.length ++ s.prototype.fill (scopePlacement q.scope) := by
    intro s
    refine indent_of_ne fun hempty => ?_
    have hlast := congrArg (fun line => line.toList.getLast?) hempty
    rw [fill_prototype] at hlast
    simp [String.toList_append] at hlast
  have hclose : ");" = ")" ++ "" ++ ";" := by decide
  rw [prototypes, List.map_map, List.map_map, prototypeLines, hclose]
  simp only [Function.comp_def, hindent]
  simp only [fill_prototype]
  rw [map_signatures target q fun result name params const =>
    Code.indentation q.scope.length ++ ((scopePlacement q.scope).storage ++ result ++ name ++ "(" ++
      params ++ ")" ++ const ++ ";")]
  refine List.map_congr_left fun t _ => ?_
  simp only [scopePlacement_storage, indentation_eq, String.append_assoc, -String.reduceAppend]

/-- The heads of the methods, in full. -/
theorem methodHeads_eq (rawName : String) (members : List Member) :
    (methods target rawName q.name members).map
        (fun f => f.signature.head.fill (scopePlacement q.scope)) = methodHeads q := by
  have hnone : ∀ name params isConst, (⟨"", name, params, isConst⟩ : Signature).resultText = "" :=
    fun _ _ _ => if_pos rfl
  have hbool : ∀ name params isConst,
      (⟨"bool", name, params, isConst⟩ : Signature).resultText = "bool " :=
    fun _ _ _ => if_neg (show "bool" ≠ "" by decide)
  have hstring : ∀ name params isConst,
      (⟨"std::string", name, params, isConst⟩ : Signature).resultText = "std::string " :=
    fun _ _ _ => if_neg (show "std::string" ≠ "" by decide)
  have hother : (Signature.paramsLine [otherParam q.name]).fill (scopePlacement q.scope) =
      "const " ++ q.typePath ++ " &other" := fill_otherParam q
  have hempty : (Signature.paramsLine []).fill (scopePlacement q.scope) = "" := rfl
  have htext : (Signature.paramsLine [⟨true, .plain "std::string", "&", "text"⟩,
      ⟨false, .plain "bool", "", "validate"⟩]).fill (scopePlacement q.scope) =
        "const std::string &text, bool validate" := by
    simp [Signature.paramsLine, Param.line, TypeName.line]
  simp only [methods, List.map_cons, List.map_nil, fill_head, hnone, hbool, hstring, hother, hempty,
    htext, scopePlacement_scope, Signature.constText, Bool.false_eq_true, if_false, if_true,
    methodHeads]
  simp only [QualifiedName.typePath, QualifiedName.scopeText, List.cons.injEq, and_true]
  refine ⟨?_, ?_, ?_, ?_, ?_⟩
  all_goals exact String.toList_inj.mp (by simp)

end

/-! ## Heads among lines -/

theorem isHead_append {front : String} (hne : front ≠ "") (hblank : ' ' ∉ front.toList)
    (rest : String) : isHead (front ++ rest ++ " \x7b") = true := by
  cases hchars : front.toList with
  | nil => exact absurd (String.toList_eq_nil_iff.mp hchars) hne
  | cons c cs =>
    rw [hchars, List.mem_cons, not_or] at hblank
    have hfirst : (front ++ rest ++ " \x7b").toList.head? = some c := by
      simp [String.toList_append, hchars]
    have hend : (" \x7b" : String).toList = [' '] ++ ['\x7b'] := by decide
    have hlast : (front ++ rest ++ " \x7b").toList.getLast? = some '\x7b' := by
      rw [String.toList_append, hend, ← List.append_assoc, List.getLast?_concat]
    rw [isHead, hfirst, hlast]
    simp [Ne.symm hblank.1]

/-- A head starts in the first column and ends with a brace. -/
theorem isHead_fill_head {s : Signature} {p : Placement} (hresult : ' ' ∉ s.result.toList)
    (hscope : ' ' ∉ p.scope.toList) (hname : ' ' ∉ s.name.toList) :
    isHead (s.head.fill p) = true := by
  rw [fill_head, Signature.resultText]
  by_cases hempty : s.result = ""
  · -- A constructor has no result: its head starts with its name.
    have hne : p.scope ++ s.name ++ "(" ≠ "" := fun h => by
      have hlength := congrArg String.length h
      simp [String.length_append] at hlength
    have hblank : ' ' ∉ (p.scope ++ s.name ++ "(").toList := by
      simp [String.toList_append, hscope, hname]
    have hhead := isHead_append hne hblank
      ((Signature.paramsLine s.params).fill p ++ ")" ++ s.constText)
    rw [if_pos hempty, String.empty_append]
    simpa only [String.append_assoc] using hhead
  · have hhead := isHead_append hempty hresult (" " ++ p.scope ++ s.name ++ "(" ++
      (Signature.paramsLine s.params).fill p ++ ")" ++ s.constText)
    rw [if_neg hempty]
    simpa only [String.append_assoc] using hhead

theorem isHead_indentLine (l : Line) (p : Placement) :
    isHead ((indentLine l).fill p) = false := by
  have hchars : ((indentLine l).fill p).toList = ' ' :: ' ' :: (l.fill p).toList := by
    simp [indentLine, Code.indentUnit, String.toList_append]
  rw [isHead, hchars]
  simp

/-- The only head in a definition is its own. -/
theorem filter_isHead_lines {f : Function} {p : Placement}
    (h : isHead (f.signature.head.fill p) = true) :
    (f.lines.map (Line.fill p)).filter isHead = [f.signature.head.fill p] := by
  have hend : ([Line.ofText "\x7d", Line.empty].map (Line.fill p)).filter isHead = [] := by
    rw [List.map_cons, List.map_singleton, Line.fill_ofText, show Line.empty.fill p = "" from rfl]
    decide
  have hbody : (((f.body.flatMap Block.lines).map indentLine).map (Line.fill p)).filter isHead =
      [] := by
    rw [List.filter_eq_nil_iff]
    intro l hl
    obtain ⟨line, hline, rfl⟩ := List.mem_map.mp hl
    obtain ⟨line, -, rfl⟩ := List.mem_map.mp hline
    rw [isHead_indentLine]
    exact Bool.false_ne_true
  rw [Function.lines, List.map_append, List.map_cons, List.filter_append, List.filter_cons, if_pos h,
    hbody, hend, List.append_nil]

theorem signature_of_mem_helperFunctions {target : Target} {type : String} {bodies : HelperBodies}
    {f : Function} (h : f ∈ helperFunctions target type bodies) :
    f.signature ∈ signatures target type :=
  List.mem_map_of_mem h

/-- No function has a blank in its result or its name. -/
theorem blank_not_mem_signature {target : Target} {type : String} (hblank : ' ' ∉ type.toList)
    {s : Signature} (h : s ∈ signatures target type) :
    ' ' ∉ s.result.toList ∧ ' ' ∉ s.name.toList := by
  simp only [signatures, List.mem_cons, List.not_mem_nil, or_false] at h
  rcases h with rfl | rfl | rfl | rfl | rfl
  all_goals
    simp [initSignature, validateSignature, validateJsonSignature, toJsonSignature, jsonToSignature,
      Helper.name, String.toList_append, hblank]

theorem blank_not_mem_method {target : Target} {rawName type : String} {members : List Member}
    (hblank : ' ' ∉ type.toList) {f : Function} (h : f ∈ methods target rawName type members) :
    ' ' ∉ f.signature.result.toList ∧ ' ' ∉ f.signature.name.toList := by
  simp only [methods, List.mem_cons, List.not_mem_nil, or_false] at h
  rcases h with rfl | rfl | rfl | rfl | rfl
  all_goals simp [String.toList_append, hblank]

/-- **Heads of a node.** The heads of the functions of a node are those written in full. -/
theorem filter_isHead_functions {target : Target} {p : Place}
    (hblank : ∀ c ∈ p.classPath, ' ' ∉ c.toList) :
    ((p.functions target).flatMap GeneratedFunction.lines).filter isHead =
      if p.node.isReference then [] else p.heads target.jsonType := by
  have htype : ' ' ∉ p.type.name.toList :=
    hblank _ (List.mem_append_right _ (List.mem_singleton.mpr rfl))
  have hscope : ' ' ∉ (scopePlacement p.scope).scope.toList := by
    rw [scopePlacement_scope]
    exact not_mem_qualification (by decide) fun c hc => hblank c (List.mem_append_left _ hc)
  -- One head for each function.
  have hone : ∀ fs : List Function,
      (∀ f ∈ fs, ' ' ∉ f.signature.result.toList ∧ ' ' ∉ f.signature.name.toList) →
      ((fs.flatMap Function.lines).map (Line.fill (scopePlacement p.scope))).filter isHead =
        fs.map fun f => f.signature.head.fill (scopePlacement p.scope) := by
    intro fs hfs
    rw [List.map_flatMap, List.filter_flatMap, List.map_eq_flatMap]
    refine List.flatMap_congr fun f hf => filter_isHead_lines ?_
    exact isHead_fill_head (hfs f hf).1 hscope (hfs f hf).2
  have hhelpers : ∀ bodies, (helperFunctions target p.type.name bodies).map
      (fun f => f.signature.head.fill (scopePlacement p.scope)) =
        helperHeads target.jsonType p.type := fun bodies => helperHeads_eq target p.type
  have hmethods : ∀ members, (methods target p.name p.type.name members).map
      (fun f => f.signature.head.fill (scopePlacement p.scope)) = methodHeads p.type :=
    fun members => methodHeads_eq target p.type p.name members
  have hblanks : ∀ bodies, ∀ f ∈ helperFunctions target p.type.name bodies,
      ' ' ∉ f.signature.result.toList ∧ ' ' ∉ f.signature.name.toList := fun bodies f hf =>
    blank_not_mem_signature htype (signature_of_mem_helperFunctions hf)
  rw [flatMap_functions_lines]
  cases hnode : p.node with
  | scalar s =>
    simp only [Place.methods, Place.bodies?, hnode, Option.toList_some, List.flatMap_singleton,
      List.nil_append, Place.heads, Node.isObject, Node.isReference, Bool.false_eq_true, if_false]
    rw [hone _ (hblanks _), hhelpers]
  | array item bounds =>
    simp only [Place.methods, Place.bodies?, hnode, Option.toList_some, List.flatMap_singleton,
      List.nil_append, Place.heads, Node.isObject, Node.isReference, Bool.false_eq_true, if_false]
    rw [hone _ (hblanks _), hhelpers]
  | object members =>
    simp only [Place.methods, Place.bodies?, hnode, Option.toList_some, List.flatMap_singleton,
      Place.heads, Node.isObject, Node.isReference, Bool.false_eq_true, if_false, if_true]
    rw [hone, List.map_append, hmethods, hhelpers]
    intro f hf
    rcases List.mem_append.mp hf with hf | hf
    · exact blank_not_mem_method htype hf
    · exact hblanks _ f hf
  | reference r =>
    simp [Place.methods, Place.bodies?, hnode, Node.isReference]

theorem flatMap_declaring {α : Type} (places : List Place) (g : Place → List α) :
    (declaring places).flatMap g = places.flatMap fun p => if p.node.isReference then [] else g p := by
  induction places with
  | nil => rfl
  | cons p rest ih =>
    rw [List.flatMap_cons, ← ih, declaring, List.filter_cons]
    cases p.node.isReference <;> rfl

/-- **Heads of a tree.** The heads in the definitions of a node are those of the nodes that declare
types, in postorder. -/
theorem filter_isHead_definitions {target : Target} {around : List String} {name : String}
    {node : Node}
    (hblank : ∀ q, (⟨around, name, node⟩ : Place).Has q → ∀ c ∈ q.classPath, ' ' ∉ c.toList) :
    ((node.emit target around name).fragment.place
        (scopePlacement (around.map typeName))).definitions.filter isHead =
      (declaring (node.postorder around name)).flatMap (Place.heads target.jsonType) := by
  rw [definitions_eq, List.filter_flatMap, flatMap_declaring]
  refine List.flatMap_congr fun q hq => ?_
  exact filter_isHead_functions (hblank q (Node.mem_postorder_iff.mp hq))

/-! ## Prototypes among lines -/

theorem indent_indent (levels more : Nat) (line : String) :
    Code.indent levels (Code.indent more line) = Code.indent (levels + more) line := by
  by_cases hempty : line = ""
  · simp [Code.indent, hempty]
  · have hsum : Code.indentation (levels + more) =
        Code.indentation levels ++ Code.indentation more := by
      rw [indentation_eq, indentation_eq, indentation_eq, Nat.mul_add, List.replicate_add,
        String.ofList_append]
    have hne : Code.indentation more ++ line ≠ "" := by
      rw [ne_eq, String.append_eq_empty_iff]
      exact fun h => hempty h.2
    rw [indent_of_ne hempty, indent_of_ne hne, indent_of_ne hempty, hsum, String.append_assoc]

/-- The first word of a prototype. -/
theorem isPrototype_cases {line : String} (h : isPrototype line = true) :
    (words line).head? = some "static" ∨ (words line).head? = some "void" ∨
      (words line).head? = some "bool" := by
  simp only [isPrototype, Bool.or_eq_true, Bool.and_eq_true, beq_iff_eq] at h
  exact h.imp_right And.right

theorem not_isPrototype_indent {line : String}
    (h : (words line).head? ∉ [some "static", some "void", some "bool"]) (levels : Nat) :
    isPrototype (Code.indent levels line) = false := by
  rw [← Bool.not_eq_true]
  intro hprototype
  have hcases := isPrototype_cases hprototype
  rw [words_indent] at hcases
  exact h (by simpa using hcases)

/-- A line that opens or closes a class or declares a type is no prototype. -/
theorem not_isPrototype_of_mark {line : String} (h : Mark.read line ≠ .plain) (levels : Nat) :
    isPrototype (Code.indent levels line) = false := by
  refine not_isPrototype_indent (fun hmem => h ?_) levels
  cases hwords : words line with
  | nil => rw [hwords] at hmem; simp at hmem
  | cons first rest =>
    rw [hwords] at hmem
    rw [Mark.read, hwords]
    simp only [List.head?_cons, List.mem_cons, Option.some.injEq, List.not_mem_nil, or_false] at hmem
    rcases hmem with rfl | rfl | rfl
    all_goals exact Mark.ofWords_plain (by decide) (by decide) (by decide)

theorem bare_indent_ne {line : String} (h : line ≠ "") (levels : Nat) :
    bare (Code.indent (levels + 1) line) ≠ Code.indent (levels + 1) line := by
  have hchars : (Code.indent (levels + 1) line).toList =
      ' ' :: ' ' :: (Code.indentation levels ++ line).toList := by
    rw [indent_of_ne h, Code.indentation, String.append_assoc, String.toList_append]
    rfl
  intro hbare
  have hlength := congrArg (fun s => s.toList.length) hbare
  simp only [bare, hchars, String.toList_ofList, List.dropWhile_cons, beq_self_eq_true, if_true,
    List.length_cons] at hlength
  have hle := (List.dropWhile_sublist (l := (Code.indentation levels ++ line).toList)
    (· == ' ')).length_le
  omega

/-- Inside a class the first word of a prototype is `static`. -/
theorem isPrototype_indent_succ (levels : Nat) (line : String) :
    isPrototype (Code.indent (levels + 1) line) = ((words line).head? == some "static") := by
  by_cases hempty : line = ""
  · rw [hempty, Code.indent, if_pos rfl]
    decide
  · rw [isPrototype, words_indent, beq_eq_false_iff_ne.mpr (bare_indent_ne hempty levels)]
    simp

theorem words_head? {first : String} (hne : first ≠ "") (hblank : ' ' ∉ first.toList)
    (rest : String) : (words (first ++ " " ++ rest)).head? = some first := by
  rw [words_append hne hblank, List.head?_cons]

/-- Every prototype of a type is one. -/
theorem isPrototype_of_mem {jsonType : String} {q : QualifiedName} {line : String}
    (h : line ∈ prototypeLines jsonType q) : isPrototype line = true := by
  obtain ⟨t, ht, rfl⟩ := List.mem_map.mp h
  have hresult : t.result = "void" ∨ t.result = "bool" := by
    simp only [helperTexts, List.mem_cons, List.not_mem_nil, or_false] at ht
    rcases ht with rfl | rfl | rfl | rfl | rfl
    · exact .inl rfl
    all_goals exact .inr rfl
  have hne : t.result ≠ "" := by rcases hresult with h | h <;> (rw [h]; decide)
  have hblank : ' ' ∉ t.result.toList := by rcases hresult with h | h <;> (rw [h]; decide)
  by_cases hscope : q.scope = []
  · have hline : String.ofList (List.replicate (2 * q.scope.length) ' ') ++
        (if q.scope = [] then "" else "static ") ++ t.result ++ " " ++ t.helper.name q.name ++ "(" ++
          t.params ++ ");" = t.result ++ " " ++ (t.helper.name q.name ++ "(" ++ t.params ++ ");") := by
      simp [hscope, String.append_assoc]
    have hbare := bare_append hne hblank (" " ++ (t.helper.name q.name ++ "(" ++ t.params ++ ");"))
    rw [← String.append_assoc] at hbare
    rw [hline, isPrototype, words_head? hne hblank, hbare]
    rcases hresult with h | h
    all_goals
      rw [h]
      simp
  · have hstatic : "static " = "static" ++ " " := by decide
    have hwords := words_head? (show "static" ≠ "" by decide)
      (show ' ' ∉ "static".toList by decide)
      (t.result ++ " " ++ t.helper.name q.name ++ "(" ++ t.params ++ ");")
    rw [words, ← bare_indentation q.scope.length, ← words] at hwords
    rw [if_neg hscope, ← indentation_eq, isPrototype, hstatic]
    simp only [String.append_assoc, -String.reduceAppend] at hwords ⊢
    rw [hwords]
    rfl

theorem words_head?_ne {line w : String} {c : Char} {cs : List Char} (h : line.toList = c :: cs)
    (hc : c ≠ ' ') (hw : w.toList.head? ≠ some c) : (words line).head? ≠ some w := by
  obtain ⟨first, rest, hwords, hfirst⟩ := exists_words_of_head h hc
  rw [hwords, List.head?_cons]
  intro heq
  obtain rfl := Option.some.inj heq
  exact hw hfirst

/-- Inside the class, the declarations of methods are no prototypes of helpers. -/
theorem not_isPrototype_methodDeclarations {type : String} (hblank : ' ' ∉ type.toList)
    {line : String} (h : line ∈ methodDeclarations type) (levels : Nat) :
    isPrototype (Code.indent (levels + 1) line) = false := by
  rw [isPrototype_indent_succ, beq_eq_false_iff_ne]
  simp only [methodDeclarations, List.mem_cons, List.not_mem_nil, or_false] at h
  have hbool : ∀ rest, (words ("bool" ++ " " ++ rest)).head? ≠ some "static" := fun rest => by
    rw [words_head? (by decide) (by decide)]
    decide
  rcases h with rfl | rfl | rfl | rfl | rfl
  · have hbracket : '(' ∈ (type ++ "();").toList := by simp [String.toList_append]
    have hne : ∀ w : String, '(' ∉ w.toList → type ++ "();" ≠ w := by
      rintro w hw rfl
      exact hw hbracket
    have hword : ' ' ∉ (type ++ "();").toList := by simp [String.toList_append, hblank]
    rw [words_word (hne _ (by decide)) hword, List.head?_cons, ne_eq, Option.some.injEq]
    exact hne _ (by decide)
  · rw [show "bool operator==(const " = "bool" ++ " " ++ "operator==(const " by decide,
      String.append_assoc, String.append_assoc]
    exact hbool _
  · rw [show "bool operator!=(const " = "bool" ++ " " ++ "operator!=(const " by decide,
      String.append_assoc, String.append_assoc]
    exact hbool _
  · decide
  · decide

theorem not_isPrototype_dataMembers {target : Target} {type line : String} {members : List Member}
    (h : line ∈ dataMembers target type members) (levels : Nat) :
    isPrototype (Code.indent (levels + 1) line) = false := by
  rw [isPrototype_indent_succ, beq_eq_false_iff_ne]
  simp only [dataMembers, List.mem_append, List.mem_map, List.mem_singleton] at h
  rcases h with ⟨m, -, rfl⟩ | rfl
  · have hchars : (m.emitted.name.absolute target.namespaces ++ " " ++ m.name ++ ";").toList =
        ':' :: ':' :: (qualification target.namespaces ++ m.emitted.name.typePath ++ " " ++ m.name ++
          ";").toList := by
      simp [QualifiedName.absolute, String.toList_append]
    exact words_head?_ne hchars (by decide) (by decide)
  · rw [show "std::function<bool(const " = "std::function<bool(const" ++ " " by decide]
    simp only [String.append_assoc]
    rw [← String.append_assoc, words_head? (by decide) (by decide)]
    decide

/-- The lines of a class hold the declarations of its member types, one level further in, and no
prototypes besides. -/
theorem exists_classLines_split (target : Target) {type : String} (members : List Member)
    {placed : List PlacedFragment} (hblank : ' ' ∉ type.toList)
    (hforward : ∀ l ∈ placed.flatMap PlacedFragment.forward, ∃ type, Mark.read l = .declares type)
    (levels : Nat) :
    ∃ before after, (classLines target type members placed).map (Code.indent levels) =
        before ++ (placed.flatMap PlacedFragment.declarations).map (Code.indent (levels + 1)) ++
          after ∧
      (∀ l ∈ before, isPrototype l = false) ∧ ∀ l ∈ after, isPrototype l = false := by
  have hindent : ∀ lines : List String, (lines.map (Code.indent 1)).map (Code.indent levels) =
      lines.map (Code.indent (levels + 1)) := by
    intro lines
    rw [List.map_map]
    exact List.map_congr_left fun l _ => indent_indent levels 1 l
  refine ⟨[Code.indent levels ("class " ++ type ++ " \x7b"), Code.indent levels " public:"] ++
      (placed.flatMap PlacedFragment.forward).map (Code.indent (levels + 1)),
    ((if (placed.flatMap PlacedFragment.forward ++
        placed.flatMap PlacedFragment.declarations).isEmpty then [] else [""]) ++
      methodDeclarations type ++ [""] ++ dataMembers target type members).map
        (Code.indent (levels + 1)) ++ [Code.indent levels "\x7d;"], ?_, ?_, ?_⟩
  · rw [classLines, List.map_append, List.map_cons, List.map_cons, hindent]
    simp only [List.map_append, List.append_assoc, List.cons_append, List.nil_append, List.map_cons,
      List.map_nil]
  · intro l hl
    simp only [List.mem_append, List.mem_cons, List.not_mem_nil, or_false, List.mem_map] at hl
    rcases hl with (rfl | rfl) | ⟨line, hline, rfl⟩
    · exact not_isPrototype_of_mark (by rw [Mark.read_open hblank]; exact Mark.noConfusion) levels
    · exact not_isPrototype_indent (by decide) levels
    · obtain ⟨type, htype⟩ := hforward line hline
      exact not_isPrototype_of_mark (by rw [htype]; exact Mark.noConfusion) _
  · have hempty : isPrototype (Code.indent (levels + 1) "") = false :=
      not_isPrototype_indent (by decide) _
    intro l hl
    simp only [List.mem_append, List.mem_singleton, List.mem_map] at hl
    rcases hl with ⟨line, ((hline | hline) | rfl) | hline, rfl⟩ | rfl
    · split at hline
      · cases hline
      · rw [List.mem_singleton.mp hline]
        exact hempty
    · exact not_isPrototype_methodDeclarations hblank hline levels
    · exact hempty
    · exact not_isPrototype_dataMembers hline levels
    · exact not_isPrototype_of_mark (by rw [Mark.read_close]; exact Mark.noConfusion) levels

/-! ## Prototypes of trees -/

/-- The prototypes among the lines are those of the types, one type after the other, and the
prototypes of one type stand together. -/
structure Prototypes (jsonType : String) (lines : List String) (types : List QualifiedName) :
    Prop where
  sequence : lines.filter isPrototype = types.flatMap (prototypeLines jsonType)
  together : ∀ q ∈ types, prototypeLines jsonType q <:+: lines

namespace Prototypes

variable {jsonType : String} {lines more : List String} {types others : List QualifiedName}

theorem none (h : ∀ l ∈ lines, isPrototype l = false) : Prototypes jsonType lines [] where
  sequence := by
    rw [List.flatMap_nil, List.filter_eq_nil_iff]
    exact fun l hl => by rw [h l hl]; exact Bool.false_ne_true
  together q hq := by cases hq

theorem append (h : Prototypes jsonType lines types) (h' : Prototypes jsonType more others) :
    Prototypes jsonType (lines ++ more) (types ++ others) where
  sequence := by rw [List.filter_append, List.flatMap_append, h.sequence, h'.sequence]
  together q hq := by
    rcases List.mem_append.mp hq with hq | hq
    · exact (h.together q hq).trans (List.prefix_append _ _).isInfix
    · exact (h'.together q hq).trans (List.suffix_append _ _).isInfix

/-- The prototypes of one type. -/
theorem block (q : QualifiedName) : Prototypes jsonType (prototypeLines jsonType q) [q] where
  sequence := by
    rw [List.flatMap_singleton, List.filter_eq_self]
    exact fun l hl => isPrototype_of_mem hl
  together q' hq' := by
    obtain rfl := List.mem_singleton.mp hq'
    exact List.infix_rfl

/-- Lists one after the other. -/
theorem flatMap {α : Type} {l : List α} {f : α → List String} {g : α → List QualifiedName}
    (h : ∀ a ∈ l, Prototypes jsonType (f a) (g a)) :
    Prototypes jsonType (l.flatMap f) (l.flatMap g) := by
  induction l with
  | nil => exact none (List.forall_mem_nil _)
  | cons a l ih =>
    rw [List.forall_mem_cons] at h
    rw [List.flatMap_cons, List.flatMap_cons]
    exact h.1.append (ih h.2)

end Prototypes

/-- The prototypes of the type of a node. -/
theorem prototypes_own (target : Target) (p : Place) :
    Prototypes target.jsonType
      (((prototypes target p.type.name).map (Line.fill (scopePlacement p.scope))).map
        (Code.indent p.around.length)) [p.type] := by
  have hlines := prototypeLines_eq target p.type
  rw [show p.type.scope.length = p.around.length from List.length_map _] at hlines
  rw [show p.scope = p.type.scope from rfl, hlines]
  exact Prototypes.block p.type

/-- The prototypes in the lines of a class are those of its member types. -/
theorem prototypes_classLines (target : Target) {p : Place} {members : List (String × Node)}
    (hnode : p.node = .object members)
    (hblank : ∀ q, p.Has q → ' ' ∉ (typeName q.name).toList)
    (hchildren : ∀ c ∈ p.children, Prototypes target.jsonType
      ((c.declarations target (scopePlacement c.scope)).map (Code.indent c.around.length))
      (declaredTypes c.postorder)) :
    Prototypes target.jsonType
      ((classLines target p.type.name (emitMembers target p.path members)
        (placedMembers target p.around p.name members)).map (Code.indent p.around.length))
      (p.children.flatMap fun c => declaredTypes c.postorder) := by
  have hplacement : memberPlacement p.type = scopePlacement p.classPath :=
    memberPlacement_eq p.scope p.type.name
  have hmembers : Prototypes target.jsonType
      ((p.children.flatMap (Place.declarations target (memberPlacement p.type))).map
        (Code.indent (p.around.length + 1)))
      (p.children.flatMap fun c => declaredTypes c.postorder) := by
    rw [List.map_flatMap]
    refine Prototypes.flatMap fun c hc => ?_
    have hchild := hchildren c hc
    have hlength : c.around.length = p.around.length + 1 := by
      rw [Place.around_of_mem_children hnode hc, Place.path, List.length_append]
      rfl
    rw [Place.scope_of_mem_object hnode hc, hlength] at hchild
    rw [hplacement]
    exact hchild
  obtain ⟨before, after, hlines, hbefore, hafter⟩ :=
    exists_classLines_split target (emitMembers target p.path members) (hblank p p.has_self)
      (fun l hl => placed_forward_declares target hnode hblank hl) p.around.length
  have hclass := ((Prototypes.none hbefore).append hmembers).append (Prototypes.none hafter)
  rw [List.nil_append, List.append_nil] at hclass
  rw [show p.type.name = typeName p.name from rfl, hlines, placed_declarations target hnode]
  exact hclass

/-- **Prototypes of a tree.** The prototypes in the declarations of a node are those of the types that
the nodes of the tree declare, in postorder. -/
theorem prototypes_declarations (target : Target) {p : Place}
    (hblank : ∀ q, p.Has q → ' ' ∉ (typeName q.name).toList) :
    Prototypes target.jsonType
      ((p.declarations target (scopePlacement p.scope)).map (Code.indent p.around.length))
      (declaredTypes p.postorder) := by
  induction p using Place.induction with
  | step p ih =>
    have hchildren : ∀ c ∈ p.children, Prototypes target.jsonType
        ((c.declarations target (scopePlacement c.scope)).map (Code.indent c.around.length))
        (declaredTypes c.postorder) := fun c hc =>
      ih c hc fun q hq => hblank q (Place.has_of_child hc hq)
    rw [Place.postorder_eq, declaredTypes_append, declaredTypes_flatMap]
    cases hnode : p.node with
    | scalar s =>
      rw [Place.declarations_scalar target _ hnode, declaredTypes_singleton (by rw [hnode]; rfl),
        Place.children, hnode]
      exact prototypes_own target p
    | reference r =>
      rw [Place.declarations_reference target _ hnode, Place.children, hnode, declaredTypes,
        declaring, List.filter_cons_of_neg (by simp [hnode, Node.isReference])]
      exact Prototypes.none (List.forall_mem_nil _)
    | array item bounds =>
      rw [Place.children_array hnode] at hchildren
      have hitem := hchildren _ (List.mem_singleton.mpr rfl)
      rw [Place.declarations_array target _ hnode, List.map_append,
        declaredTypes_singleton (by rw [hnode]; rfl), Place.children_array hnode,
        List.flatMap_singleton]
      exact hitem.append (prototypes_own target p)
    | object members =>
      rw [Place.declarations_object target _ hnode, List.map_append,
        declaredTypes_singleton (by rw [hnode]; rfl)]
      exact (prototypes_classLines target hnode hblank hchildren).append (prototypes_own target p)

/-! ## Settling keeps what is written -/

/-- What is written for the nodes of a tree stays if it does not depend on what references mean. -/
theorem flatMap_postorder_settle {α : Type} {g : Place → List α}
    (hg : ∀ done p, g (Place.settle done p) = g p) (done : List (List String))
    (around : List String) (name : String) (node : Node) :
    ((node.settle done around name).postorder around name).flatMap g =
      (node.postorder around name).flatMap g := by
  induction node using Node.induction generalizing done around name with
  | scalar s => rfl
  | reference r =>
    have hself := hg done ⟨around, name, .reference r⟩
    rw [Node.settle, Node.postorder, Node.postorder, List.flatMap_singleton, List.flatMap_singleton]
    exact hself
  | array item bounds ih =>
    have hself := hg done ⟨around, name, .array item bounds⟩
    rw [Node.settle, Node.postorder, Node.postorder, List.flatMap_append, List.flatMap_append, ih,
      List.flatMap_singleton, List.flatMap_singleton]
    exact congrArg _ hself
  | object members ih =>
    have hself := hg done ⟨around, name, .object members⟩
    have hmembers : ∀ done around,
        (postorderMembers around (settleMembers done around members)).flatMap g =
          (postorderMembers around members).flatMap g := by
      clear hself
      induction members with
      | nil => intro done around; rfl
      | cons m rest ihrest =>
        intro done around
        rw [List.forall_mem_cons] at ih
        rw [settleMembers, postorderMembers, postorderMembers, List.flatMap_append,
          List.flatMap_append, ih.1, ihrest ih.2]
    rw [Node.settle, Node.postorder, Node.postorder, List.flatMap_append, List.flatMap_append,
      hmembers, List.flatMap_singleton, List.flatMap_singleton]
    exact congrArg _ hself

/-- The same for the nodes that declare types. -/
theorem flatMap_declaring_settle {α : Type} {g : Place → List α}
    (hg : ∀ done p, g (Place.settle done p) = g p) (done : List (List String))
    (around : List String) (name : String) (node : Node) :
    (declaring ((node.settle done around name).postorder around name)).flatMap g =
      (declaring (node.postorder around name)).flatMap g := by
  rw [flatMap_declaring, flatMap_declaring]
  refine flatMap_postorder_settle (fun done p => ?_) done around name node
  rw [hg done p, Place.settle, Node.isReference_settle]

/-! ## Entries -/

/-- **Heads and prototypes in full.** In a run that succeeds, the heads in the definitions of an entry
and the prototypes in its declarations are those of the nodes of the entry that are no references, in
postorder, written with their qualified names. The prototypes of one type stand together, and no two
nodes of the schema declare the same type. -/
theorem heads_and_prototypes_in_postorder {target : Target} {s : Schema} {units : Entries CodeUnit}
    (h : generateUnits target s = .ok units) :
    (∀ name node, (name, node) ∈ s.entries → ∃ unit, units.get? name = some unit ∧
      unit.fragment.definitions.filter isHead =
        (declaring (node.postorder [] name)).flatMap (Place.heads target.jsonType) ∧
      unit.fragment.declarations.filter isPrototype =
        (declaredTypes (node.postorder [] name)).flatMap (prototypeLines target.jsonType) ∧
      ∀ q ∈ declaredTypes (node.postorder [] name),
        prototypeLines target.jsonType q <:+: unit.fragment.declarations) ∧
    (declaredTypes s.postorder).Nodup := by
  obtain ⟨hs, -⟩ := generateUnits_ok_iff.mp h
  refine ⟨fun name node he => ?_, hs.nodup_declaredTypes⟩
  obtain ⟨front, back, hsplit, -, hunit⟩ := exists_unit h he
  refine ⟨_, hunit, ?_⟩
  generalize hdone : completedMembers [] front = done
  have hmem : (name, node.settle done [] name) ∈ s.settled.entries := by
    rw [Schema.settled, hsplit, settleMembers_append, hdone]
    exact List.mem_append_right _ List.mem_cons_self
  have hclasses : ∀ q, (⟨[], name, node.settle done [] name⟩ : Place).Has q →
      ∀ c ∈ q.classPath, ' ' ∉ c.toList := by
    intro q hq c hc hblank
    have hhas := Schema.has_iff.mpr ⟨_, mem_placesIn.mpr ⟨_, hmem, rfl⟩, hq⟩
    exact absurd (hs.settled.1.isAlphanum_of_mem_classPath hhas hc hblank) (by decide)
  have hnames : ∀ q, (⟨[], name, node.settle done [] name⟩ : Place).Has q →
      ' ' ∉ (typeName q.name).toList := fun q hq =>
    hclasses q hq _ (List.mem_append_right _ (List.mem_singleton.mpr rfl))
  have htypes : declaredTypes ((node.settle done [] name).postorder [] name) =
      declaredTypes (node.postorder [] name) := by
    rw [declaredTypes, declaredTypes, List.map_eq_flatMap, List.map_eq_flatMap]
    exact flatMap_declaring_settle (fun _ _ => rfl) done [] name node
  have hprototypes := prototypes_declarations target hnames
  rw [show (⟨[], name, node.settle done [] name⟩ : Place).postorder =
    (node.settle done [] name).postorder [] name from rfl, htypes] at hprototypes
  have hindent : ∀ lines : List String, lines.map (Code.indent 0) = lines := fun lines =>
    (List.map_congr_left fun l _ => Code.indent_zero l).trans (List.map_id' lines)
  rw [show (⟨[], name, node.settle done [] name⟩ : Place).around.length = 0 from rfl,
    hindent] at hprototypes
  refine ⟨(filter_isHead_definitions hclasses).trans ?_, hprototypes.sequence, hprototypes.together⟩
  refine flatMap_declaring_settle (fun done p => ?_) done [] name node
  rw [Place.heads, Place.settle, Node.isObject_settle]
  rfl

/-- The types of an entry with an object and an array inside, whose items are references. -/
theorem shadowExample_path_code :
    ∃ units unit, generateUnits Options.default.target shadowExample = .ok units ∧
      units.get? "path" = some unit ∧
      unit.fragment.definitions.filter isHead =
        helperHeads "nlohmann::ordered_json" ⟨["Path", "Point"], "Y"⟩ ++
        (methodHeads ⟨["Path"], "Point"⟩ ++
          helperHeads "nlohmann::ordered_json" ⟨["Path"], "Point"⟩) ++
        helperHeads "nlohmann::ordered_json" ⟨["Path"], "Steps"⟩ ++
        (methodHeads ⟨[], "Path"⟩ ++ helperHeads "nlohmann::ordered_json" ⟨[], "Path"⟩) ∧
      unit.fragment.declarations.filter isPrototype =
        [⟨["Path", "Point"], "Y"⟩, ⟨["Path"], "Point"⟩, ⟨["Path"], "Steps"⟩, ⟨[], "Path"⟩].flatMap
          (prototypeLines "nlohmann::ordered_json") := by
  obtain ⟨units, h⟩ := Schema.generates_of_toBool
    (show (generateUnits Options.default.target shadowExample).toBool = true by decide)
  obtain ⟨unit, hunit, hheads, hprototypes, -⟩ :=
    (heads_and_prototypes_in_postorder h).1 "path" _ (List.mem_cons_of_mem _ List.mem_cons_self)
  refine ⟨units, unit, h, hunit, ?_, ?_⟩
  · rw [hheads]
    decide
  · rw [hprototypes]
    decide

end ConfigForge
