import ConfigForge.Output.Layout
import ConfigForge.Proofs.ClassScopes
import ConfigForge.Proofs.CodeMeaning
import ConfigForge.Proofs.LegibleCode

/-!
# Source lines as a program

A call is given by the name of a function. The function is looked up in the lines of the source: its
head begins with the result and the name, and the last parameter tells functions of one name apart. The
lines up to the closing brace are its body. Calls run bodies that call each other, up to a given depth.

In generated source, a head belongs to one helper of one type and a type to one node. So a call of a
helper runs the lines that were written for the node of the type.

Results:

* `Role.isHead_iff`: a head belongs to one helper with one name.
* `bodyOf?_flatMap`: the body of the one function with a head is found.
* `Place.defines`: the lines of the functions of a node define its helpers.
* `Schema.Admissible.defines`: the source of a schema defines the helpers of all its nodes.
* `Defines.init_eq`, `Defines.validate_eq`, `Defines.checkJson_eq`, `Defines.readJson_eq`: a call
  runs the body of the helper.
-/

namespace ConfigForge

open Code (Line Placement PlacedFragment)
open Emit Cpp

/-! ## Functions in source lines -/

/-- The functions of a type, as a call tells them apart. -/
inductive Role where
  | init
  | validate
  | validateJson
  | toJson
  | jsonTo
deriving DecidableEq, Repr

namespace Role

/-- What stands before the name in a head. -/
def front : Role → String
  | .init => "void "
  | _ => "bool "

/-- What a head ends in: the name of the last parameter, and whether it can be changed. -/
def back : Role → String
  | .init | .jsonTo => " *val) \x7b"
  | .validate => " &val) \x7b"
  | .validateJson => " &json) \x7b"
  | .toJson => " *json) \x7b"

/-- Whether a line is the head of the function of a name. -/
def isHead (role : Role) (name line : String) : Bool :=
  (role.front ++ name ++ "(").toList.isPrefixOf line.toList &&
    role.back.toList.isSuffixOf line.toList

end Role

/-- The lines of the body of a function. -/
def bodyOf? (source : List String) (role : Role) (name : String) : Option (List String) :=
  match source.dropWhile fun line => !role.isHead name line with
  | [] => none
  | _ :: rest => some (rest.takeWhile (· ≠ "\x7d"))

/-- Calls a function. -/
def invoke (source : List String) (w : World) (role : Role) (name : String) (arguments : Env) :
    Option Outcome :=
  (bodyOf? source role name).bind (runLines w arguments)

/-- The source as its functions see it, up to a depth of calls, which is also the number of turns
that a loop may take; `types` gives the primitive types behind type names. -/
def world (source : List String) (types : String → Option Primitive) : Nat → World
  | 0 => ⟨types, 0, fun _ _ => none, fun _ _ => none⟩
  | depth + 1 =>
    { types := types
      turns := depth + 1
      init := fun name before =>
        (invoke source (world source types depth) .init name [("val", before)]).bind
          fun outcome => outcome.env.get? "val"
      validate := fun name v =>
        (invoke source (world source types depth) .validate name [("val", v)]).bind
          Outcome.answer? }

/-- The answer of `Validate` about a JSON node, up to a depth of calls. -/
def checkJson (source : List String) (types : String → Option Primitive) (depth : Nat)
    (name : String) (node : JsonNode) : Option Bool :=
  (invoke source (world source types depth) .validateJson name [("json", .json node)]).bind
    Outcome.answer?

/-- The answer of `JsonTo` about a JSON node and what it leaves in the value, up to a depth of
calls. -/
def readJson (source : List String) (types : String → Option Primitive) (depth : Nat)
    (name : String) (node : JsonNode) (before : Value) : Option (Bool × Value) :=
  (invoke source (world source types depth) .jsonTo name
    [("json", .json node), ("val", before)]).bind fun outcome =>
      outcome.answer?.bind fun answer => (outcome.env.get? "val").map fun after => (answer, after)

theorem types_world (source : List String) (types : String → Option Primitive) (depth : Nat) :
    (world source types depth).types = types := by
  cases depth <;> rfl

theorem turns_world (source : List String) (types : String → Option Primitive) (depth : Nat) :
    (world source types depth).turns = depth := by
  cases depth <;> rfl

/-! ## Heads -/

namespace Role

/-- The helper that is called. -/
def helper : Role → Helper
  | .init => .init
  | .validate | .validateJson => .validate
  | .toJson => .toJson
  | .jsonTo => .jsonTo

/-- The signature of the function. -/
def signature (target : Target) (type : String) : Role → Signature
  | .init => initSignature type
  | .validate => validateSignature type
  | .validateJson => validateJsonSignature target type
  | .toJson => toJsonSignature target type
  | .jsonTo => jsonToSignature target type

/-- The body of the function. -/
def body (bodies : HelperBodies) : Role → List Block
  | .init => bodies.init
  | .validate => bodies.validate
  | .validateJson => bodies.validateJson
  | .toJson => bodies.toJson
  | .jsonTo => bodies.jsonTo

theorem mem_helperFunctions_iff {target : Target} {type : String} {bodies : HelperBodies}
    {f : Function} :
    f ∈ helperFunctions target type bodies ↔
      ∃ role : Role, f = ⟨role.signature target type, role.body bodies⟩ := by
  simp only [helperFunctions, List.mem_cons, List.not_mem_nil, or_false]
  constructor
  · rintro (rfl | rfl | rfl | rfl | rfl)
    · exact ⟨.init, rfl⟩
    · exact ⟨.validate, rfl⟩
    · exact ⟨.validateJson, rfl⟩
    · exact ⟨.toJson, rfl⟩
    · exact ⟨.jsonTo, rfl⟩
  · rintro ⟨role, rfl⟩
    cases role <;> simp [signature, body]

/-- How the head of a helper begins. -/
theorem exists_fill_head (role : Role) (target : Target) (type : String) (p : Placement) :
    ∃ rest, (role.signature target type).head.fill p =
      role.front ++ (p.scope ++ role.helper.name type) ++ "(" ++ rest := by
  refine ⟨(Signature.paramsLine (role.signature target type).params).fill p ++ ") \x7b", ?_⟩
  rw [fill_head]
  cases role <;> apply String.toList_inj.mp <;>
    simp [signature, front, helper, initSignature, validateSignature, validateJsonSignature,
      toJsonSignature, jsonToSignature, Signature.resultText, Signature.constText]

/-- How the head of a helper ends. -/
theorem back_suffix_head (role : Role) (target : Target) (type : String) (p : Placement) :
    role.back.toList <:+ ((role.signature target type).head.fill p).toList := by
  cases role with
  | init => exact ending_head p _ [] (valuePointer type) rfl rfl
  | validate => exact ending_head p _ [] (valueReference type) rfl rfl
  | validateJson => exact ending_head p _ [] (jsonReference target) rfl rfl
  | toJson => exact ending_head p _ [valueReference type] (jsonPointer target) rfl rfl
  | jsonTo => exact ending_head p _ [jsonReference target] (valuePointer type) rfl rfl

/-- Roles whose heads begin and end alike are one. -/
theorem eq_of_front_of_back {role role' : Role} (hfront : role.front = role'.front)
    (hback : role.back.toList <:+ role'.back.toList ∨ role'.back.toList <:+ role.back.toList) :
    role = role' := by
  cases role <;> cases role'
  all_goals first
    | rfl
    | exact absurd hfront (by decide)
    | exact absurd hback (by decide)

/-- **Heads.** A head belongs to one helper with one name. -/
theorem isHead_iff {role role' : Role} {name name' line rest : String} (hname : '(' ∉ name.toList)
    (hname' : '(' ∉ name'.toList) (hline : line = role'.front ++ name' ++ "(" ++ rest)
    (hback' : role'.back.toList <:+ line.toList) :
    role.isHead name line = true ↔ role = role' ∧ name = name' := by
  have hlength : ∀ role : Role, role.front.toList.length = 5 := by
    intro role
    cases role <;> rfl
  have hcut : ∀ {x : String} {rest : List Char}, '(' ∉ x.toList →
      (x.toList ++ '(' :: rest).takeWhile (· ≠ '(') = x.toList := by
    intro x rest hx
    have hall : ∀ c ∈ x.toList, decide (c ≠ '(') = true := by
      intro c hc
      rw [decide_eq_true_eq]
      rintro rfl
      exact hx hc
    rw [List.takeWhile_append_of_pos hall, List.takeWhile_cons_of_neg (by decide), List.append_nil]
  rw [isHead, Bool.and_eq_true, List.isPrefixOf_iff_prefix, List.isSuffixOf_iff_suffix]
  constructor
  · rintro ⟨⟨more, hmore⟩, hback⟩
    rw [hline] at hmore
    simp only [String.toList_append, List.append_assoc] at hmore
    obtain ⟨hfront, hrest⟩ := List.append_inj hmore ((hlength role).trans (hlength role').symm)
    have hnames := congrArg (List.takeWhile (· ≠ '(')) hrest
    refine ⟨eq_of_front_of_back (String.toList_inj.mp hfront)
      (List.suffix_or_suffix_of_suffix hback hback'), String.toList_inj.mp ?_⟩
    exact (hcut hname).symm.trans (hnames.trans (hcut hname'))
  · rintro ⟨rfl, rfl⟩
    refine ⟨?_, hback'⟩
    rw [hline, String.toList_append (s := role.front ++ name ++ "(")]
    exact List.prefix_append _ _

/-- A line that ends in another way is no head. -/
theorem isHead_of_ending (role : Role) (name : String) {line : String} (ending : String)
    (hending : ending.toList <:+ line.toList)
    (h : ∀ role : Role, ¬ role.back.toList <:+ ending.toList ∧ ¬ ending.toList <:+ role.back.toList) :
    role.isHead name line = false := by
  rw [Bool.eq_false_iff]
  intro hhead
  rw [isHead, Bool.and_eq_true, List.isSuffixOf_iff_suffix] at hhead
  rcases List.suffix_or_suffix_of_suffix hhead.2 hending with hsuffix | hsuffix
  · exact (h role).1 hsuffix
  · exact (h role).2 hsuffix

/-- A head begins with its result. -/
theorem head?_of_isHead {role : Role} {name line : String} (h : role.isHead name line = true) :
    line.toList.head? = some 'v' ∨ line.toList.head? = some 'b' := by
  rw [isHead, Bool.and_eq_true, List.isPrefixOf_iff_prefix] at h
  obtain ⟨⟨rest, hrest⟩, -⟩ := h
  rw [← hrest, String.toList_append, String.toList_append]
  cases role
  · exact .inl rfl
  all_goals exact .inr rfl

/-- The methods of a class have other heads. -/
theorem isHead_method (role : Role) (name : String) {target : Target} {rawName type : String}
    {members : List Member} {m : Function} (hm : m ∈ methods target rawName type members)
    (p : Placement) : role.isHead name (m.signature.head.fill p) = false := by
  have hempty : (Signature.paramsLine []).fill p = "" := rfl
  have hother : ∀ result name, " &other) const \x7b".toList <:+
      ((⟨result, name, [otherParam type], true⟩ : Signature).head.fill p).toList :=
    fun result name => ending_head p _ [] (otherParam type) rfl rfl
  simp only [methods, List.mem_cons, List.not_mem_nil, or_false] at hm
  rcases hm with rfl | rfl | rfl | rfl | rfl
  · refine isHead_of_ending role name "() \x7b" ?_ (fun role => by cases role <;> decide)
    rw [fill_head, hempty]
    exact ⟨(p.scope ++ (type ++ "::" ++ type)).toList, by
      simp [Signature.resultText, Signature.constText]⟩
  · exact isHead_of_ending role name _ (hother _ _) fun role => by cases role <;> decide
  · exact isHead_of_ending role name _ (hother _ _) fun role => by cases role <;> decide
  · refine isHead_of_ending role name "() const \x7b" ?_
      (fun role => by cases role <;> decide)
    rw [fill_head, hempty]
    exact ⟨("std::string " ++ p.scope ++ type ++ "::ToString").toList, by
      simp [Signature.resultText, Signature.constText]⟩
  · exact isHead_of_ending role name " validate) \x7b"
      (ending_head p _ [_] ⟨false, .plain "bool", "", "validate"⟩ rfl rfl)
      fun role => by cases role <;> decide

end Role

/-! ## Bodies -/

/-- The lines behind a head are no heads of helpers. -/
theorem isHead_body (role : Role) (name : String) (p : Placement) (body : List Block) :
    ∀ line ∈ bodyLines p body ++ ["\x7d", ""], role.isHead name line = false := by
  intro line hline
  rw [Bool.eq_false_iff]
  intro hhead
  have hfront := Role.head?_of_isHead hhead
  rcases List.mem_append.mp hline with hline | hline
  · rw [head?_of_mem_bodyLines hline] at hfront
    revert hfront
    decide
  · have hall : ∀ line ∈ ["\x7d", ""], ¬ (line.toList.head? = some 'v' ∨
        line.toList.head? = some 'b') := by decide
    exact hall line hline hfront

theorem bodyOf?_append {front source : List String} {role : Role} {name : String}
    (h : ∀ line ∈ front, role.isHead name line = false) :
    bodyOf? (front ++ source) role name = bodyOf? source role name := by
  have hdrop : (front ++ source).dropWhile (fun line => !role.isHead name line) =
      source.dropWhile fun line => !role.isHead name line :=
    List.dropWhile_append_of_pos fun line hline => by rw [h line hline]; rfl
  rw [bodyOf?, hdrop, bodyOf?]

/-- The head of a generated function. -/
def GeneratedFunction.head (f : GeneratedFunction) : String :=
  f.function.signature.head.fill (scopePlacement f.place.scope)

theorem GeneratedFunction.lines_eq (f : GeneratedFunction) :
    f.lines = f.head ::
      (bodyLines (scopePlacement f.place.scope) f.function.body ++ ["\x7d", ""]) :=
  fill_functionLines _ _

/-- **Bodies.** If all functions with a head have one body, this is the body that is found. -/
theorem bodyOf?_flatMap {functions : List GeneratedFunction} {role : Role} {name : String}
    {body : List String} (hmem : ∃ f ∈ functions, role.isHead name f.head = true)
    (hbody : ∀ f ∈ functions, role.isHead name f.head = true →
      bodyLines (scopePlacement f.place.scope) f.function.body = body) (back : List String) :
    bodyOf? (functions.flatMap GeneratedFunction.lines ++ back) role name = some body := by
  induction functions with
  | nil =>
    obtain ⟨f, hf, -⟩ := hmem
    cases hf
  | cons f functions ih =>
    have hbehind := isHead_body role name (scopePlacement f.place.scope) f.function.body
    rw [List.flatMap_cons, f.lines_eq, List.append_assoc]
    by_cases hhead : role.isHead name f.head = true
    · have hown := hbody f List.mem_cons_self hhead
      have hinside : ∀ line ∈ body, decide (line ≠ "\x7d") = true := by
        intro line hline
        rw [decide_eq_true_eq]
        rintro rfl
        rw [← hown] at hline
        exact absurd (head?_of_mem_bodyLines hline) (by decide)
      rw [bodyOf?, List.cons_append, List.dropWhile_cons_of_neg (by simpa using hhead), hown]
      simp only [List.append_assoc, List.cons_append]
      rw [List.takeWhile_append_of_pos hinside, List.takeWhile_cons_of_neg (by decide),
        List.append_nil]
    · have hnone : role.isHead name f.head = false := Bool.eq_false_iff.mpr hhead
      rw [bodyOf?_append (List.forall_mem_cons.mpr ⟨hnone, hbehind⟩)]
      refine ih ?_ fun g hg => hbody g (List.mem_cons_of_mem _ hg)
      obtain ⟨g, hg, hghead⟩ := hmem
      rcases List.mem_cons.mp hg with rfl | hg
      · exact absurd hghead hhead
      · exact ⟨g, hg, hghead⟩

/-! ## Functions of nodes -/

section

variable {target : Target} {p : Place} {bodies : HelperBodies}

theorem place_of_mem_functions {f : GeneratedFunction} (hf : f ∈ p.functions target) :
    f.place = p := by
  rcases List.mem_append.mp hf with hf | hf
  · obtain ⟨m, -, rfl⟩ := List.mem_map.mp hf
    rfl
  · obtain ⟨h, -, rfl⟩ := List.mem_map.mp hf
    rfl

theorem Place.mem_functions_iff (hbodies : p.bodies? target = some bodies) {f : Function} :
    ⟨p, false, f⟩ ∈ p.functions target ↔ f ∈ helperFunctions target p.type.name bodies := by
  simp [Place.functions, hbodies]

theorem Place.exists_bodies {f : GeneratedFunction} (hf : f ∈ p.functions target) :
    ∃ bodies, p.bodies? target = some bodies := by
  rw [Place.bodies?]
  cases hnode : p.node with
  | reference r =>
    rw [Place.functions, Place.methods, Place.bodies?, hnode] at hf
    cases hf
  | _ => exact ⟨_, rfl⟩

theorem Place.isHead_method (role : Role) (name : String) {m : Function}
    (hm : m ∈ p.methods target) (placement : Placement) :
    role.isHead name (m.signature.head.fill placement) = false := by
  rw [Place.methods] at hm
  cases hnode : p.node with
  | object members =>
    rw [hnode] at hm
    exact Role.isHead_method role name hm placement
  | _ =>
    rw [hnode] at hm
    cases hm

/-- The head of a helper is the one that belongs to its name. -/
theorem Role.isHead_helper {role role' : Role} {q : QualifiedName} (hq : q.IsTyped)
    (hp : p.type.IsTyped) :
    role.isHead (q.helper role.helper)
        ((role'.signature target p.type.name).head.fill (scopePlacement p.scope)) = true ↔
      role = role' ∧ q.helper role.helper = p.type.helper role'.helper := by
  have hname : (scopePlacement p.scope).scope ++ role'.helper.name p.type.name =
      p.type.helper role'.helper := by
    rw [scopePlacement_scope]
    rfl
  obtain ⟨rest, hhead⟩ := role'.exists_fill_head target p.type.name (scopePlacement p.scope)
  rw [hname] at hhead
  exact Role.isHead_iff (hq.not_mem_helper _ (by decide) (by decide))
    (hp.not_mem_helper _ (by decide) (by decide)) hhead (role'.back_suffix_head _ _ _)

/-- A function of a node with the head of a helper is this helper. -/
theorem Role.eq_of_isHead {role : Role} {q : QualifiedName} (hq : q.IsTyped)
    (hp : p.type.IsTyped) (hbodies : p.bodies? target = some bodies) {f : GeneratedFunction}
    (hf : f ∈ p.functions target) (hhead : role.isHead (q.helper role.helper) f.head = true) :
    p.type = q ∧ f.function.body = role.body bodies := by
  rcases List.mem_append.mp hf with hmethod | hhelper
  · obtain ⟨m, hm, rfl⟩ := List.mem_map.mp hmethod
    rw [GeneratedFunction.head, Place.isHead_method role _ hm] at hhead
    cases hhead
  · obtain ⟨g, hg, rfl⟩ := List.mem_map.mp hhelper
    rw [hbodies] at hg
    obtain ⟨role', rfl⟩ := Role.mem_helperFunctions_iff.mp (by simpa using hg)
    obtain ⟨rfl, hname⟩ := (Role.isHead_helper hq hp).mp hhead
    exact ⟨(hq.eq_of_helper_eq hp hname).symm, rfl⟩

/-! ## Helpers that are defined -/

/-- Whether a call of a helper of a node, in a source, runs the lines of the body that is given for
it. -/
def Defines (source : List String) (p : Place) (bodies : HelperBodies) : Prop :=
  ∀ role : Role, bodyOf? source role (p.type.helper role.helper) =
    some (bodyLines (scopePlacement p.scope) (role.body bodies))

/-- A source that holds the functions of a node, and no others for its type, defines its helpers. -/
theorem defines_of_unique {functions : List GeneratedFunction} {front : List String}
    (hfront : ∀ line ∈ front, ∀ (role : Role) (name : String), role.isHead name line = false)
    (htyped : ∀ f ∈ functions, f.place.type.IsTyped) (hbodies : p.bodies? target = some bodies)
    (hmem : ∀ f ∈ p.functions target, f ∈ functions)
    (hown : ∀ f ∈ functions, f ∈ f.place.functions target)
    (hunique : ∀ f ∈ functions, f.place.type = p.type → f.place = p) (back : List String) :
    Defines (front ++ functions.flatMap GeneratedFunction.lines ++ back) p bodies := by
  intro role
  have hhelper : (⟨p, false, ⟨role.signature target p.type.name, role.body bodies⟩⟩ :
      GeneratedFunction) ∈ functions :=
    hmem _ ((Place.mem_functions_iff hbodies).mpr (Role.mem_helperFunctions_iff.mpr ⟨role, rfl⟩))
  have hp : p.type.IsTyped := htyped _ hhelper
  rw [List.append_assoc, bodyOf?_append fun line hline => hfront line hline role _]
  refine bodyOf?_flatMap ⟨_, hhelper, (Role.isHead_helper hp hp).mpr ⟨rfl, rfl⟩⟩ ?_ back
  intro f hf hhead
  obtain ⟨bodies', hbodies'⟩ := Place.exists_bodies (hown f hf)
  obtain ⟨htype, hbody⟩ := Role.eq_of_isHead hp (htyped f hf) hbodies' (hown f hf) hhead
  have hplace := hunique f hf htype
  rw [hplace, hbodies] at hbodies'
  rw [hbody, hplace, Option.some.inj hbodies']

/-- The lines of the functions of a node define its helpers. -/
theorem Place.defines (hp : p.type.IsTyped) (hbodies : p.bodies? target = some bodies) :
    Defines ((p.functions target).flatMap GeneratedFunction.lines) p bodies := by
  have hplace : ∀ f ∈ p.functions target, f.place = p := fun f hf => place_of_mem_functions hf
  have htyped : ∀ f ∈ p.functions target, f.place.type.IsTyped := fun f hf =>
    (hplace f hf).symm ▸ hp
  have hdefines := defines_of_unique (List.forall_mem_nil _) htyped hbodies (fun f hf => hf)
    (fun f hf => (hplace f hf).symm ▸ hf) (fun f hf _ => hplace f hf) []
  rwa [List.nil_append, List.append_nil] at hdefines

theorem mem_functions_iff {t : Schema} {f : GeneratedFunction} :
    f ∈ t.functions target ↔ t.Has f.place ∧ f ∈ f.place.functions target := by
  rw [Schema.functions, List.mem_flatMap]
  constructor
  · rintro ⟨q, hq, hf⟩
    obtain rfl := place_of_mem_functions hf
    exact ⟨mem_postorder_iff.mp hq, hf⟩
  · rintro ⟨hplace, hf⟩
    exact ⟨f.place, mem_postorder_iff.mpr hplace, hf⟩

end

/-! ## The source of a schema -/

/-- The source of a schema. -/
def Schema.source (o : Options) (t : Schema) : List String :=
  sourceLines o ((t.entries.map (unitOf o.target)).map fun e => e.2.fragment)

/-- The lines of the source before the definitions. -/
def sourceFront (o : Options) : List String :=
  [banner, "", quotedInclude o.headerInclude] ++
    (if o.sourceIncludes.isEmpty then [] else "" :: o.sourceIncludes.map includeLine) ++ [""] ++
    openNamespaces o.namespaces

theorem Schema.source_eq (o : Options) (t : Schema) :
    t.source o = sourceFront o ++ (t.functions o.target).flatMap GeneratedFunction.lines ++
        closeNamespaces o.namespaces := by
  rw [← Schema.definitions_eq, Schema.source, sourceLines, List.flatMap_map]
  rfl

theorem isHead_sourceFront (o : Options) :
    ∀ line ∈ sourceFront o, ∀ (role : Role) (name : String), role.isHead name line = false := by
  have hother : ∀ line : String, line.toList.head? ∈ [none, some '/', some '#', some 'n'] →
      ∀ (role : Role) (name : String), role.isHead name line = false := by
    intro line hline role name
    rw [Bool.eq_false_iff]
    intro hhead
    rcases Role.head?_of_isHead hhead with hfront | hfront <;> rw [hfront] at hline <;>
      exact absurd hline (by decide)
  have hinclude : ∀ file : String, (includeLine file).toList.head? = some '#' := by
    intro file
    rw [includeLine]
    split <;> simp only [String.toList_append, List.append_assoc] <;> rfl
  have hnamespace : ∀ line ∈ openNamespaces o.namespaces,
      line.toList.head? ∈ [none, some '/', some '#', some 'n'] := by
    rw [openNamespaces, paragraph]
    split
    · exact List.forall_mem_nil _
    · refine List.forall_mem_append.mpr ⟨List.forall_mem_map.mpr fun name _ => ?_,
        List.forall_mem_singleton.mpr (by decide)⟩
      have hhead : ("namespace " ++ (name ++ " \x7b")).toList.head? = some 'n' := by
        rw [String.toList_append]
        rfl
      rw [String.append_assoc, hhead]
      decide
  have hincludes : ∀ line ∈ (if o.sourceIncludes.isEmpty then [] else
      "" :: o.sourceIncludes.map includeLine),
        line.toList.head? ∈ [none, some '/', some '#', some 'n'] := by
    split
    · exact List.forall_mem_nil _
    · refine List.forall_mem_cons.mpr ⟨by decide, List.forall_mem_map.mpr fun file _ => ?_⟩
      rw [hinclude]
      decide
  have hall : ∀ line ∈ sourceFront o, line.toList.head? ∈ [none, some '/', some '#', some 'n'] := by
    refine List.forall_mem_append.mpr ⟨List.forall_mem_append.mpr ⟨List.forall_mem_append.mpr
      ⟨List.forall_mem_cons.mpr ⟨by decide, List.forall_mem_cons.mpr ⟨by decide,
        List.forall_mem_singleton.mpr ?_⟩⟩, hincludes⟩,
          List.forall_mem_singleton.mpr (by decide)⟩, hnamespace⟩
    have hhead : (quotedInclude o.headerInclude).toList.head? = some '#' := by
      rw [quotedInclude, String.append_assoc, String.toList_append]
      rfl
    rw [hhead]
    decide
  exact fun line hline => hother line (hall line hline)

/-- **The helpers of a schema.** The source of an admissible schema defines the helpers of each of its
nodes. -/
theorem Schema.Admissible.defines {t : Schema} (ht : t.Admissible) (o : Options) {p : Place}
    (hp : t.Has p) {bodies : HelperBodies} (hbodies : p.bodies? o.target = some bodies) :
    Defines (t.source o) p bodies := by
  have href : ∀ {q : Place} {bodies : HelperBodies}, q.bodies? o.target = some bodies →
      q.node.isReference = false := by
    intro q bodies hq
    cases hnode : q.node with
    | reference r => rw [Place.bodies?, hnode] at hq; cases hq
    | _ => rfl
  rw [Schema.source_eq]
  refine defines_of_unique (isHead_sourceFront o)
    (fun f hf => ht.isTyped_type (mem_functions_iff.mp hf).1) hbodies (fun f hf => ?_)
    (fun f hf => (mem_functions_iff.mp hf).2) ?_ _
  · have hplace := place_of_mem_functions hf
    exact mem_functions_iff.mpr ⟨hplace ▸ hp, hplace ▸ hf⟩
  · intro f hf htype
    obtain ⟨hplace, hfunction⟩ := mem_functions_iff.mp hf
    obtain ⟨bodies', hbodies'⟩ := Place.exists_bodies hfunction
    exact ht.eq_of_type_eq hplace hp (href hbodies') (href hbodies) htype

/-! ## Calls -/

/-- Whether the lines of a body can be run. -/
def IsRun (p : Placement) (body : List Block) : Prop :=
  ∀ b ∈ body, b.Legible p ∧ (b.command? p).isSome = true

theorem isRun_statements {p : Placement} {stmts : List Stmt}
    (h : ∀ b ∈ statements stmts, b.Legible p) : IsRun p (statements stmts) := by
  intro b hb
  refine ⟨h b hb, ?_⟩
  obtain ⟨s, -, rfl⟩ := List.mem_map.mp hb
  rfl

namespace Defines

variable {source : List String} {p : Place} {bodies : HelperBodies}
  {types : String → Option Primitive}

theorem invoke_eq (h : Defines source p bodies) (role : Role)
    (hrun : IsRun (scopePlacement p.scope) (role.body bodies)) (w : World) (arguments : Env) :
    invoke source w role (p.type.helper role.helper) arguments =
      runBody w (scopePlacement p.scope) arguments (role.body bodies) := by
  rw [invoke, h role, Option.bind_some]
  exact runLines_bodyLines (fun b hb => (hrun b hb).1) fun b hb => (hrun b hb).2

theorem init_eq (h : Defines source p bodies) (hrun : IsRun (scopePlacement p.scope) bodies.init)
    (depth : Nat) (before : Value) :
    (world source types (depth + 1)).init (p.type.helper .init) before =
      (runBody (world source types depth) (scopePlacement p.scope) [("val", before)]
        bodies.init).bind fun outcome => outcome.env.get? "val" := by
  have hinvoke := h.invoke_eq .init hrun (world source types depth) [("val", before)]
  exact congrArg (fun outcome => outcome.bind fun outcome => outcome.env.get? "val") hinvoke

theorem validate_eq (h : Defines source p bodies)
    (hrun : IsRun (scopePlacement p.scope) bodies.validate) (depth : Nat) (v : Value) :
    (world source types (depth + 1)).validate (p.type.helper .validate) v =
      (runBody (world source types depth) (scopePlacement p.scope) [("val", v)]
        bodies.validate).bind Outcome.answer? := by
  have hinvoke := h.invoke_eq .validate hrun (world source types depth) [("val", v)]
  exact congrArg (fun outcome => outcome.bind Outcome.answer?) hinvoke

theorem checkJson_eq (h : Defines source p bodies)
    (hrun : IsRun (scopePlacement p.scope) bodies.validateJson) (depth : Nat) (node : JsonNode) :
    checkJson source types depth (p.type.helper .validate) node =
      (runBody (world source types depth) (scopePlacement p.scope) [("json", .json node)]
        bodies.validateJson).bind Outcome.answer? := by
  have hinvoke := h.invoke_eq .validateJson hrun (world source types depth)
    [("json", .json node)]
  exact congrArg (fun outcome => outcome.bind Outcome.answer?) hinvoke

theorem readJson_eq (h : Defines source p bodies)
    (hrun : IsRun (scopePlacement p.scope) bodies.jsonTo) (depth : Nat) (node : JsonNode)
    (before : Value) :
    readJson source types depth (p.type.helper .jsonTo) node before =
      (runBody (world source types depth) (scopePlacement p.scope)
        [("json", .json node), ("val", before)] bodies.jsonTo).bind fun outcome =>
          outcome.answer?.bind fun answer =>
            (outcome.env.get? "val").map fun after => (answer, after) := by
  have hinvoke := h.invoke_eq .jsonTo hrun (world source types depth)
    [("json", .json node), ("val", before)]
  exact congrArg (fun outcome => outcome.bind fun outcome =>
    outcome.answer?.bind fun answer => (outcome.env.get? "val").map fun after => (answer, after))
    hinvoke

end Defines

end ConfigForge
