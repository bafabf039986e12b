import ConfigForge.Proofs.Functions

/-!
# What bodies mention

What the body of a function says about generated types is collected as mentions: a type, or one of
its helpers. Bodies are trees, so the mentions are collected by going through expressions, statements
and blocks.

Results:

* `GeneratedFunction.occurs`: what a body mentions is spelled in the lines of the definition.
* `Place.mention_of_method`, `Place.mention_of_helper`: the types that the functions of a node
  mention are its own type and the types that the nodes directly below it provide.
-/

namespace ConfigForge

open Code (Line Placement)
open Emit Cpp

/-! ## Mentions -/

/-- A generated type in a body, or one of its helpers. -/
structure Mention where
  type : QualifiedName
  helper : Option Helper
deriving DecidableEq, Repr

/-- The type that is meant in code for the types of a scope. -/
def Owner.typeIn (scope : List String) : Owner → QualifiedName
  | .here type => ⟨scope, type⟩
  | .named q => q

/-- The mentions in a type. -/
def TypeName.mentions (scope : List String) : TypeName → List Mention
  | .owned owner => [⟨Owner.typeIn scope owner, none⟩]
  | .plain _ => []

/-- The mentions in an expression. -/
@[simp] def Expr.mentions (scope : List String) : Expr → List Mention
  | .var _ | .bool _ | .integer _ _ | .double _ | .text _ | .count _ | .size _ => []
  | .not e | .deref e | .address e | .paren e | .dot e _ | .arrow e _ | .call0 e =>
    Expr.mentions scope e
  | .binary _ left right | .index left right | .call left right | .comma left right =>
    Expr.mentions scope left ++ Expr.mentions scope right
  | .typed e type => Expr.mentions scope e ++ TypeName.mentions scope type
  | .static type _ | .type type => TypeName.mentions scope type
  | .helper h owner => [⟨Owner.typeIn scope owner, some h⟩]

/-- The mentions in a statement. -/
def Stmt.mentions (scope : List String) : Stmt → List Mention
  | .assign e e' | .leaveIf e e' => Expr.mentions scope e ++ Expr.mentions scope e'
  | .declare type _ e => TypeName.mentions scope type ++ Expr.mentions scope e
  | .declareEmpty type _ => TypeName.mentions scope type
  | .evaluate e | .leave e => Expr.mentions scope e
  | .discard _ => []

/-- The mentions in a block. -/
def Block.mentions (scope : List String) : Block → List Mention
  | .line s => Stmt.mentions scope s
  | .countLoop bound body => Expr.mentions scope bound ++ body.flatMap (Stmt.mentions scope)
  | .itemLoop body => body.flatMap (Stmt.mentions scope)
  | .fieldLoop first rest =>
    Stmt.mentions scope first.2 ++ rest.flatMap fun branch => Stmt.mentions scope branch.2

/-- The mentions in the body of a function. -/
def GeneratedFunction.mentions (f : GeneratedFunction) : List Mention :=
  f.function.body.flatMap (Block.mentions f.place.scope)

section

variable {scope : List String} {m : Mention}

/-! ## Spelling -/

/-- The text of a mention, as seen from the target namespace. -/
def Mention.text (m : Mention) : String :=
  match m.helper with
  | none => m.type.typePath
  | some h => m.type.helper h

/-- Whether a text occurs in a line. -/
def Occurs (text line : String) : Prop :=
  ∃ before after, line = before ++ text ++ after

theorem Occurs.left {text line : String} (h : Occurs text line) (rest : String) :
    Occurs text (line ++ rest) := by
  obtain ⟨before, after, rfl⟩ := h
  exact ⟨before, after ++ rest, by simp only [String.append_assoc]⟩

theorem Occurs.right {text line : String} (h : Occurs text line) (front : String) :
    Occurs text (front ++ line) := by
  obtain ⟨before, after, rfl⟩ := h
  exact ⟨front ++ before, after, by simp only [String.append_assoc]⟩

theorem scopePlacement_scope (scope : List String) :
    (scopePlacement scope).scope = qualification scope := by
  cases scope <;> rfl

theorem TypeName.occurs {type : TypeName} (h : m ∈ TypeName.mentions scope type) :
    Occurs m.text (type.line.fill (scopePlacement scope)) := by
  cases type with
  | plain spelling => cases h
  | owned owner =>
    rw [List.mem_singleton.mp h]
    refine ⟨"", "", ?_⟩
    cases owner with
    | here type =>
      simp [TypeName.line, Owner.typeLine, Owner.typeIn, Mention.text, Placement.value,
        scopePlacement_scope, QualifiedName.typePath, QualifiedName.scopeText]
    | named q => simp [TypeName.line, Owner.typeLine, Owner.typeIn, Mention.text]

/-- What an expression mentions is spelled in its text. -/
theorem Expr.occurs {e : Expr} (h : m ∈ Expr.mentions scope e) :
    Occurs m.text (e.line.fill (scopePlacement scope)) := by
  induction e with
  | var | bool | integer | double | text | count | size => cases h
  | not e ih | deref e ih | address e ih =>
    simp only [Expr.line, Line.fill_append]
    exact (ih h).right _
  | paren e ih =>
    simp only [Expr.line, Line.fill_append, Line.fill_text]
    exact ((ih h).right _).left _
  | dot e member ih | arrow e member ih =>
    simp only [Expr.line, Line.fill_text]
    exact (ih h).left _
  | call0 e ih =>
    simp only [Expr.line, Line.fill_text]
    exact (ih h).left _
  | binary op e e' ih ih' | comma e e' ih ih' =>
    simp only [Expr.line, Line.fill_append, Line.fill_text]
    rcases List.mem_append.mp h with h | h
    · exact ((ih h).left _).left _
    · exact (ih' h).right _
  | index e e' ih ih' | call e e' ih ih' =>
    simp only [Expr.line, Line.fill_append, Line.fill_text]
    rcases List.mem_append.mp h with h | h
    · exact (((ih h).left _).left _).left _
    · exact ((ih' h).right _).left _
  | typed e type ih =>
    simp only [Expr.line, Line.fill_append, Line.fill_text]
    rcases List.mem_append.mp h with h | h
    · exact (((ih h).left _).left _).left _
    · exact ((TypeName.occurs h).right _).left _
  | static type member =>
    simp only [Expr.line, Line.fill_text]
    exact (TypeName.occurs h).left _
  | type type => exact TypeName.occurs h
  | helper helper owner =>
    rw [List.mem_singleton.mp h]
    refine ⟨"", "", ?_⟩
    cases owner with
    | here type =>
      rw [fill_helper_here, scopePlacement_scope]
      simp [Mention.text, Owner.typeIn, QualifiedName.helper, QualifiedName.scopeText]
    | named q =>
      rw [fill_helper_named]
      simp [Mention.text, Owner.typeIn]

theorem Stmt.occurs {s : Stmt} (h : m ∈ Stmt.mentions scope s) :
    Occurs m.text (s.line.fill (scopePlacement scope)) := by
  cases s with
  | assign e e' =>
    simp only [Stmt.line, Line.fill_append, Line.fill_text]
    rcases List.mem_append.mp h with h | h
    · exact (((Expr.occurs h).left _).left _).left _
    · exact ((Expr.occurs h).right _).left _
  | declare type name e =>
    simp only [Stmt.line, Line.fill_append, Line.fill_text]
    rcases List.mem_append.mp h with h | h
    · exact (((TypeName.occurs h).left _).left _).left _
    · exact ((Expr.occurs h).right _).left _
  | declareEmpty type name =>
    simp only [Stmt.line, Line.fill_text]
    exact (TypeName.occurs h).left _
  | evaluate e =>
    simp only [Stmt.line, Line.fill_text]
    exact (Expr.occurs h).left _
  | discard name => cases h
  | leave e =>
    simp only [Stmt.line, Line.fill_append, Line.fill_text]
    exact ((Expr.occurs h).right _).left _
  | leaveIf e e' =>
    simp only [Stmt.line, Line.fill_append, Line.fill_text]
    rcases List.mem_append.mp h with h | h
    · exact (((((Expr.occurs h).right _).left _).left _)).left _
    · exact ((Expr.occurs h).right _).left _

/-- A line of a block in which a mention is spelled, if a statement spells it. -/
theorem occurs_indentLine {l : Line} {text : String} {p : Placement} (h : Occurs text (l.fill p)) :
    Occurs text ((indentLine l).fill p) := by
  rw [indentLine, Line.fill_append]
  exact h.right _

theorem occurs_body {body : List Stmt} (h : m ∈ body.flatMap (Stmt.mentions scope)) :
    ∃ line ∈ body.map (fun s => indentLine s.line),
      Occurs m.text (line.fill (scopePlacement scope)) := by
  obtain ⟨s, hs, h⟩ := List.mem_flatMap.mp h
  exact ⟨_, List.mem_map_of_mem hs, occurs_indentLine (Stmt.occurs h)⟩

theorem occurs_branch {branch : String × Stmt} (word : String)
    (h : m ∈ Stmt.mentions scope branch.2) :
    ∃ line ∈ branchLines word branch, Occurs m.text (line.fill (scopePlacement scope)) :=
  ⟨_, List.mem_cons_of_mem _ List.mem_cons_self, occurs_indentLine (Stmt.occurs h)⟩

theorem Block.occurs {b : Block} (h : m ∈ Block.mentions scope b) :
    ∃ line ∈ b.lines, Occurs m.text (line.fill (scopePlacement scope)) := by
  cases b with
  | line s => exact ⟨_, List.mem_singleton.mpr rfl, Stmt.occurs h⟩
  | countLoop bound body =>
    rcases List.mem_append.mp h with h | h
    · refine ⟨_, List.mem_append_left _ List.mem_cons_self, ?_⟩
      simp only [Line.fill_append, Line.fill_text]
      exact ((Expr.occurs h).right _).left _
    · obtain ⟨line, hline, h⟩ := occurs_body h
      exact ⟨line, List.mem_append_left _ (List.mem_cons_of_mem _ hline), h⟩
  | itemLoop body =>
    obtain ⟨line, hline, h⟩ := occurs_body h
    exact ⟨line, List.mem_append_left _ (List.mem_cons_of_mem _ hline), h⟩
  | fieldLoop first rest =>
    have hbranch : ∃ line ∈ branchLines "if" first ++ rest.flatMap (branchLines "\x7d else if"),
        Occurs m.text (line.fill (scopePlacement scope)) := by
      rcases List.mem_append.mp h with h | h
      · obtain ⟨line, hline, h⟩ := occurs_branch "if" h
        exact ⟨line, List.mem_append_left _ hline, h⟩
      · obtain ⟨branch, hmem, h⟩ := List.mem_flatMap.mp h
        obtain ⟨line, hline, h⟩ := occurs_branch "\x7d else if" h
        exact ⟨line, List.mem_append_right _ (List.mem_flatMap.mpr ⟨branch, hmem, hline⟩), h⟩
    obtain ⟨line, hline, h⟩ := hbranch
    refine ⟨indentLine line, List.mem_append_left _ (List.mem_cons_of_mem _ ?_), occurs_indentLine h⟩
    exact List.mem_map_of_mem (List.mem_append_left _ hline)

/-- **Spelling.** What the body of a function mentions is spelled in the lines of its definition. -/
theorem GeneratedFunction.occurs {f : GeneratedFunction} (h : m ∈ f.mentions) :
    ∃ line ∈ f.lines, Occurs m.text line := by
  obtain ⟨b, hb, h⟩ := List.mem_flatMap.mp h
  obtain ⟨line, hline, h⟩ := Block.occurs h
  refine ⟨_, List.mem_map_of_mem (a := indentLine line) ?_, occurs_indentLine h⟩
  refine List.mem_append_left _ (List.mem_cons_of_mem _ (List.mem_map_of_mem ?_))
  exact List.mem_flatMap.mpr ⟨b, hb, hline⟩

/-! ## Small laws -/

@[simp] theorem mentions_val : Expr.mentions scope .val = [] := rfl

@[simp] theorem mentions_json : Expr.mentions scope .json = [] := rfl

@[simp] theorem mentions_this : Expr.mentions scope .this = [] := rfl

@[simp] theorem mentions_ask (e : Expr) (question : String) :
    Expr.mentions scope (e.ask question) = Expr.mentions scope e := rfl

@[simp] theorem mentions_callHelper (h : Helper) (owner : Owner) (arguments : Expr) :
    Expr.mentions scope (.callHelper h owner arguments) =
      ⟨Owner.typeIn scope owner, some h⟩ :: Expr.mentions scope arguments := rfl

@[simp] theorem mentions_jsonAs (type : TypeName) :
    Expr.mentions scope (.jsonAs type) = TypeName.mentions scope type := rfl

@[simp] theorem mentions_statements (stmts : List Stmt) :
    (statements stmts).flatMap (Block.mentions scope) = stmts.flatMap (Stmt.mentions scope) := by
  rw [statements, List.flatMap_map]
  rfl

theorem mem_conjunction {conditions : List Expr}
    (h : m ∈ (conjunction conditions).flatMap (Stmt.mentions scope)) :
    ∃ c ∈ conditions, m ∈ Expr.mentions scope c := by
  unfold conjunction at h
  split at h
  · simp [Stmt.mentions, Stmt.accept] at h
  · simpa [List.flatMap_map, Stmt.mentions, TypeName.mentions] using h

/-! ## Scalars -/

theorem mentions_foldl_or {tests : List Expr} {e : Expr} (he : Expr.mentions scope e = [])
    (htests : ∀ t ∈ tests, Expr.mentions scope t = []) :
    Expr.mentions scope (tests.foldl (fun e t => .binary .or e t) e) = [] := by
  induction tests generalizing e with
  | nil => exact he
  | cons t rest ih =>
    rw [List.forall_mem_cons] at htests
    refine ih ?_ htests.2
    rw [Expr.mentions, he, htests.1, List.append_nil]

theorem mentions_signedTests {range : IntRange} {e : Expr} (h : e ∈ signedTests range) :
    Expr.mentions scope e = [] := by
  simp only [signedTests, List.mem_append] at h
  rcases h with h | h
  all_goals
    split at h
    · rw [List.mem_singleton.mp h]
      rfl
    · cases h

theorem mentions_signedCheck (range : IntRange) :
    (signedCheck range).flatMap (Stmt.mentions scope) = [] := by
  unfold signedCheck
  split
  · rfl
  · next test tests htests =>
    have hall : ∀ e ∈ test :: tests, Expr.mentions scope e = [] := fun e he =>
      mentions_signedTests (htests ▸ he)
    rw [List.forall_mem_cons] at hall
    simp [Stmt.mentions, Stmt.rejectIf, jsonIsUnsigned, mentions_foldl_or hall.1 hall.2]

theorem mentions_unsignedCheck (range : IntRange) :
    (unsignedCheck range).flatMap (Stmt.mentions scope) = [] := by
  unfold unsignedCheck
  split <;> rfl

/-- The check of a JSON node mentions no generated type. -/
theorem mentions_typeCheck (type : Primitive) :
    (typeCheck type).flatMap (Stmt.mentions scope) = [] := by
  cases type with
  | integer signed width =>
    rw [typeCheck, List.flatMap_append, List.flatMap_cons, mentions_unsignedCheck,
      mentions_signedCheck]
    rfl
  | _ => rfl

theorem mentions_initialValue (s : Scalar) (type : Primitive) :
    Expr.mentions scope (initialValue s type) = [] := by
  cases s with
  | string value =>
    simp only [initialValue, textValue]
    split <;> rfl
  | _ => rfl

theorem mentions_boundTests {s : Scalar} {type : Primitive} {e : Expr}
    (h : e ∈ boundTests s type) : Expr.mentions scope e = [] := by
  cases s with
  | integer limits =>
    simp only [boundTests, List.mem_append, Option.mem_toList, Option.map_eq_some_iff] at h
    rcases h with ⟨bound, -, rfl⟩ | ⟨bound, -, rfl⟩ <;> rfl
  | number limits =>
    simp only [boundTests, List.mem_append, Option.mem_toList, Option.map_eq_some_iff] at h
    rcases h with ⟨bound, -, rfl⟩ | ⟨bound, -, rfl⟩ <;> rfl
  | bool value => cases h
  | string value => cases h

/-- The helpers of a scalar mention the type of the scalar only, and the one call among them is that
of the check of a value in the check of a JSON value. -/
theorem mem_aliasBodies {target : Target} {type : String} {s : Scalar} {primitive : Primitive}
    {f : Function} (hf : f ∈ helperFunctions target type (aliasBodies type s primitive))
    (h : m ∈ f.body.flatMap (Block.mentions scope)) :
    m.type = ⟨scope, type⟩ ∧ ∀ helper, m.helper = some helper →
      helper = .validate ∧ f.signature = validateJsonSignature target type := by
  simp only [helperFunctions, List.mem_cons, List.not_mem_nil, or_false] at hf
  rcases hf with rfl | rfl | rfl | rfl | rfl
  · simp [aliasBodies, Stmt.mentions, mentions_initialValue] at h
  · rw [aliasBodies, mentions_statements] at h
    obtain ⟨c, hc, h⟩ := mem_conjunction h
    obtain ⟨test, htest, rfl⟩ := List.mem_map.mp hc
    rw [Expr.mentions, mentions_boundTests htest] at h
    cases h
  · rw [aliasBodies, mentions_statements, List.flatMap_append, mentions_typeCheck] at h
    simp [Stmt.mentions, TypeName.mentions, Owner.typeIn] at h
    rcases h with rfl | rfl
    · exact ⟨rfl, fun helper hhelper => ⟨(Option.some.inj hhelper).symm, rfl⟩⟩
    · exact ⟨rfl, fun helper hhelper => by cases hhelper⟩
  · cases h
  · rw [aliasBodies, mentions_statements, List.flatMap_append, mentions_typeCheck] at h
    simp [Stmt.mentions, Stmt.accept, TypeName.mentions, Owner.typeIn] at h
    rw [h]
    exact ⟨rfl, fun helper hhelper => by cases hhelper⟩

/-! ## Arrays -/

theorem mentions_sizeChecks (bounds : ItemBounds) {container : Expr}
    (hcontainer : Expr.mentions scope container = []) :
    (sizeChecks bounds container).flatMap (Stmt.mentions scope) = [] := by
  rw [List.flatMap_eq_nil_iff]
  intro stmt hstmt
  simp only [sizeChecks, List.mem_append, Option.mem_toList, Option.map_eq_some_iff] at hstmt
  rcases hstmt with ⟨n, -, rfl⟩ | ⟨n, -, rfl⟩ <;> simp [Stmt.rejectIf, Stmt.mentions, hcontainer]

/-- The helpers of an array mention the type of its item only. -/
theorem mem_vectorBodies {target : Target} {type : String} {item : QualifiedName}
    {bounds : ItemBounds} {f : Function}
    (hf : f ∈ helperFunctions target type (vectorBodies target item bounds))
    (h : m ∈ f.body.flatMap (Block.mentions scope)) : m.type = item := by
  simp only [helperFunctions, List.mem_cons, List.not_mem_nil, or_false] at hf
  rcases hf with rfl | rfl | rfl | rfl | rfl
  · simp only [vectorBodies] at h
    split at h
    · simp [Block.mentions, Stmt.mentions, TypeName.mentions, Owner.typeIn, element] at h
      rcases h with rfl | rfl <;> rfl
    · simp [Block.mentions, Stmt.mentions] at h
  · rw [vectorBodies, List.flatMap_append, mentions_statements,
      mentions_sizeChecks bounds mentions_val] at h
    simp [Block.mentions, Stmt.mentions, Stmt.rejectIf, Stmt.accept, Owner.typeIn, position] at h
    rw [h]
  · rw [vectorBodies, List.flatMap_append, mentions_statements, List.flatMap_cons,
      mentions_sizeChecks bounds mentions_json] at h
    simp [Block.mentions, Stmt.mentions, Stmt.rejectIf, Stmt.accept, Owner.typeIn, requireArray,
      element] at h
    rw [h]
  · simp [vectorBodies, Block.mentions, Stmt.mentions, Stmt.rejectIf, Stmt.accept, Owner.typeIn,
      TypeName.mentions, element, position] at h
    rw [h]
  · simp [vectorBodies, Block.mentions, Stmt.mentions, Stmt.rejectIf, Stmt.accept, Owner.typeIn,
      TypeName.mentions, requireArray, element, position] at h
    rcases h with rfl | rfl <;> rfl

/-! ## Objects -/

theorem mem_dispatch_iff {action : Member → Stmt} {members : List Member} :
    m ∈ (dispatch action members).flatMap (Block.mentions scope) ↔
      ∃ member ∈ members, m ∈ Stmt.mentions scope (action member) := by
  cases members with
  | nil => simp [dispatch, Block.mentions, Stmt.mentions]
  | cons first rest =>
    simp only [dispatch, List.flatMap_cons, List.flatMap_nil, Block.mentions, Stmt.mentions,
      Stmt.rejectIf, Stmt.accept, Expr.mentions, mentions_ask, mentions_json, List.flatMap_map,
      List.append_nil, List.nil_append, List.mem_append, List.mem_flatMap, List.exists_mem_cons_iff]

theorem mentions_unusedValue (members : List Member) :
    (unusedValue members).flatMap (Stmt.mentions scope) = [] := by
  unfold unusedValue
  split <;> rfl

/-- The helpers of an object mention the types of its members only. -/
theorem mem_classBodies {target : Target} {type : String} {members : List Member} {f : Function}
    (hf : f ∈ helperFunctions target type (classBodies target members))
    (h : m ∈ f.body.flatMap (Block.mentions scope)) :
    ∃ member ∈ members, m.type = member.emitted.name := by
  simp only [helperFunctions, List.mem_cons, List.not_mem_nil, or_false] at hf
  rcases hf with rfl | rfl | rfl | rfl | rfl
  · rw [classBodies, mentions_statements, List.flatMap_append, mentions_unusedValue] at h
    simp [List.flatMap_map, Stmt.mentions, Owner.typeIn, Member.pointer, Member.owner] at h
    obtain ⟨member, hmember, rfl⟩ := h
    exact ⟨member, hmember, rfl⟩
  · rw [classBodies, mentions_statements] at h
    obtain ⟨c, hc, h⟩ := mem_conjunction h
    obtain ⟨member, hmember, rfl⟩ := List.mem_map.mp hc
    simp [Owner.typeIn, Member.ofValue, Member.owner] at h
    exact ⟨member, hmember, by rw [h]⟩
  · rw [classBodies] at h
    obtain ⟨member, hmember, h⟩ := mem_dispatch_iff.mp h
    simp [Stmt.rejectIf, Stmt.mentions, Owner.typeIn, fieldValue, Member.owner] at h
    exact ⟨member, hmember, by rw [h]⟩
  · rw [classBodies, mentions_statements, List.flatMap_append, List.flatMap_append,
      mentions_unusedValue] at h
    simp [List.flatMap_map, Stmt.rejectIf, Stmt.accept, Stmt.mentions, TypeName.mentions,
      Owner.typeIn, Member.ofValue, Member.owner] at h
    obtain ⟨member, hmember, rfl⟩ := h
    exact ⟨member, hmember, rfl⟩
  · rw [classBodies, List.flatMap_append, mentions_statements, mentions_unusedValue,
      List.nil_append] at h
    obtain ⟨member, hmember, h⟩ := mem_dispatch_iff.mp h
    simp [Stmt.rejectIf, Stmt.mentions, Owner.typeIn, fieldValue, Member.pointer, Member.owner] at h
    exact ⟨member, hmember, by rw [h]⟩

/-- The methods of a class mention the class only. -/
theorem mem_methods {target : Target} {rawName type : String} {members : List Member} {f : Function}
    (hf : f ∈ Emit.methods target rawName type members)
    (h : m ∈ f.body.flatMap (Block.mentions scope)) : m.type = ⟨scope, type⟩ := by
  simp only [Emit.methods, List.mem_cons, List.not_mem_nil, or_false] at hf
  rcases hf with rfl | rfl | rfl | rfl | rfl
  · simp [Stmt.mentions, Owner.typeIn] at h
    rw [h]
  · rw [mentions_statements, equalityBody, List.flatMap_append, List.flatMap_append,
      List.flatMap_map] at h
    split at h <;> simp [Stmt.rejectIf, Stmt.accept, Stmt.mentions] at h
  · cases h
  · simp [toStringBody, Stmt.mentions, TypeName.mentions, Owner.typeIn] at h
    rw [h]
  · simp [fromStringBody, Stmt.rejectIf, Stmt.accept, Stmt.mentions, TypeName.mentions,
      Owner.typeIn] at h
    rcases h with rfl | rfl | rfl | rfl <;> rfl

end

/-! ## Nodes -/

/-- **Mentions in methods.** Only objects have methods, and these mention the class of the object. -/
theorem Place.mention_of_method {target : Target} {p : Place} {f : GeneratedFunction} {m : Mention}
    (hf : f ∈ p.functions target) (hmethod : f.isMethod = true) (hm : m ∈ f.mentions) :
    f.place = p ∧ p.node.isObject = true ∧ m.type = p.type := by
  rcases List.mem_append.mp hf with hf | hf
  · obtain ⟨function, hfunction, rfl⟩ := List.mem_map.mp hf
    cases hnode : p.node with
    | object members =>
      rw [Place.methods, hnode] at hfunction
      exact ⟨rfl, rfl, mem_methods hfunction hm⟩
    | _ => rw [Place.methods, hnode] at hfunction; cases hfunction
  · obtain ⟨function, -, rfl⟩ := List.mem_map.mp hf
    cases hmethod

/-- **Mentions in helpers.** The helpers of a scalar mention its own type, and all others the types
that the nodes directly below provide. -/
theorem Place.mention_of_helper {target : Target} {p : Place} {f : GeneratedFunction} {m : Mention}
    (hf : f ∈ p.functions target) (hmethod : f.isMethod = false) (hm : m ∈ f.mentions) :
    f.place = p ∧
      ((∃ s, p.node = .scalar s) ∧ m.type = p.type ∨ ∃ c ∈ p.children, m.type = c.provided) := by
  rcases List.mem_append.mp hf with hf | hf
  · obtain ⟨function, -, rfl⟩ := List.mem_map.mp hf
    cases hmethod
  · obtain ⟨function, hfunction, rfl⟩ := List.mem_map.mp hf
    obtain ⟨bodies, hbodies, hfunction⟩ := List.mem_flatMap.mp hfunction
    rw [Option.mem_toList] at hbodies
    refine ⟨rfl, ?_⟩
    cases hnode : p.node with
    | scalar s =>
      rw [Place.bodies?, hnode] at hbodies
      obtain rfl := Option.some.inj hbodies
      exact .inl ⟨⟨s, rfl⟩, (mem_aliasBodies hfunction hm).1⟩
    | array item bounds =>
      rw [Place.bodies?, hnode] at hbodies
      obtain rfl := Option.some.inj hbodies
      refine .inr ⟨⟨p.around, itemName p.name, item⟩, ?_, mem_vectorBodies hfunction hm⟩
      rw [Place.children_array hnode]
      exact List.mem_cons_self
    | object members =>
      rw [Place.bodies?, hnode] at hbodies
      obtain rfl := Option.some.inj hbodies
      obtain ⟨member, hmember, htype⟩ := mem_classBodies hfunction hm
      rw [emitMembers_eq] at hmember
      obtain ⟨named, hnamed, rfl⟩ := List.mem_map.mp hmember
      refine .inr ⟨⟨p.path, named.1, named.2⟩, ?_, ?_⟩
      · rw [Place.children_object hnode]
        exact mem_placesIn.mpr ⟨named, hnamed, rfl⟩
      · rw [htype]
        exact Node.emit_name target p.path named.1 named.2
    | reference r =>
      rw [Place.bodies?, hnode] at hbodies
      cases hbodies

end ConfigForge
