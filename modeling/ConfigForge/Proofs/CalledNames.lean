import ConfigForge.Proofs.LegibleCode
import ConfigForge.Proofs.Meaning

/-!
# Names that are called in lines of code

The names that are called with arguments are read off the lines of a body. In generated code they are
the helpers that the body was made to call, and a few functions of a library. To see this, it is enough
that a helper is named only where it is called; then the names in the text agree with those in the
tree, from expressions over statements to blocks.

Results:

* `Expr.CallsWithin.covers`: the calls in an expression are those in its term.
* `Place.callsWithin`: in the functions of a node, helpers are named only where they are called.
* `Schema.Admissible.covers_calledIn`: the calls in the lines of a function.
-/

namespace ConfigForge

open Code (Line Placement)
open Emit Cpp

/-! ## Calls in lines -/

namespace Cpp

/-- The names that a term calls with arguments. -/
def Term.called : Term → List String
  | .atom _ => []
  | .unary _ e | .access _ e _ | .call0 e => e.called
  | .binary _ left right | .index left right | .typed left right => left.called ++ right.called
  | .call function arguments => function.path?.toList ++ (function.called ++ arguments.called)

/-- The terms in a statement. -/
def Statement.terms : Statement → List Term
  | .assign e e' | .declare e _ e' | .leaveIf e e' => [e, e']
  | .declareEmpty e _ | .evaluate e | .discard e | .leave e => [e]

/-- The terms in an item. -/
def Item.terms : Item → List Term
  | .statement s => s.terms
  | .loop first condition step => first.terms ++ [condition, step]
  | .each _ e | .branch e | .elseBranch e => [e]
  | .otherwise | .close => []

/-- The names that an item calls with arguments. -/
def Item.called (item : Item) : List String :=
  item.terms.flatMap Term.called

/-- The names that lines call with arguments. -/
def calledIn (lines : List String) : List String :=
  lines.flatMap fun line => ((readItem? line).map Item.called).getD []

theorem calledIn_of_readItems? {lines : List String} {items : List Item}
    (h : readItems? lines = some items) : calledIn lines = items.flatMap Item.called := by
  induction lines generalizing items with
  | nil =>
    cases h
    rfl
  | cons line lines ih =>
    obtain ⟨item, hitem, htail⟩ := Option.bind_eq_some_iff.mp h
    obtain ⟨rest, hrest, rfl⟩ := Option.map_eq_some_iff.mp htail
    rw [calledIn, List.flatMap_cons, hitem, List.flatMap_cons, ← ih hrest]
    rfl

/-! ### Terms that call nothing -/

theorem called_pathTerm (text : String) : (pathTerm text).called = [] := by
  rw [pathTerm]
  induction pathNames text using List.reverseRecOn with
  | nil => rfl
  | append_singleton names name ih =>
    by_cases hnames : names = []
    · rw [hnames]
      rfl
    · rw [namesTerm_append hnames, Term.called, ih]

theorem called_signedTerm (text : String) : (signedTerm text).called = [] := by
  rw [signedTerm]
  split <;> rfl

theorem called_integerTerm (v : Int) (type : Primitive) : (integerTerm v type).called = [] := by
  rw [integerTerm]
  split
  · rfl
  · exact called_signedTerm _

/-! ## Calls in trees -/

/-- Whether an expression is the name of a helper. -/
def Expr.isHelper : Expr → Bool
  | .helper _ _ => true
  | _ => false

section

variable (library : List String) (p : Placement)

/-- Whether helpers are named only where they are called, and all other functions that are called by
name belong to a library. -/
def Expr.CallsWithin : Expr → Prop
  | .var _ | .bool _ | .integer _ _ | .double _ | .text _ | .count _ | .size _ => True
  | .not e | .deref e | .address e | .paren e | .dot e _ | .arrow e _ | .typed e _ | .call0 e =>
    e.CallsWithin
  | .binary _ left right | .index left right | .comma left right =>
    left.CallsWithin ∧ right.CallsWithin
  | .static _ _ | .type _ => True
  | .helper _ _ => False
  | .call function arguments =>
    (function.isHelper = true ∨
      function.CallsWithin ∧ ∀ name ∈ (function.term p).path?, name ∈ library) ∧
      arguments.CallsWithin

/-- The same for a statement. -/
def Stmt.CallsWithin : Stmt → Prop
  | .assign e e' | .leaveIf e e' => e.CallsWithin library p ∧ e'.CallsWithin library p
  | .declare _ _ e | .evaluate e | .leave e => e.CallsWithin library p
  | .declareEmpty _ _ | .discard _ => True

/-- The same for a block. -/
def Block.CallsWithin : Block → Prop
  | .line s => s.CallsWithin library p
  | .countLoop bound body => bound.CallsWithin library p ∧ ∀ s ∈ body, s.CallsWithin library p
  | .itemLoop body => ∀ s ∈ body, s.CallsWithin library p
  | .fieldLoop first rest => ∀ b ∈ first :: rest, b.2.CallsWithin library p

end

end Cpp

/-- The names of the helpers among mentions. -/
def helperNames (mentions : List Mention) : List String :=
  mentions.filterMap fun m => m.helper.map m.type.helper

theorem helperNames_append (ms ms' : List Mention) :
    helperNames (ms ++ ms') = helperNames ms ++ helperNames ms' :=
  List.filterMap_append

theorem helperNames_flatMap {α : Type} (l : List α) (f : α → List Mention) :
    helperNames (l.flatMap f) = l.flatMap fun a => helperNames (f a) :=
  List.filterMap_flatMap

theorem helperNames_type (scope : List String) (type : TypeName) :
    helperNames (TypeName.mentions scope type) = [] := by
  cases type <;> rfl

/-- Whether the called names are the given names, apart from names of a library. -/
structure Covers (library called names : List String) : Prop where
  called_of_name : ∀ name ∈ names, name ∈ called
  name_of_called : ∀ name ∈ called, name ∈ library ∨ name ∈ names

namespace Covers

variable {library called called' names names' : List String}

theorem nil : Covers library [] [] :=
  ⟨nofun, nofun⟩

theorem append (h : Covers library called names) (h' : Covers library called' names') :
    Covers library (called ++ called') (names ++ names') := by
  constructor
  · intro name hname
    rw [List.mem_append] at hname ⊢
    exact hname.imp (h.called_of_name name) (h'.called_of_name name)
  · intro name hname
    rw [List.mem_append]
    rcases List.mem_append.mp hname with hname | hname
    · exact (h.name_of_called name hname).imp_right .inl
    · exact (h'.name_of_called name hname).imp_right .inr

theorem flatMap {α : Type} {l : List α} {called : α → List String} {names : α → List String}
    (h : ∀ a ∈ l, Covers library (called a) (names a)) :
    Covers library (l.flatMap called) (l.flatMap names) := by
  induction l with
  | nil => exact nil
  | cons a l ih =>
    rw [List.flatMap_cons, List.flatMap_cons]
    exact (h a List.mem_cons_self).append (ih fun b hb => h b (List.mem_cons_of_mem _ hb))

end Covers

/-! ## Trees and terms -/

section

variable {library : List String} {scope : List String}

theorem fill_helperLine (h : Helper) (owner : Owner) :
    (owner.helperLine h).fill (scopePlacement scope) = (Owner.typeIn scope owner).helper h := by
  cases owner with
  | here type =>
    have htext := fill_helper_here (scopePlacement scope) h type
    rw [scopePlacement_scope] at htext
    exact htext
  | named q => exact fill_helper_named _ h q

/-- **Calls.** The names that the term of an expression calls are the helpers in the expression. -/
theorem Expr.CallsWithin.covers {e : Expr} (h : e.CallsWithin library (scopePlacement scope))
    (hlegible : e.Legible (scopePlacement scope)) :
    Covers library (e.term (scopePlacement scope)).called
      (helperNames (Expr.mentions scope e)) := by
  induction e with
  | var | bool | text | count | size => exact .nil
  | integer v type =>
    rw [Expr.term, called_integerTerm]
    exact .nil
  | double x =>
    rw [Expr.term, called_signedTerm]
    exact .nil
  | not e ih | deref e ih | address e ih | dot e member ih | arrow e member ih | call0 e ih =>
    exact ih h hlegible.1
  | paren e ih => exact ih h hlegible
  | binary op e e' ih ih' | index e e' ih ih' | comma e e' ih ih' =>
    rw [Expr.mentions, helperNames_append]
    exact (ih h.1 hlegible.1.1).append (ih' h.2 hlegible.1.2)
  | typed e type ih =>
    rw [Expr.mentions, helperNames_append, helperNames_type, Expr.term, Term.called,
      called_pathTerm]
    exact (ih h hlegible.1).append .nil
  | static type member =>
    rw [Expr.mentions, helperNames_type, Expr.term, Term.called, called_pathTerm]
    exact .nil
  | type type =>
    rw [Expr.mentions, helperNames_type, Expr.term, called_pathTerm]
    exact .nil
  | helper helper owner => exact h.elim
  | call function arguments ih ih' =>
    obtain ⟨hfunction, harguments⟩ := h
    obtain ⟨⟨hlegible, hlegible'⟩, -⟩ := hlegible
    rw [Expr.mentions, helperNames_append, Expr.term, Term.called, ← List.append_assoc]
    refine Covers.append ?_ (ih' harguments hlegible')
    rcases hfunction with hhelper | ⟨hwithin, hlibrary⟩
    · cases function with
      | helper helper owner =>
        have hpath : IsPath ((owner.helperLine helper).fill (scopePlacement scope)) := hlegible
        rw [Expr.term, called_pathTerm, Term.path?_pathTerm hpath, fill_helperLine]
        exact ⟨fun name hname => hname, fun name hname => .inr hname⟩
      | _ => cases hhelper
    · have hcovers := ih hwithin hlegible
      refine ⟨fun name hname => List.mem_append_right _ (hcovers.called_of_name name hname), ?_⟩
      intro name hname
      rcases List.mem_append.mp hname with hname | hname
      · exact .inl (hlibrary name (Option.mem_toList.mp hname))
      · exact hcovers.name_of_called name hname

theorem Stmt.CallsWithin.covers {s : Stmt} (h : s.CallsWithin library (scopePlacement scope))
    (hlegible : s.Legible (scopePlacement scope)) :
    Covers library ((s.statement (scopePlacement scope)).terms.flatMap Term.called)
      (helperNames (Stmt.mentions scope s)) := by
  cases s with
  | assign e e' | leaveIf e e' =>
    have hcovers := (Expr.CallsWithin.covers h.1 hlegible.1).append
      (Expr.CallsWithin.covers h.2 hlegible.2)
    rw [← helperNames_append] at hcovers
    simpa [Stmt.statement, Statement.terms, Stmt.mentions] using hcovers
  | declare type name e =>
    have hcovers := Expr.CallsWithin.covers h hlegible.2.2
    simpa [Stmt.statement, Statement.terms, Stmt.mentions, called_pathTerm, helperNames_append,
      helperNames_type] using hcovers
  | declareEmpty type name =>
    simpa [Stmt.statement, Statement.terms, Stmt.mentions, called_pathTerm,
      helperNames_type] using .nil
  | evaluate e | leave e =>
    have hcovers := Expr.CallsWithin.covers h hlegible
    simpa [Stmt.statement, Statement.terms, Stmt.mentions] using hcovers
  | discard name => exact .nil

theorem covers_statements {body : List Stmt}
    (h : ∀ s ∈ body, s.CallsWithin library (scopePlacement scope))
    (hlegible : ∀ s ∈ body, s.Legible (scopePlacement scope)) :
    Covers library
      ((body.map fun s => Item.statement (s.statement (scopePlacement scope))).flatMap Item.called)
      (helperNames (body.flatMap (Stmt.mentions scope))) := by
  rw [List.flatMap_map, helperNames_flatMap]
  exact .flatMap fun s hs => Stmt.CallsWithin.covers (h s hs) (hlegible s hs)

/-- The names that the lines of a block call are the helpers in the block. -/
theorem Block.CallsWithin.covers {b : Block} (h : b.CallsWithin library (scopePlacement scope))
    (hlegible : b.Legible (scopePlacement scope)) :
    Covers library ((b.items (scopePlacement scope)).flatMap Item.called)
      (helperNames (Block.mentions scope b)) := by
  cases b with
  | line s =>
    have hcovers := Stmt.CallsWithin.covers h hlegible
    simpa [Block.items, Block.mentions, Item.called, Item.terms] using hcovers
  | countLoop bound body =>
    have hbound := Expr.CallsWithin.covers h.1 hlegible.1.1.2
    have hbody := covers_statements h.2 hlegible.2
    have hcovers := hbound.append hbody
    rw [← helperNames_append] at hcovers
    simpa [Block.items, Block.mentions, Block.countHead, Block.countCondition, Item.called,
      Item.terms, Statement.terms, Term.called, Expr.term] using hcovers
  | itemLoop body =>
    have hcovers := covers_statements h hlegible
    simpa [Block.items, Block.mentions, Item.called, Item.terms, Term.called] using hcovers
  | fieldLoop first rest =>
    have hbranch : ∀ b ∈ first :: rest, Covers library
        ((b.2.statement (scopePlacement scope)).terms.flatMap Term.called)
        (helperNames (Stmt.mentions scope b.2)) :=
      fun b hb => Stmt.CallsWithin.covers (h b hb) (hlegible b hb)
    obtain ⟨hfirst, hrest⟩ := List.forall_mem_cons.mp hbranch
    have hcovers := hfirst.append (.flatMap hrest)
    rw [← helperNames_flatMap, ← helperNames_append] at hcovers
    simpa [Block.items, Block.mentions, Block.fieldHead, Block.branchCondition, Item.called,
      Item.terms, Statement.terms, Term.called, Expr.term, Expr.ask, List.flatMap_assoc] using hcovers

end

/-! ## Generated bodies -/

section

variable {library : List String} {p : Placement} {target : Target}

theorem callsWithin_rejectIf {e : Expr} (h : e.CallsWithin library p) :
    (Stmt.rejectIf e).CallsWithin library p :=
  ⟨h, trivial⟩

theorem forall_mem_statements_callsWithin {stmts : List Stmt} :
    (∀ b ∈ statements stmts, b.CallsWithin library p) ↔ ∀ s ∈ stmts, s.CallsWithin library p :=
  List.forall_mem_map

theorem callsWithin_conjunction {conditions : List Expr}
    (h : ∀ e ∈ conditions, e.CallsWithin library p) :
    ∀ s ∈ conjunction conditions, s.CallsWithin library p := by
  unfold conjunction
  split
  · exact List.forall_mem_cons.mpr ⟨trivial, List.forall_mem_singleton.mpr trivial⟩
  · refine List.forall_mem_append.mpr ⟨List.forall_mem_cons.mpr ⟨trivial, List.forall_mem_map.mpr ?_⟩,
      List.forall_mem_singleton.mpr trivial⟩
    exact fun e he => ⟨trivial, trivial, h e he⟩

/-! ### Scalars -/

theorem callsWithin_foldl_or {tests : List Expr} {e : Expr} (he : e.CallsWithin library p)
    (htests : ∀ t ∈ tests, t.CallsWithin library p) :
    (tests.foldl (fun e t => .binary .or e t) e).CallsWithin library p := by
  induction tests generalizing e with
  | nil => exact he
  | cons t rest ih =>
    obtain ⟨ht, hrest⟩ := List.forall_mem_cons.mp htests
    exact ih ⟨he, ht⟩ hrest

theorem callsWithin_signedCheck (range : IntRange) :
    ∀ s ∈ signedCheck range, s.CallsWithin library p := by
  have hall : ∀ e ∈ signedTests range, e.CallsWithin library p := by
    refine List.forall_mem_append.mpr ⟨?_, ?_⟩
    all_goals
      split
      · exact List.forall_mem_singleton.mpr ⟨trivial, trivial⟩
      · exact List.forall_mem_nil _
  unfold signedCheck
  split
  · exact List.forall_mem_nil _
  · next test tests htests =>
    rw [htests] at hall
    obtain ⟨htest, hrest⟩ := List.forall_mem_cons.mp hall
    exact List.forall_mem_singleton.mpr
      (callsWithin_rejectIf ⟨trivial, callsWithin_foldl_or htest hrest⟩)

theorem callsWithin_typeCheck (type : Primitive) :
    ∀ s ∈ typeCheck type, s.CallsWithin library p := by
  cases type with
  | integer signed width =>
    refine List.forall_mem_append.mpr ⟨List.forall_mem_cons.mpr
      ⟨callsWithin_rejectIf trivial, ?_⟩, callsWithin_signedCheck _⟩
    unfold unsignedCheck
    split
    · exact List.forall_mem_singleton.mpr (callsWithin_rejectIf ⟨trivial, trivial, trivial⟩)
    · exact List.forall_mem_nil _
  | _ => exact List.forall_mem_singleton.mpr (callsWithin_rejectIf trivial)

theorem callsWithin_initialValue (hlibrary : "std::string" ∈ library) (s : Scalar)
    (type : Primitive) : (initialValue s type).CallsWithin library p := by
  cases s with
  | string value =>
    simp only [initialValue, textValue]
    split
    · refine ⟨.inr ⟨trivial, fun name hname => ?_⟩, trivial, trivial⟩
      have hpath : IsPath "std::string" := ⟨["std"], "string", by decide, by decide⟩
      rw [Expr.term, TypeName.line, Line.fill_ofText, Term.path?_pathTerm hpath] at hname
      obtain rfl := Option.some.inj hname
      exact hlibrary
    · trivial
  | _ => trivial

theorem callsWithin_boundTests (s : Scalar) (type : Primitive) :
    ∀ e ∈ boundTests s type, e.CallsWithin library p := by
  cases s with
  | integer limits =>
    exact List.forall_mem_append.mpr ⟨forall_mem_toList_map (fun _ => ⟨trivial, trivial⟩) _,
      forall_mem_toList_map (fun _ => ⟨trivial, trivial⟩) _⟩
  | number limits =>
    exact List.forall_mem_append.mpr ⟨forall_mem_toList_map (fun _ => ⟨trivial, trivial⟩) _,
      forall_mem_toList_map (fun _ => ⟨trivial, trivial⟩) _⟩
  | _ => exact List.forall_mem_nil _

theorem callsWithin_aliasBodies (hlibrary : "std::string" ∈ library) (type : String) (s : Scalar)
    (primitive : Primitive) :
    ∀ f ∈ helperFunctions target type (aliasBodies type s primitive), ∀ b ∈ f.body,
      b.CallsWithin library p := by
  refine forall_mem_helperFunctions ?_ ?_ ?_ ?_ ?_
  all_goals refine forall_mem_statements_callsWithin.mpr ?_
  · exact List.forall_mem_singleton.mpr ⟨trivial, callsWithin_initialValue hlibrary s primitive⟩
  · exact callsWithin_conjunction (List.forall_mem_map.mpr (callsWithin_boundTests s primitive))
  · exact List.forall_mem_append.mpr ⟨callsWithin_typeCheck _,
      List.forall_mem_singleton.mpr (⟨.inl rfl, trivial⟩)⟩
  · exact List.forall_mem_cons.mpr ⟨⟨trivial, trivial⟩, List.forall_mem_singleton.mpr trivial⟩
  · exact List.forall_mem_append.mpr ⟨callsWithin_typeCheck _,
      List.forall_mem_cons.mpr ⟨⟨trivial, trivial⟩, List.forall_mem_singleton.mpr trivial⟩⟩

/-! ### Arrays -/

theorem callsWithin_sizeChecks (bounds : ItemBounds) {container : Expr}
    (h : container.CallsWithin library p) :
    ∀ s ∈ sizeChecks bounds container, s.CallsWithin library p := by
  refine List.forall_mem_append.mpr ⟨forall_mem_toList_map (fun n => ?_) _,
    forall_mem_toList_map (fun n => ?_) _⟩
  · exact callsWithin_rejectIf ⟨h, trivial⟩
  · exact callsWithin_rejectIf ⟨h, trivial⟩

theorem callsWithin_vectorBodies (type : String) (item : QualifiedName) (bounds : ItemBounds) :
    ∀ f ∈ helperFunctions target type (vectorBodies target item bounds), ∀ b ∈ f.body,
      b.CallsWithin library p := by
  have hcall : ∀ {helper : Helper} {arguments : Expr}, arguments.CallsWithin library p →
      (Stmt.rejectIf (.not (.callHelper helper (.named item) arguments))).CallsWithin library p :=
    fun h => callsWithin_rejectIf ⟨.inl rfl, h⟩
  have hpush : ∀ {e : Expr}, e.CallsWithin library p →
      (Stmt.evaluate (.call (.arrow e "push_back") element)).CallsWithin library p :=
    fun h => ⟨.inr ⟨h, nofun⟩, trivial⟩
  refine forall_mem_helperFunctions ?_ ?_ ?_ ?_ ?_
  · refine List.forall_mem_cons.mpr ⟨trivial, ?_⟩
    split
    · refine List.forall_mem_singleton.mpr ⟨trivial, List.forall_mem_cons.mpr ⟨trivial,
        List.forall_mem_cons.mpr ⟨⟨.inl rfl, trivial⟩,
          List.forall_mem_singleton.mpr (hpush trivial)⟩⟩⟩
    · exact List.forall_mem_nil _
  · exact List.forall_mem_append.mpr
      ⟨forall_mem_statements_callsWithin.mpr (callsWithin_sizeChecks bounds trivial),
        List.forall_mem_cons.mpr ⟨⟨trivial, List.forall_mem_singleton.mpr (hcall ⟨trivial, trivial⟩)⟩,
          List.forall_mem_singleton.mpr trivial⟩⟩
  · refine List.forall_mem_append.mpr ⟨forall_mem_statements_callsWithin.mpr
      (List.forall_mem_cons.mpr ⟨callsWithin_rejectIf trivial,
        callsWithin_sizeChecks bounds trivial⟩), ?_⟩
    exact List.forall_mem_cons.mpr ⟨List.forall_mem_singleton.mpr (hcall trivial),
      List.forall_mem_singleton.mpr trivial⟩
  · refine List.forall_mem_cons.mpr ⟨⟨trivial, trivial⟩, List.forall_mem_cons.mpr
      ⟨⟨trivial, List.forall_mem_cons.mpr ⟨trivial, List.forall_mem_cons.mpr
        ⟨hcall ⟨⟨trivial, trivial⟩, trivial⟩, List.forall_mem_singleton.mpr (hpush trivial)⟩⟩⟩,
          List.forall_mem_singleton.mpr trivial⟩⟩
  · refine List.forall_mem_cons.mpr ⟨callsWithin_rejectIf trivial, List.forall_mem_cons.mpr
      ⟨⟨.inr ⟨trivial, nofun⟩, trivial⟩, List.forall_mem_cons.mpr
        ⟨⟨trivial, List.forall_mem_cons.mpr ⟨⟨trivial, trivial⟩, List.forall_mem_cons.mpr
          ⟨hcall ⟨⟨trivial, trivial⟩, trivial⟩,
            List.forall_mem_singleton.mpr ⟨⟨trivial, trivial⟩, trivial⟩⟩⟩⟩,
          List.forall_mem_singleton.mpr trivial⟩⟩⟩

/-! ### Objects -/

variable {members : List Member}

theorem callsWithin_unusedValue (members : List Member) :
    ∀ s ∈ unusedValue members, s.CallsWithin library p := by
  unfold unusedValue
  split
  · exact List.forall_mem_singleton.mpr trivial
  · exact List.forall_mem_nil _

theorem callsWithin_dispatch {action : Member → Stmt}
    (h : ∀ m ∈ members, (action m).CallsWithin library p) :
    ∀ b ∈ dispatch action members, b.CallsWithin library p := by
  cases members with
  | nil => exact List.forall_mem_singleton.mpr ⟨trivial, trivial⟩
  | cons m rest =>
    obtain ⟨hm, hrest⟩ := List.forall_mem_cons.mp h
    exact List.forall_mem_cons.mpr ⟨callsWithin_rejectIf trivial, List.forall_mem_cons.mpr
      ⟨List.forall_mem_cons.mpr ⟨hm, List.forall_mem_map.mpr hrest⟩,
        List.forall_mem_singleton.mpr trivial⟩⟩

theorem callsWithin_classBodies (type : String) (members : List Member) :
    ∀ f ∈ helperFunctions target type (classBodies target members), ∀ b ∈ f.body,
      b.CallsWithin library p := by
  have hcall : ∀ {helper : Helper} {owner : Owner} {arguments : Expr},
      arguments.CallsWithin library p →
        (Stmt.rejectIf (.not (.callHelper helper owner arguments))).CallsWithin library p :=
    fun h => callsWithin_rejectIf ⟨.inl rfl, h⟩
  have hunused : ∀ s ∈ unusedValue members, s.CallsWithin library p :=
    callsWithin_unusedValue members
  refine forall_mem_helperFunctions ?_ ?_ ?_ ?_ ?_
  · exact forall_mem_statements_callsWithin.mpr (List.forall_mem_append.mpr
      ⟨hunused, List.forall_mem_map.mpr fun m _ => ⟨.inl rfl, trivial⟩⟩)
  · exact forall_mem_statements_callsWithin.mpr (callsWithin_conjunction
      (List.forall_mem_map.mpr fun m _ => ⟨.inl rfl, trivial⟩))
  · exact callsWithin_dispatch fun m _ => hcall trivial
  · exact forall_mem_statements_callsWithin.mpr (List.forall_mem_append.mpr
      ⟨List.forall_mem_append.mpr ⟨hunused, List.forall_mem_cons.mpr ⟨⟨trivial, trivial⟩,
        List.forall_mem_map.mpr fun m _ => hcall ⟨trivial, trivial, trivial⟩⟩⟩,
        List.forall_mem_singleton.mpr trivial⟩)
  · exact List.forall_mem_append.mpr ⟨forall_mem_statements_callsWithin.mpr hunused,
      callsWithin_dispatch fun m _ => hcall ⟨trivial, trivial⟩⟩

/-! ### Methods -/

/-- The functions by name that generated code calls besides helpers: two of libraries, and the hook of
a class. -/
def libraryNames (target : Target) : List String :=
  ["std::string", target.jsonType ++ "::parse", "pre_update"]

theorem callsWithin_fromStringBody (hjson : IsPath target.jsonType) (rawName type : String) :
    ∀ s ∈ fromStringBody target rawName type, s.CallsWithin (libraryNames target) p := by
  have hparse : ∀ name ∈ ((Expr.static (.plain target.jsonType) "parse").term p).path?,
      name ∈ libraryNames target := by
    intro name hname
    rw [Expr.term, TypeName.line, Line.fill_ofText, Term.path?, Term.path?_pathTerm hjson] at hname
    obtain rfl := Option.some.inj hname
    have htext : target.jsonType ++ "::" ++ "parse" = target.jsonType ++ "::parse" := by
      rw [String.append_assoc]
      rfl
    change target.jsonType ++ "::" ++ "parse" ∈ libraryNames target
    rw [htext]
    exact List.mem_cons_of_mem _ List.mem_cons_self
  have hhook : ∀ name ∈ ((Expr.var "pre_update").term p).path?, name ∈ libraryNames target := by
    intro name hname
    obtain rfl := Option.some.inj hname
    exact List.mem_cons_of_mem _ (List.mem_cons_of_mem _ List.mem_cons_self)
  refine List.forall_mem_cons.mpr ⟨?_, List.forall_mem_cons.mpr ⟨?_, List.forall_mem_cons.mpr ⟨?_,
    List.forall_mem_cons.mpr ⟨?_, List.forall_mem_cons.mpr ⟨?_, List.forall_mem_cons.mpr ⟨?_,
      List.forall_mem_cons.mpr ⟨?_, List.forall_mem_cons.mpr ⟨?_, List.forall_mem_cons.mpr ⟨?_,
        List.forall_mem_cons.mpr ⟨?_, List.forall_mem_singleton.mpr trivial⟩⟩⟩⟩⟩⟩⟩⟩⟩⟩
  · exact ⟨.inr ⟨trivial, hparse⟩, ⟨trivial, trivial⟩, trivial⟩
  · exact callsWithin_rejectIf ⟨⟨trivial, trivial⟩, trivial, trivial⟩
  · exact ⟨.inr ⟨trivial, fun _ h => absurd h (Option.not_mem_none _)⟩, trivial⟩
  · exact callsWithin_rejectIf ⟨trivial, trivial⟩
  · exact callsWithin_rejectIf ⟨trivial, .inl rfl, trivial⟩
  · trivial
  · exact callsWithin_rejectIf ⟨.inl rfl, trivial, trivial⟩
  · exact callsWithin_rejectIf ⟨trivial, .inl rfl, trivial⟩
  · exact callsWithin_rejectIf ⟨trivial, .inr ⟨trivial, hhook⟩, trivial, trivial⟩
  · exact ⟨trivial, trivial⟩

theorem callsWithin_methods (hjson : IsPath target.jsonType) (rawName type : String)
    (members : List Member) :
    ∀ f ∈ methods target rawName type members, ∀ b ∈ f.body,
      b.CallsWithin (libraryNames target) p := by
  refine List.forall_mem_cons.mpr ⟨?_, List.forall_mem_cons.mpr ⟨?_, List.forall_mem_cons.mpr ⟨?_,
    List.forall_mem_cons.mpr ⟨?_, List.forall_mem_singleton.mpr ?_⟩⟩⟩⟩
  all_goals refine forall_mem_statements_callsWithin.mpr ?_
  · exact List.forall_mem_singleton.mpr ⟨.inl rfl, trivial⟩
  · refine List.forall_mem_append.mpr ⟨List.forall_mem_append.mpr ⟨?_, List.forall_mem_map.mpr
      fun m _ => callsWithin_rejectIf ⟨trivial, trivial⟩⟩, List.forall_mem_singleton.mpr trivial⟩
    split
    · exact List.forall_mem_singleton.mpr trivial
    · exact List.forall_mem_nil _
  · exact List.forall_mem_singleton.mpr ⟨trivial, trivial⟩
  · exact List.forall_mem_cons.mpr ⟨trivial, List.forall_mem_cons.mpr
      ⟨⟨⟨.inl rfl, trivial, trivial, trivial⟩, trivial⟩, List.forall_mem_singleton.mpr trivial⟩⟩
  · exact callsWithin_fromStringBody hjson rawName type

/-- **Helpers are called.** In the functions of a node, helpers are named only where they are
called. -/
theorem Place.callsWithin (hjson : IsPath target.jsonType) (place : Place) (p : Placement) :
    ∀ f ∈ place.functions target, ∀ b ∈ f.function.body,
      b.CallsWithin (libraryNames target) p := by
  refine List.forall_mem_append.mpr ⟨List.forall_mem_map.mpr ?_, List.forall_mem_map.mpr ?_⟩
  · rw [Place.methods]
    cases place.node with
    | object members => exact callsWithin_methods hjson _ _ _
    | _ => exact List.forall_mem_nil _
  · refine List.forall_mem_flatMap.mpr fun bodies hbodies => ?_
    exact Place.bodies?_cases
      (P := fun bodies => ∀ f ∈ helperFunctions target place.type.name bodies, ∀ b ∈ f.body,
        b.CallsWithin (libraryNames target) p) (Option.mem_toList.mp hbodies)
      (fun _ _ => callsWithin_aliasBodies List.mem_cons_self _ _ _)
      (fun _ _ => callsWithin_classBodies _ _) fun _ _ _ => callsWithin_vectorBodies _ _ _

end

/-! ## Functions -/

/-- **Calls in functions.** The names that are called in the lines of a function, behind its head, are
those of the helpers that its body calls, apart from the functions of libraries. -/
theorem Schema.Admissible.covers_calledIn {t : Schema} (ht : t.Admissible)
    (hrefs : EachReferenceIn Reference.IsSettled [] [] t.entries) {p : Place} (hp : t.Has p)
    {target : Target} (hjson : IsPath target.jsonType) {f : GeneratedFunction}
    (hf : f ∈ p.functions target) (hplace : f.place = p) :
    Covers (libraryNames target) (calledIn (f.lines.drop 1)) (helperNames f.mentions) := by
  have hlegible := ht.legible_functions hp hrefs hjson hf
  have hwithin := Place.callsWithin hjson p (scopePlacement p.scope) f hf
  have hlines : f.lines.drop 1 =
      bodyLines (scopePlacement p.scope) f.function.body ++ ["\x7d", ""] := by
    rw [GeneratedFunction.lines, fill_functionLines, hplace]
    rfl
  have hend : calledIn ["\x7d", ""] = [] := by decide
  have hcalled : calledIn (f.lines.drop 1) =
      f.function.body.flatMap fun b => (b.items (scopePlacement p.scope)).flatMap Item.called := by
    have hitems := calledIn_of_readItems? (readItems?_bodyLines hlegible)
    rw [List.flatMap_assoc] at hitems
    rw [hlines, ← hitems, calledIn, List.flatMap_append]
    exact (congrArg _ hend).trans (List.append_nil _)
  rw [hcalled, GeneratedFunction.mentions, helperNames_flatMap, hplace]
  exact .flatMap fun b hb => Block.CallsWithin.covers (hwithin b hb) (hlegible b hb)

end ConfigForge
