import ConfigForge.Proofs.Meaning

/-!
# The meaning of written code

Expressions, statements and bodies are written as lines at a place, and the lines are read as terms and
commands. What these mean is stated here for the code they are written from, so that code can be run
piece by piece. A call names its function by the text that stands at the place.

Results:

* `Expr.eval_integer`, `Expr.eval_text` and others: the value of each kind of expression.
* `runAll_rejectIf`: a test either ends a body or leaves everything as it is.
* `run_countLoop`: a counting loop keeps what each of its turns keeps.
* `run_conjunction`: a conjunction returns whether all its conditions hold.
* `runLines_bodyLines`: the lines of a body mean what its blocks mean.
-/

namespace ConfigForge.Cpp

open Code (Line Placement)
open Outcome (andThen)

section

variable (w : World) (p : Placement) (env : Env)

/-- The value of an expression that is written at a place. -/
def Expr.eval (e : Expr) : Option Value :=
  (e.term p).eval w env

/-- The variables after a value has been written to the cell that an expression names. -/
def Expr.write? (e : Expr) (new : Value) : Option Env :=
  (e.term p).write? w env new

/-- The variables after an expression has been evaluated for its effect. -/
def Expr.perform? (e : Expr) : Option Env :=
  (e.term p).perform? w env

/-- Runs a statement that is written at a place. -/
def Stmt.run (s : Stmt) : Option Outcome :=
  (s.statement p).run w env

/-- Runs statements one after the other. -/
def runAll (stmts : List Stmt) : Option Outcome :=
  runStatements w env (stmts.map (Stmt.statement p))

/-- Runs a block. -/
def Block.run (b : Block) : Option Outcome :=
  (b.command? p).bind (Command.run w env)

end

/-- Runs blocks one after the other. -/
def runBody (w : World) (p : Placement) (env : Env) : List Block → Option Outcome
  | [] => some (.running env)
  | b :: rest => andThen (b.run w p env) fun env => runBody w p env rest

/-! ## Expressions -/

section

variable {w : World} {p : Placement} {env : Env}

theorem Expr.eval_var {name : String} (h : literal? name = none) :
    (Expr.var name).eval w p env = env.get? name := by
  rw [Expr.eval, Expr.term, Term.eval_atom, h]
  rfl

theorem Expr.eval_val : Expr.val.eval w p env = env.get? "val" :=
  eval_var rfl

theorem Expr.eval_json : Expr.json.eval w p env = env.get? "json" :=
  eval_var rfl

theorem Expr.eval_bool (b : Bool) : (Expr.bool b).eval w p env = some (.bool b) := by
  rw [Expr.eval, Expr.term, Term.eval_atom, literal?_bool]
  rfl

theorem Expr.eval_integer (v : Int) (type : Primitive) :
    (Expr.integer v type).eval w p env = some (.integer v) := by
  rw [Expr.eval, Expr.term, integerTerm]
  split_ifs with hlowest
  · obtain ⟨-, rfl⟩ := hlowest
    rfl
  · have hdigits : literal? (magnitude v type) = some (.integer v.natAbs) :=
      literal?_toString_append _ _
    rw [integerLiteral_of_not_isLowest hlowest]
    by_cases hv : v < 0
    · rw [decide_eq_true hv, if_pos rfl, signedTerm_minus, Term.eval_minus, Term.eval_atom,
        hdigits]
      have hnegative : -(v.natAbs : Int) = v := by omega
      exact congrArg (fun i => some (Value.integer i)) hnegative
    · rw [decide_eq_false hv, if_neg Bool.false_ne_true, String.empty_append,
        signedTerm_of_word (isWord_magnitude v type).head?, Term.eval_atom, hdigits]
      have hpositive : (v.natAbs : Int) = v := by omega
      exact congrArg (fun i => some (Value.integer i)) hpositive

theorem Expr.eval_text (s : String) :
    (Expr.text s).eval w p env = some (.text (cutAtNul s)) := by
  rw [Expr.eval, Expr.term, Term.eval_atom, literal?_stringLiteral]
  rfl

theorem Expr.eval_size (n : Nat) : (Expr.size n).eval w p env = some (.integer n) := by
  have hdigits : literal? (toString n ++ "U") = some (.integer n) := literal?_toString_append n .u
  rw [Expr.eval, Expr.term, Term.eval_atom, hdigits]
  rfl

theorem Expr.eval_not {e : Expr} {b : Bool} (h : e.eval w p env = some (.bool b)) :
    (Expr.not e).eval w p env = some (.bool !b) := by
  rw [Expr.eval] at h
  rw [Expr.eval, Expr.term, Term.eval, h]

theorem Expr.eval_address (e : Expr) : (Expr.address e).eval w p env = e.eval w p env := rfl

theorem Expr.eval_paren (e : Expr) : (Expr.paren e).eval w p env = e.eval w p env := rfl

theorem Expr.eval_binary (op : BinaryOp) (left right : Expr) :
    (Expr.binary op left right).eval w p env =
      op.combine? (left.eval w p env) (right.eval w p env) := rfl

theorem Expr.eval_dot (e : Expr) (member : String) :
    (Expr.dot e member).eval w p env = (e.eval w p env).bind fun v => v.field? member := rfl

theorem Expr.eval_arrow (e : Expr) (member : String) :
    (Expr.arrow e member).eval w p env = (e.eval w p env).bind fun v => v.field? member := rfl

theorem Expr.eval_index (e position : Expr) :
    (Expr.index e position).eval w p env =
      (e.eval w p env).bind fun v => (position.eval w p env).bind fun i => v.item? i := rfl

theorem Expr.eval_ask (e : Expr) (question : String) :
    (e.ask question).eval w p env = (e.eval w p env).bind fun v => v.answer? question := rfl

/-- The text of a helper that is called. -/
def Owner.helperText (p : Placement) (h : Helper) (owner : Owner) : String :=
  (owner.helperLine h).fill p

theorem Owner.helperText_named (h : Helper) (q : QualifiedName) :
    (Owner.named q).helperText p h = q.helper h := by
  rw [helperText, helperLine, Line.fill_ofText]

/-- No helper is called like the type of strings. -/
theorem Owner.helperText_validate_ne (owner : Owner) :
    owner.helperText p .validate ≠ "std::string" := by
  have hletter : 'V' ∈ (owner.helperText p .validate).toList := by
    cases owner <;> simp [helperText, helperLine, QualifiedName.helper, Helper.name]
  intro heq
  rw [heq] at hletter
  revert hletter
  decide

/-- A call of `Validate`. -/
theorem Expr.eval_validate {owner : Owner} {e : Expr} {v : Value}
    (hpath : IsPath (owner.helperText p .validate)) (h : e.eval w p env = some v) :
    (Expr.callHelper .validate owner e).eval w p env =
      (w.validate (owner.helperText p .validate) v).map .bool := by
  rw [Expr.eval] at h
  rw [Expr.eval, Expr.callHelper, Expr.term, Expr.term, Term.eval_call, ← Owner.helperText,
    Term.path?_pathTerm hpath, Option.bind_some,
    if_neg owner.helperText_validate_ne, h]
  rfl

/-- A JSON node as a value of a type. -/
theorem Expr.eval_jsonAs {t : TypeName} {node : JsonNode} (hpath : IsPath (t.line.fill p))
    (h : env.get? "json" = some (.json node)) :
    (Expr.jsonAs t).eval w p env =
      (w.primitive? (t.line.fill p)).bind fun primitive => node.get? primitive := by
  have hjson : (Expr.json.term p).eval w env = some (.json node) := Expr.eval_json.trans h
  rw [Expr.eval, Expr.jsonAs, Expr.term, Expr.term, Expr.term, Term.eval, hjson,
    Term.path?_pathTerm hpath]
  rfl

/-! ## Effects -/

/-- A call of `Init`. -/
theorem Expr.perform?_init {owner : Owner} {e : Expr} (hpath : IsPath (owner.helperText p .init)) :
    (Expr.callHelper .init owner e).perform? w p env =
      (w.init (owner.helperText p .init) ((e.eval w p env).getD .blank)).bind
        fun new => e.write? w p env new := by
  rw [Expr.perform?, Expr.callHelper, Expr.term, Expr.term, Term.perform?, ← Owner.helperText,
    Term.path?_pathTerm hpath]
  rfl

theorem Expr.perform?_push {e item : Expr} {items : List Value} {v : Value}
    (he : e.eval w p env = some (.vector items)) (hitem : item.eval w p env = some v) :
    (Expr.call (.arrow e "push_back") item).perform? w p env =
      e.write? w p env (.vector (items ++ [v])) := by
  rw [Expr.eval] at he hitem
  have hmember : (Term.access .arrow (e.term p) "push_back").path? = none := rfl
  rw [Expr.perform?, Expr.term, Expr.term, Term.perform?, hmember]
  simp only [Term.performMember?, he, hitem]
  rfl

/-! ## Statements -/

theorem Stmt.run_assign {target value : Expr} {v : Value} (h : value.eval w p env = some v) :
    (Stmt.assign target value).run w p env = (target.write? w p env v).map .running := by
  rw [Expr.eval] at h
  rw [Stmt.run, Stmt.statement, Statement.run, h]
  rfl

theorem Stmt.run_evaluate (e : Expr) :
    (Stmt.evaluate e).run w p env = (e.perform? w p env).map .running := rfl

theorem Stmt.run_leave (e : Expr) :
    (Stmt.leave e).run w p env = (e.eval w p env).map fun v => .returned v env := rfl

theorem runAll_cons (s : Stmt) (rest : List Stmt) :
    runAll w p env (s :: rest) = andThen (s.run w p env) fun env => runAll w p env rest := rfl

theorem runStatements_append (first second : List Statement) :
    runStatements w env (first ++ second) =
      andThen (runStatements w env first) fun env => runStatements w env second := by
  induction first generalizing env with
  | nil => rfl
  | cons s first ih =>
    rw [List.cons_append, runStatements, runStatements, Outcome.andThen_assoc]
    exact congrArg (andThen _) (funext fun env => ih)

theorem runAll_append (first second : List Stmt) :
    runAll w p env (first ++ second) =
      andThen (runAll w p env first) fun env => runAll w p env second := by
  rw [runAll, List.map_append, runStatements_append]
  rfl

theorem runBody_append (first second : List Block) :
    runBody w p env (first ++ second) =
      andThen (runBody w p env first) fun env => runBody w p env second := by
  induction first generalizing env with
  | nil => rfl
  | cons b first ih =>
    rw [List.cons_append, runBody, runBody, Outcome.andThen_assoc]
    exact congrArg (andThen _) (funext fun env => ih)

theorem runBody_statements (stmts : List Stmt) :
    runBody w p env (Emit.statements stmts) = runAll w p env stmts := by
  induction stmts generalizing env with
  | nil => rfl
  | cons s stmts ih =>
    rw [runAll_cons, Emit.statements, List.map_cons, runBody]
    exact congrArg (andThen _) (funext fun env => ih)

/-- A test either ends a body or leaves everything as it is. -/
theorem runAll_rejectIf {condition : Expr} {b : Bool}
    (h : condition.eval w p env = some (.bool b)) (rest : List Stmt) :
    runAll w p env (.rejectIf condition :: rest) =
      if b then some (.returned (.bool false) env) else runAll w p env rest := by
  rw [Expr.eval] at h
  rw [runAll_cons, Stmt.rejectIf, Stmt.run, Stmt.statement, Statement.run, h]
  cases b <;> rfl

/-! ## Counting loops -/

theorem eval_countCondition {bound : Expr} {k n : Nat} (hi : env.get? "i" = some (.integer k))
    (hbound : bound.eval w p env = some (.integer n)) :
    ((Block.countCondition bound).term p).eval w env = some (.bool (decide (k < n))) := by
  have hvalue : (Expr.var "i").eval w p env = some (.integer k) := (Expr.eval_var rfl).trans hi
  have heval : (Block.countCondition bound).eval w p env = _ :=
    Expr.eval_binary .lt (.var "i") bound
  rw [hvalue, hbound] at heval
  refine heval.trans ?_
  simp [BinaryOp.combine?, BinaryOp.compare?, BinaryOp.holds?]

theorem perform?_increment {k : Nat} (hi : env.get? "i" = some (.integer k)) :
    (Term.unary .increment (.atom "i")).perform? w env =
      some (env.put "i" (.integer (k + 1 : Nat))) := by
  have hvalue : (Term.atom "i").eval w env = some (.integer k) := hi
  rw [Term.perform?, hvalue]
  rfl

/-- **Counting loops.** If a property of the variables is kept by every turn, it holds at the end of
the loop. The turns must not change `i` and the bound. -/
theorem run_countLoop {bound : Expr} {body : List Stmt} {n : Nat} (keeps : Nat → Env → Prop)
    (hbound : ∀ k env, keeps k env → bound.eval w p env = some (.integer n))
    (hturn : ∀ k env, k < n → keeps k env → env.get? "i" = some (.integer k) →
      ∃ env', runAll w p env body = some (.running env') ∧
        env'.get? "i" = some (.integer k) ∧ keeps (k + 1) (env'.put "i" (.integer (k + 1 : Nat))))
    (hstart : keeps 0 (env.put "i" (.integer 0))) (hturns : n < w.turns) :
    ∃ env', (Block.countLoop bound body).run w p env = some (.running env') ∧ keeps n env' := by
  -- behind `k` turns, the turns that are left cover those that are missing
  suffices hgoes : ∀ missing k env turns, k + missing = n → missing < turns → keeps k env →
      env.get? "i" = some (.integer k) →
        ∃ env', (Loop.mk (.declare (.atom "size_t") "i" (.atom "0"))
          ((Block.countCondition bound).term p) (.unary .increment (.atom "i"))
          (body.map (Stmt.statement p))).run w turns env = some (.running env') ∧ keeps n env' by
    exact hgoes n 0 _ w.turns (Nat.zero_add n) hturns hstart (Entries.get?_put_self _ _ _)
  intro missing
  induction missing with
  | zero =>
    intro k env turns hk hturns hkeeps hi
    obtain ⟨turns, rfl⟩ := Nat.exists_eq_succ_of_ne_zero (Nat.ne_zero_of_lt hturns)
    obtain rfl : k = n := hk
    refine ⟨env, ?_, hkeeps⟩
    rw [Loop.run, eval_countCondition hi (hbound k env hkeeps), decide_eq_false (Nat.lt_irrefl k)]
  | succ missing ih =>
    intro k env turns hk hturns hkeeps hi
    obtain ⟨turns, rfl⟩ := Nat.exists_eq_succ_of_ne_zero (Nat.ne_zero_of_lt hturns)
    have hlt : k < n := by omega
    obtain ⟨env₁, hbody, hi₁, hkeeps₁⟩ := hturn k env hlt hkeeps hi
    obtain ⟨env₂, hrest, hkeeps₂⟩ := ih (k + 1) _ turns (by omega) (by omega) hkeeps₁
      (Entries.get?_put_self _ _ _)
    refine ⟨env₂, ?_, hkeeps₂⟩
    rw [runAll] at hbody
    rw [Loop.run, eval_countCondition hi (hbound k env hkeeps), decide_eq_true hlt]
    simp only [hbody, Outcome.andThen_running, perform?_increment hi₁, Option.bind_some]
    exact hrest

/-! ## Conjunctions -/

/-- Whether conditions on the value in `val` have the given answers. -/
def Answered (w : World) (p : Placement) (v : Value) : List Expr → List Bool → Prop :=
  List.Forall₂ fun c b => ∀ env : Env, env.get? "val" = some v →
    c.eval w p env = some (.bool b)

theorem Answered.append {v : Value} {first second : List Expr} {answers answers' : List Bool}
    (h : Answered w p v first answers) (h' : Answered w p v second answers') :
    Answered w p v (first ++ second) (answers ++ answers') :=
  List.rel_append h h'

theorem eval_result : (Expr.var "result").eval w p env = env.get? "result" :=
  Expr.eval_var rfl

/-- The steps of a conjunction. -/
theorem runAll_conditions {conditions : List Expr} {answers : List Bool} {v : Value}
    (h : Answered w p v conditions answers) {b : Bool} (hval : env.get? "val" = some v)
    (hresult : env.get? "result" = some (.bool b)) :
    (runAll w p env (conditions.map (fun c => Stmt.assign (.var "result")
        (.binary .and (.var "result") c)) ++ [.leave (.var "result")])).bind Outcome.answer? =
      some (b && answers.all id) := by
  induction h generalizing env b with
  | nil =>
    rw [List.map_nil, List.nil_append, runAll_cons, Stmt.run_leave, eval_result, hresult,
      List.all_nil, Bool.and_true]
    rfl
  | @cons c answer conditions answers hc hrest ih =>
    have hstep : (Expr.binary .and (.var "result") c).eval w p env =
        some (.bool (b && answer)) := by
      rw [Expr.eval_binary, eval_result, hresult, hc env hval]
      cases b <;> rfl
    have hval' : (env.put "result" (.bool (b && answer))).get? "val" = some v := by
      rw [Entries.get?_put_of_ne _ (by decide), hval]
    have hafter := ih hval' (Entries.get?_put_self env "result" _)
    rw [List.map_cons, List.cons_append, runAll_cons, Stmt.run_assign hstep, List.all_cons, id,
      ← Bool.and_assoc]
    exact hafter

/-- **Conjunctions.** A conjunction of conditions on `val` returns whether all of them hold. -/
theorem run_conjunction {conditions : List Expr} {answers : List Bool} {v : Value}
    (h : Answered w p v conditions answers) (hval : env.get? "val" = some v) :
    (runBody w p env (Emit.statements (Emit.conjunction conditions))).bind Outcome.answer? =
      some (answers.all id) := by
  rw [runBody_statements, Emit.conjunction]
  cases conditions with
  | nil => cases h; rfl
  | cons c conditions =>
    have hval' : (env.put "result" (.bool true)).get? "val" = some v := by
      rw [Entries.get?_put_of_ne _ (by decide), hval]
    have hrest := runAll_conditions h hval' (Entries.get?_put_self env "result" (.bool true))
    rw [Bool.true_and] at hrest
    exact hrest

/-! ## Bodies -/

/-- **Bodies.** The lines of legible statements and counting loops mean what these mean. -/
theorem runLines_bodyLines {body : List Block} (hlegible : ∀ b ∈ body, b.Legible p)
    (hcommands : ∀ b ∈ body, (b.command? p).isSome = true) :
    runLines w env (Emit.bodyLines p body) = runBody w p env body := by
  obtain ⟨commands, h⟩ : ∃ commands : List Command,
      body.map (Block.command? p) = commands.map some := by
    clear hlegible
    induction body with
    | nil => exact ⟨[], rfl⟩
    | cons b body ih =>
      obtain ⟨hb, hbody⟩ := List.forall_mem_cons.mp hcommands
      obtain ⟨c, hc⟩ := Option.isSome_iff_exists.mp hb
      obtain ⟨commands, hcommands⟩ := ih hbody
      exact ⟨c :: commands, by rw [List.map_cons, hc, hcommands, List.map_cons]⟩
  rw [runLines, readCommands?_bodyLines hlegible h, Option.bind_some]
  clear hlegible hcommands
  induction body generalizing commands env with
  | nil =>
    obtain rfl := List.map_eq_nil_iff.mp h.symm
    rfl
  | cons b body ih =>
    obtain ⟨c, rest, rfl, hc, hrest⟩ := List.map_eq_cons_iff.mp h.symm
    rw [runCommands, runBody, Block.run, ← hc, Option.bind_some]
    exact congrArg (andThen _) (funext fun env => ih rest hrest.symm)

end

end ConfigForge.Cpp
