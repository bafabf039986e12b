import ConfigForge.Cpp.Function
import ConfigForge.Proofs.CodeTerms

/-!
# Statements and loops in lines of code

Every line of a function body is one item: a statement, the head of a loop or of a branch, or a closing
brace. Items are read from the tokens of the line, with terms for the expressions in them. A body is
then a sequence of commands, which are statements and counting loops.

Results:

* `Stmt.Legible.readItem?_eq`: the line of a statement is read as the statement.
* `Block.Legible.readItems?_eq`: the lines of a block are read as its items.
* `readCommands?_bodyLines`: a body of statements and counting loops is read as its commands.
-/

namespace ConfigForge.Cpp

open Code (Line Placement)

/-! ## Statements -/

/-- Statements as they are read. -/
inductive Statement where
  | assign (target value : Term)
  | declare (type : Term) (name : String) (value : Term)
  | declareEmpty (type : Term) (name : String)
  | evaluate (e : Term)
  | discard (e : Term)
  | leave (e : Term)
  | leaveIf (condition e : Term)
deriving DecidableEq, Repr

/-- What a line of a body is. -/
inductive Item where
  | statement (s : Statement)
  /-- `for (first; condition; step) \x7b` -/
  | loop (first : Statement) (condition step : Term)
  /-- `for (const auto &name : container) \x7b` -/
  | each (name : String) (container : Term)
  /-- `if (condition) \x7b` -/
  | branch (condition : Term)
  /-- `\x7d else if (condition) \x7b` -/
  | elseBranch (condition : Term)
  /-- `\x7d else \x7b` -/
  | otherwise
  /-- `\x7d` -/
  | close
deriving DecidableEq, Repr

/-! ## Reading a line -/

/-- The tokens behind a given one. -/
def expect? (sign : String) : List (List Char) → Option (List (List Char))
  | [] => none
  | token :: rest => if token = sign.toList then some rest else none

/-- The term in front of a given token and the tokens behind that token. -/
def termUpTo? (sign : String) (ts : List (List Char)) : Option (Term × List (List Char)) :=
  (readTerm? ts).bind fun r => (expect? sign r.2).map (r.1, ·)

/-- What has been read, if nothing follows. -/
def whole? {α : Type} (r : Option (α × List (List Char))) : Option α :=
  r.bind fun r => if r.2 = [] then some r.1 else none

/-- What has been read, if a brace is opened and nothing follows. -/
def opening? {α : Type} (r : Option (α × List (List Char))) : Option α :=
  r.bind fun r => if r.2 = [['\x7b']] then some r.1 else none

/-- The declaration of a variable behind its name. -/
def declaration? (type : Term) (name : String) :
    List (List Char) → Option (Statement × List (List Char))
  | [] => none
  | token :: rest =>
    if token = [';'] then some (.declareEmpty type name, rest)
    else if token = ['='] then (termUpTo? ";" rest).map fun r => (.declare type name r.1, r.2)
    else none

/-- What follows the first term of a statement. -/
def behindTerm? (e : Term) : List (List Char) → Option (Statement × List (List Char))
  | [] => none
  | token :: rest =>
    if token = [';'] then some (.evaluate e, rest)
    else if token = ['='] then (termUpTo? ";" rest).map fun r => (.assign e r.1, r.2)
    else if token.head?.any isWordChar then declaration? e (String.ofList token) rest
    else none

/-- A statement that begins with a term, and the tokens behind it. -/
def simple? (ts : List (List Char)) : Option (Statement × List (List Char)) :=
  (readTerm? ts).bind fun r => behindTerm? r.1 r.2

/-- The condition behind `if` and the tokens behind it. -/
def condition? (ts : List (List Char)) : Option (Term × List (List Char)) :=
  (expect? "(" ts).bind (termUpTo? ")")

/-- What follows `if`. -/
def ifItem? (ts : List (List Char)) : Option Item :=
  (condition? ts).bind fun r =>
    if r.2 = [['\x7b']] then some (.branch r.1)
    else (expect? "return" r.2).bind fun rest =>
      (whole? (termUpTo? ";" rest)).map fun e => .statement (.leaveIf r.1 e)

/-- The head of a loop over a container, behind its opening words. -/
def eachItem? : List (List Char) → Option Item
  | name :: rest =>
    (expect? ":" rest).bind fun rest =>
      (opening? (termUpTo? ")" rest)).map (.each (String.ofList name))
  | [] => none

/-- The head of a loop, behind `for` and the bracket. -/
def forItem? (ts : List (List Char)) : Option Item :=
  if ts.take 3 = ["const", "auto", "&"].map String.toList then eachItem? (ts.drop 3)
  else (simple? ts).bind fun first => (termUpTo? ";" first.2).bind fun condition =>
    (opening? (termUpTo? ")" condition.2)).map (.loop first.1 condition.1)

/-- What follows a closing brace. -/
def closeItem? (ts : List (List Char)) : Option Item :=
  if ts = [] then some .close
  else if ts = ["else".toList, ['\x7b']] then some .otherwise
  else (expect? "else" ts).bind fun ts => (expect? "if" ts).bind fun ts =>
    (opening? (condition? ts)).map .elseBranch

/-- The item that a line begins with one of the words or signs of statements. -/
def wordItem? : List (List Char) → Option Item
  | [] => none
  | token :: rest =>
    if token = "return".toList then
      (whole? (termUpTo? ";" rest)).map fun e => .statement (.leave e)
    else if token = "if".toList then ifItem? rest
    else if token = "for".toList then (expect? "(" rest).bind forItem?
    else if token = ['\x7d'] then closeItem? rest
    else if token = ['('] then
      (expect? "void" rest).bind fun rest => (expect? ")" rest).bind fun rest =>
        (whole? (termUpTo? ";" rest)).map fun e => .statement (.discard e)
    else none

/-- The item that a line is. -/
def readItem? (line : String) : Option Item :=
  ((whole? (simple? (tokens line))).map .statement).or (wordItem? (tokens line))

/-! ## Terms in a line -/

/-- A word ends a term. -/
theorem endsTerm_word {name : String} (h : IsWord name) : endsTerm name.toList = true := by
  have hhead := h.head?
  have hbracket : [['('], ['[']].contains name.toList = false := by
    rw [← Bool.not_eq_true, List.contains_iff_mem]
    intro hmem
    have hall : ∀ token ∈ [['('], ['[']], token.head?.any isWordChar = false := by decide
    rw [hall _ hmem] at hhead
    cases hhead
  rw [endsTerm, signOf?_eq_none hhead (by decide), signOf?_eq_none hhead (by decide), hbracket]
  rfl

section

variable {ts us : List (List Char)} {level level' : Nat} {t s : Term} {name : String}

theorem Parses.termUpTo?_eq (h : Parses ts level t) {sign : String}
    (hsign : endsTerm sign.toList = true) (rest : List (List Char)) :
    termUpTo? sign (ts ++ sign.toList :: rest) = some (t, rest) := by
  rw [termUpTo?, h.readTerm?_cons hsign rest, Option.bind_some, expect?, if_pos rfl]
  rfl

theorem Parses.simple?_evaluate (h : Parses ts level t) (rest : List (List Char)) :
    simple? (ts ++ [';'] :: rest) = some (.evaluate t, rest) := by
  rw [simple?, h.readTerm?_cons (by decide) rest, Option.bind_some, behindTerm?, if_pos rfl]

theorem Parses.simple?_assign (h : Parses ts level t) (h' : Parses us level' s)
    (rest : List (List Char)) :
    simple? (ts ++ ['='] :: (us ++ [';'] :: rest)) = some (.assign t s, rest) := by
  have hvalue : termUpTo? ";" (us ++ [';'] :: rest) = some (s, rest) :=
    h'.termUpTo?_eq (by decide) rest
  rw [simple?, h.readTerm?_cons (by decide), Option.bind_some, behindTerm?, if_neg (by decide),
    if_pos rfl, hvalue, Option.map_some]

/-- A term and a name begin a declaration. -/
theorem Parses.simple?_name (h : Parses ts level t) (hname : IsWord name)
    (rest : List (List Char)) :
    simple? (ts ++ name.toList :: rest) = declaration? t name rest := by
  have hsemicolon : name.toList ≠ [';'] := ne_of_any_head? hname.head? (by decide)
  have hequals : name.toList ≠ ['='] := ne_of_any_head? hname.head? (by decide)
  rw [simple?, h.readTerm?_cons (endsTerm_word hname), Option.bind_some, behindTerm?,
    if_neg hsemicolon, if_neg hequals, if_pos hname.head?, String.ofList_toList]

theorem Parses.simple?_declare (h : Parses ts level t) (hname : IsWord name)
    (h' : Parses us level' s) (rest : List (List Char)) :
    simple? (ts ++ name.toList :: ['='] :: (us ++ [';'] :: rest)) =
      some (.declare t name s, rest) := by
  have hvalue : termUpTo? ";" (us ++ [';'] :: rest) = some (s, rest) :=
    h'.termUpTo?_eq (by decide) rest
  rw [h.simple?_name hname, declaration?, if_neg (by decide), if_pos rfl, hvalue, Option.map_some]

theorem Parses.simple?_declareEmpty (h : Parses ts level t) (hname : IsWord name)
    (rest : List (List Char)) :
    simple? (ts ++ name.toList :: [';'] :: rest) = some (.declareEmpty t name, rest) := by
  rw [h.simple?_name hname, declaration?, if_pos rfl]

theorem Parses.condition?_eq (h : Parses ts level t) (rest : List (List Char)) :
    condition? (['('] :: (ts ++ [')'] :: rest)) = some (t, rest) :=
  (h.termUpTo?_eq (by decide) rest : termUpTo? ")" (ts ++ [')'] :: rest) = some (t, rest))

end

/-! ## Items in a line -/

section

variable {line : String} {ts us : List (List Char)} {level level' : Nat} {t s : Term}

theorem CutInto.readItem?_simple {statement : Statement} (hcut : CutInto line ts)
    (h : simple? ts = some (statement, [])) : readItem? line = some (.statement statement) := by
  rw [readItem?, hcut.tokens_eq, h]
  rfl

/-- The words and signs of statements begin no term. -/
theorem readItem?_of_word {token : List Char} {rest : List (List Char)}
    (h : tokens line = token :: rest)
    (htoken : token ∈ ["return", "if", "for", "\x7d"].map String.toList) :
    readItem? line = wordItem? (token :: rest) := by
  have hsimple : simple? (token :: rest) = none := by
    simp only [List.map_cons, List.map_nil, List.mem_cons, List.not_mem_nil, or_false] at htoken
    rcases htoken with rfl | rfl | rfl | rfl <;> rfl
  rw [readItem?, h, hsimple]
  rfl

theorem readItem?_discard {rest : List (List Char)}
    (h : tokens line = ['('] :: "void".toList :: [')'] :: rest) :
    readItem? line = (whole? (termUpTo? ";" rest)).map fun e => .statement (.discard e) := by
  have hsimple : simple? (['('] :: "void".toList :: [')'] :: rest) = none := rfl
  rw [readItem?, h, hsimple]
  rfl

theorem readItem?_leave (h : Parses ts level t)
    (hline : tokens line = "return".toList :: (ts ++ [[';']])) :
    readItem? line = some (.statement (.leave t)) := by
  have hvalue : termUpTo? ";" (ts ++ [[';']]) = some (t, []) := h.termUpTo?_eq (by decide) []
  rw [readItem?_of_word hline (by decide), wordItem?, if_pos rfl, hvalue]
  rfl

theorem readItem?_leaveIf (h : Parses ts level t) (h' : Parses us level' s)
    (hline : tokens line = "if".toList :: ['('] :: (ts ++ [')'] :: "return".toList ::
      (us ++ [[';']]))) :
    readItem? line = some (.statement (.leaveIf t s)) := by
  have hvalue : termUpTo? ";" (us ++ [[';']]) = some (s, []) := h'.termUpTo?_eq (by decide) []
  have hbrace : "return".toList :: (us ++ [[';']]) ≠ [['\x7b']] := by
    intro heq
    exact absurd (List.cons.inj heq).1 (by decide)
  rw [readItem?_of_word hline (by decide), wordItem?, if_neg (by decide), if_pos rfl, ifItem?,
    h.condition?_eq, Option.bind_some, if_neg hbrace, expect?, if_pos rfl, Option.bind_some, hvalue]
  rfl

end

/-! ## Lines of statements -/

namespace Stmt

variable (p : Placement)

/-- The statement that a line is read as. -/
def statement : Stmt → Statement
  | .assign target value => .assign (target.term p) (value.term p)
  | .declare type name value => .declare (pathTerm (type.line.fill p)) name (value.term p)
  | .declareEmpty type name => .declareEmpty (pathTerm (type.line.fill p)) name
  | .evaluate e => .evaluate (e.term p)
  | .discard name => .discard (.atom name)
  | .leave e => .leave (e.term p)
  | .leaveIf condition e => .leaveIf (condition.term p) (e.term p)

/-- Whether the line of a statement says what the statement is. -/
def Legible : Stmt → Prop
  | .assign target value => target.Legible p ∧ value.Legible p
  | .declare type name value => IsPath (type.line.fill p) ∧ IsWord name ∧ value.Legible p
  | .declareEmpty type name => IsPath (type.line.fill p) ∧ IsWord name
  | .evaluate e => e.Legible p
  | .discard name => IsName name
  | .leave e => e.Legible p
  | .leaveIf condition e => condition.Legible p ∧ e.Legible p

end Stmt

section

variable {text more : String} {ts us : List (List Char)} {level : Nat} {ended : Bool} {t : Term}

theorem CutInto.cons_blank (sign : String) (h : CutInto text ts) (htoken : isToken sign.toList = true)
    (hquote : sign.toList.head? ≠ some '"') :
    CutInto (sign ++ (" " ++ text)) (sign.toList :: ts) :=
  (CutInto.token htoken).append h.blank
    (stops_of_head? (separator_append " " text (by decide))
      fun _ hc => goesOn_of_isSeparator hc hquote)

theorem CutInto.cons_bracket (h : CutInto text ts) : CutInto ("(" ++ text) (['('] :: ts) :=
  (CutInto.self "(" (by decide) (by decide)).append h
    (stops_bracket (by decide) h.toList_ne_nil)

/-- What stands behind a term and begins with a separator. -/
theorem Reads.cut_append (h : Reads text level ended t) (h' : CutInto more us)
    (hmore : more.toList.head?.any isSeparator = true) :
    CutInto (text ++ more) (tokens text ++ us) :=
  h.cut.append h' (h.stops hmore)

theorem Reads.cut_semicolon (h : Reads text level ended t) :
    CutInto (text ++ ";") (tokens text ++ [[';']]) :=
  h.cut_append (.token (by decide)) (by decide)

theorem IsWord.cut_blank {name : String} (hname : IsWord name) (h : CutInto text ts) :
    CutInto (name ++ (" " ++ text)) (name.toList :: ts) :=
  h.cons_blank name hname.isToken hname.ne_quote

theorem IsWord.cut_semicolon {name : String} (hname : IsWord name) :
    CutInto (name ++ ";") [name.toList, [';']] :=
  (CutInto.word hname).append (.token (by decide)) (stops_of_head? (s := ";") (p := isSeparator)
    (by decide) fun _ hc => goesOn_of_isSeparator hc hname.ne_quote)

end

/-- **Statements.** The line of a legible statement is read as the statement. -/
theorem Stmt.Legible.readItem?_eq {p : Placement} {s : Stmt} (h : s.Legible p) :
    readItem? (s.line.fill p) = some (.statement (s.statement p)) := by
  have hblank : ∀ text : String, (" " ++ text).toList.head?.any isSeparator = true := fun text =>
    separator_append " " text (by decide)
  cases s with
  | assign target value =>
    obtain ⟨htarget, hvalue⟩ := h
    have hline : (Stmt.assign target value).line.fill p =
        target.line.fill p ++ (" " ++ ("=" ++ (" " ++ (value.line.fill p ++ ";")))) := by
      simp only [Stmt.line, Line.fill_text, Line.fill_append, String.append_assoc]
      rfl
    have hcut := htarget.reads.cut_append (hvalue.reads.cut_semicolon.cons_blank "="
      (by decide) (by decide)).blank (hblank _)
    rw [hline]
    exact hcut.readItem?_simple (htarget.reads.parses.simple?_assign hvalue.reads.parses [])
  | declare type name value =>
    obtain ⟨htype, hname, hvalue⟩ := h
    have hline : (Stmt.declare type name value).line.fill p = type.line.fill p ++ (" " ++ (name ++
        (" " ++ ("=" ++ (" " ++ (value.line.fill p ++ ";")))))) := by
      simp only [Stmt.line, Line.fill_text, Line.fill_append, String.append_assoc]
      rfl
    have hcut := (reads_path htype).cut_append (hname.cut_blank
      (hvalue.reads.cut_semicolon.cons_blank "=" (by decide) (by decide))).blank (hblank _)
    rw [hline]
    exact hcut.readItem?_simple
      ((reads_path htype).parses.simple?_declare hname hvalue.reads.parses [])
  | declareEmpty type name =>
    obtain ⟨htype, hname⟩ := h
    have hline : (Stmt.declareEmpty type name).line.fill p =
        type.line.fill p ++ (" " ++ (name ++ ";")) := by
      simp only [Stmt.line, Line.fill_text, String.append_assoc]
    have hcut := (reads_path htype).cut_append hname.cut_semicolon.blank (hblank _)
    rw [hline]
    exact hcut.readItem?_simple ((reads_path htype).parses.simple?_declareEmpty hname [])
  | evaluate e =>
    have hline : (Stmt.evaluate e).line.fill p = e.line.fill p ++ ";" := by
      simp only [Stmt.line, Line.fill_text]
    have hreads := Expr.Legible.reads h
    rw [hline]
    exact hreads.cut_semicolon.readItem?_simple (hreads.parses.simple?_evaluate [])
  | discard name =>
    have hname := Reads.name h
    have hline : (Stmt.discard name).line.fill p = "(void)" ++ (name ++ ";") := by
      simp only [Stmt.line, Line.fill_ofText, String.append_assoc]
    have hcut := (CutInto.self "(void)" (by decide) (by decide)).append
      hname.cut_semicolon (stops_bracket (by decide) hname.cut_semicolon.toList_ne_nil)
    have hvalue : termUpTo? ";" (tokens name ++ [[';']]) = some (.atom name, []) :=
      hname.parses.termUpTo?_eq (by decide) []
    rw [hline, readItem?_discard hcut.tokens_eq]
    exact congrArg (Option.map _) (congrArg whole? hvalue)
  | leave e =>
    have hline : (Stmt.leave e).line.fill p = "return" ++ (" " ++ (e.line.fill p ++ ";")) := by
      simp only [Stmt.line, Line.fill_text, Line.fill_append, Line.fill_ofText, String.append_assoc]
      rfl
    have hcut := (Expr.Legible.reads h).cut_semicolon.cons_blank "return" (by decide)
      (by decide)
    rw [hline]
    exact readItem?_leave (Expr.Legible.reads h).parses hcut.tokens_eq
  | leaveIf condition e =>
    obtain ⟨hcondition, he⟩ := h
    have hline : (Stmt.leaveIf condition e).line.fill p = "if" ++ (" " ++ ("(" ++
        (condition.line.fill p ++ (")" ++ (" " ++ ("return" ++ (" " ++
          (e.line.fill p ++ ";")))))))) := by
      simp only [Stmt.line, Line.fill_text, Line.fill_append, Line.fill_ofText, String.append_assoc]
      rfl
    have hreturn := (he.reads.cut_semicolon.cons_blank "return" (by decide)
      (by decide)).cons_blank ")" (by decide) (by decide)
    have hcut := ((hcondition.reads.cut_append hreturn (separator_append ")" _
      (by decide))).cons_bracket.cons_blank "if" (by decide) (by decide))
    rw [hline]
    exact readItem?_leaveIf hcondition.reads.parses he.reads.parses hcut.tokens_eq

/-! ## Lines of blocks -/

/-- The items of several lines. -/
def readItems? : List String → Option (List Item)
  | [] => some []
  | line :: rest => (readItem? line).bind fun item => (readItems? rest).map (item :: ·)

theorem readItems?_append {lines more : List String} {items others : List Item}
    (h : readItems? lines = some items) (h' : readItems? more = some others) :
    readItems? (lines ++ more) = some (items ++ others) := by
  induction lines generalizing items with
  | nil =>
    obtain rfl := Option.some.inj h
    exact h'
  | cons line lines ih =>
    obtain ⟨item, hitem, htail⟩ := Option.bind_eq_some_iff.mp h
    obtain ⟨rest, hrest, rfl⟩ := Option.map_eq_some_iff.mp htail
    rw [List.cons_append, readItems?, hitem, Option.bind_some, ih hrest]
    rfl

theorem readItems?_cons {line : String} {more : List String} {item : Item} {others : List Item}
    (h : readItem? line = some item) (h' : readItems? more = some others) :
    readItems? (line :: more) = some (item :: others) := by
  rw [readItems?, h, Option.bind_some, h']
  rfl

theorem readItems?_flatMap {α : Type} {l : List α} {lines : α → List String}
    {items : α → List Item} (h : ∀ a ∈ l, readItems? (lines a) = some (items a)) :
    readItems? (l.flatMap lines) = some (l.flatMap items) := by
  induction l with
  | nil => rfl
  | cons a l ih =>
    obtain ⟨ha, hl⟩ := List.forall_mem_cons.mp h
    rw [List.flatMap_cons, List.flatMap_cons]
    exact readItems?_append ha (ih hl)

theorem readItems?_map {α : Type} {l : List α} {line : α → String} {item : α → Item}
    (h : ∀ a ∈ l, readItem? (line a) = some (item a)) :
    readItems? (l.map line) = some (l.map item) := by
  rw [List.map_eq_flatMap, List.map_eq_flatMap]
  exact readItems?_flatMap fun a ha => readItems?_cons (h a ha) rfl

/-- Blanks in front of lines do not count. -/
theorem readItem?_indent (line : String) : readItem? ("  " ++ line) = readItem? line := by
  have htokens : tokens ("  " ++ line) = tokens line := by
    rw [show "  " = " " ++ " " from rfl, String.append_assoc, tokens_blank, tokens_blank]
  rw [readItem?, htokens, readItem?]

theorem readItems?_indent (lines : List String) :
    readItems? (lines.map ("  " ++ ·)) = readItems? lines := by
  induction lines with
  | nil => rfl
  | cons line lines ih => rw [List.map_cons, readItems?, readItem?_indent, ih, readItems?]

namespace Block

variable (p : Placement)

/-- The condition of a counting loop. -/
def countCondition (bound : Expr) : Expr :=
  .binary .lt (.var "i") bound

/-- The condition of a branch of a loop over fields. -/
def branchCondition (name : String) : Expr :=
  .binary .eq (.ask (.var "it") "key") (.text name)

/-- The head of a counting loop, as it is read. -/
def countHead (bound : Expr) : Item :=
  .loop (.declare (.atom "size_t") "i" (.atom "0")) ((countCondition bound).term p)
    (.unary .increment (.atom "i"))

/-- The head of a loop over fields, as it is read. -/
def fieldHead : Item :=
  .loop (.declare (.atom "auto") "it" (.call0 (.access .dot (.atom "json") "begin")))
    (.binary (.op .ne) (.atom "it") (.call0 (.access .dot (.atom "json") "end")))
    (.unary .increment (.atom "it"))

/-- The items that the lines of a block are read as. -/
def items : Block → List Item
  | .line s => [.statement (s.statement p)]
  | .countLoop bound body =>
    countHead p bound :: body.map (fun s => .statement (s.statement p)) ++ [.close]
  | .itemLoop body =>
    .each "element" (.atom "json") :: body.map (fun s => .statement (s.statement p)) ++ [.close]
  | .fieldLoop first rest =>
    fieldHead :: ([.branch ((branchCondition first.1).term p), .statement (first.2.statement p)] ++
      rest.flatMap (fun b =>
        [.elseBranch ((branchCondition b.1).term p), .statement (b.2.statement p)]) ++
      [.otherwise, .statement (.leave (.atom "false")), .close]) ++ [.close]

/-- Whether the lines of a block say what the block is. -/
def Legible : Block → Prop
  | .line s => s.Legible p
  | .countLoop bound body => (countCondition bound).Legible p ∧ ∀ s ∈ body, s.Legible p
  | .itemLoop body => ∀ s ∈ body, s.Legible p
  | .fieldLoop first rest => ∀ b ∈ first :: rest, b.2.Legible p

end Block

section

variable {p : Placement}

theorem fill_indentLine (l : Line) : (indentLine l).fill p = "  " ++ l.fill p := by
  rw [indentLine, Line.fill_append, Line.fill_ofText]
  rfl

theorem readItems?_indentLine (lines : List Line) :
    readItems? ((lines.map indentLine).map (Line.fill p)) = readItems? (lines.map (Line.fill p)) := by
  have hinner : (lines.map indentLine).map (Line.fill p) =
      (lines.map (Line.fill p)).map ("  " ++ ·) := by
    rw [List.map_map, List.map_map]
    exact List.map_congr_left fun l _ => fill_indentLine l
  rw [hinner, readItems?_indent]

theorem readItems?_statements {body : List Stmt} (h : ∀ s ∈ body, s.Legible p) :
    readItems? ((body.map fun s => indentLine s.line).map (Line.fill p)) =
      some (body.map fun s => .statement (s.statement p)) := by
  have hlines : (body.map fun s => indentLine s.line) = (body.map Stmt.line).map indentLine := by
    rw [List.map_map]
    rfl
  rw [hlines, readItems?_indentLine, List.map_map]
  exact readItems?_map fun s hs => (h s hs).readItem?_eq

theorem forItem?_loop {ts us vs : List (List Char)} {first : Statement} {condition step : Term}
    (hts : ts.take 3 ≠ ["const", "auto", "&"].map String.toList)
    (hfirst : simple? ts = some (first, us)) (hcondition : termUpTo? ";" us = some (condition, vs))
    (hstep : termUpTo? ")" vs = some (step, [['\x7b']])) :
    forItem? ts = some (.loop first condition step) := by
  rw [forItem?, if_neg hts, hfirst, Option.bind_some, hcondition, Option.bind_some, hstep]
  rfl

/-- The head of a counting loop. -/
theorem readItem?_countHead {bound : Expr} (h : (Block.countCondition bound).Legible p) :
    readItem? (((Line.ofText "for (size_t i = 0; i < " ++ bound.line).text "; ++i) \x7b").fill p) =
      some (Block.countHead p bound) := by
  have hline : ((Line.ofText "for (size_t i = 0; i < " ++ bound.line).text "; ++i) \x7b").fill p =
      "for (size_t i = 0;" ++ (" " ++ ((Block.countCondition bound).line.fill p ++
        "; ++i) \x7b")) := by
    apply String.toList_inj.mp
    simp [Block.countCondition, Expr.line, BinaryOp.sign]
  have hcut := (CutInto.self "for (size_t i = 0;" (by decide) (by decide)).append
    (h.reads.cut_append (.self "; ++i) \x7b" (by decide) (by decide)) (by decide)).blank
    (stops_of_head? (separator_append " " _ (by decide))
      fun c hc => goesOn_of_isSeparator hc (by decide))
  have hfront : tokens "for (size_t i = 0;" =
      ["for", "(", "size_t", "i", "=", "0", ";"].map String.toList := by decide
  have hback : tokens "; ++i) \x7b" = [";", "++", "i", ")", "\x7b"].map String.toList := by decide
  have hcondition : termUpTo? ";" (tokens ((Block.countCondition bound).line.fill p) ++
      [';'] :: ["++", "i", ")", "\x7b"].map String.toList) =
        some ((Block.countCondition bound).term p, ["++", "i", ")", "\x7b"].map String.toList) :=
    h.reads.parses.termUpTo?_eq (by decide) _
  have hwords : ∀ rest : List (List Char), ("size_t".toList :: rest).take 3 ≠
      ["const", "auto", "&"].map String.toList := by
    intro rest hwords
    exact absurd (List.cons.inj hwords).1 (by decide)
  have hfirst : ∀ rest : List (List Char), simple? (["size_t".toList] ++ "i".toList :: ['='] ::
      (["0".toList] ++ [';'] :: rest)) =
        some (.declare (.atom "size_t") "i" (.atom "0"), rest) := fun rest =>
    Parses.simple?_declare (.atom rfl) (by decide) (.atom rfl) rest
  have hstep : termUpTo? ")" (["++", "i", ")", "\x7b"].map String.toList) =
      some (.unary .increment (.atom "i"), [['\x7b']]) := by decide
  have hfor : ∀ rest : List (List Char),
      wordItem? ("for".toList :: ['('] :: rest) = forItem? rest := by
    intro rest
    rw [wordItem?, if_neg (by decide), if_neg (by decide), if_pos rfl, expect?,
      if_pos (by decide), Option.bind_some]
  rw [hfront, hback] at hcut
  rw [hline, readItem?_of_word hcut.tokens_eq (by decide)]
  refine (hfor _).trans ?_
  exact forItem?_loop (hwords _) (hfirst _) hcondition hstep

/-- The head of the first branch, and of another branch behind a closing brace. -/
theorem readItem?_branch {e : Expr} (h : e.Legible p) :
    readItem? (((Line.ofText "if (" ++ e.line).text ") \x7b").fill p) =
        some (.branch (e.term p)) ∧
      readItem? (((Line.ofText "\x7d else if (" ++ e.line).text ") \x7b").fill p) =
        some (.elseBranch (e.term p)) := by
  have hback : tokens ") \x7b" = [[')'], ['\x7b']] := by decide
  have hcondition := h.reads.parses.condition?_eq [['\x7b']]
  have hrest := (h.reads.cut_append (.self ") \x7b" (by decide) (by decide))
    (by decide)).cons_bracket.cons_blank "if" (by decide) (by decide)
  rw [hback] at hrest
  constructor
  · have hline : ((Line.ofText "if (" ++ e.line).text ") \x7b").fill p =
        "if" ++ (" " ++ ("(" ++ (e.line.fill p ++ ") \x7b"))) := by
      apply String.toList_inj.mp
      simp
    rw [hline, readItem?_of_word hrest.tokens_eq (by decide), wordItem?, if_neg (by decide),
      if_pos rfl, ifItem?, hcondition]
    rfl
  · have hline : ((Line.ofText "\x7d else if (" ++ e.line).text ") \x7b").fill p =
        "\x7d" ++ (" " ++ ("else" ++ (" " ++ ("if" ++ (" " ++ ("(" ++
          (e.line.fill p ++ ") \x7b"))))))) := by
      apply String.toList_inj.mp
      simp
    have hcut := (hrest.cons_blank "else" (by decide) (by decide)).cons_blank
      "\x7d" (by decide) (by decide)
    rw [hline, readItem?_of_word hcut.tokens_eq (by decide), wordItem?, if_neg (by decide),
      if_neg (by decide), if_neg (by decide), if_pos (by decide), closeItem?, if_neg (by simp),
      if_neg (by simp), expect?, if_pos rfl, Option.bind_some, expect?, if_pos rfl,
      Option.bind_some, hcondition]
    rfl

theorem Block.branchCondition_legible (name : String) : (branchCondition name).Legible p := by
  have hname : IsName "it" := by decide
  exact Expr.legible_binary (by decide) ⟨⟨hname, rfl, rfl, by decide⟩, rfl⟩ trivial (by decide)
    (show (Operator.op .eq).level < closedLevel by decide)

theorem readItems?_branchLines {word : String} {item : Term → Item} {branch : String × Stmt}
    (hword : ∀ e : Expr, e.Legible p →
      readItem? (((Line.ofText (word ++ " (") ++ e.line).text ") \x7b").fill p) =
        some (item (e.term p)))
    (h : branch.2.Legible p) :
    readItems? ((branchLines word branch).map (Line.fill p)) =
      some [item ((Block.branchCondition branch.1).term p), .statement (branch.2.statement p)] := by
  refine readItems?_cons (hword _ (Block.branchCondition_legible branch.1))
    (readItems?_cons ?_ rfl)
  rw [fill_indentLine, readItem?_indent]
  exact h.readItem?_eq

/-- **Blocks.** The lines of a legible block are read as its items. -/
theorem Block.Legible.readItems?_eq {b : Block} (h : b.Legible p) :
    readItems? (b.lines.map (Line.fill p)) = some (b.items p) := by
  have hclose : readItem? ((Line.ofText "\x7d").fill p) = some .close := by
    rw [Line.fill_ofText]
    decide
  cases b with
  | line s => exact readItems?_cons (Stmt.Legible.readItem?_eq h) rfl
  | countLoop bound body =>
    rw [Block.lines, List.map_append, List.map_cons]
    exact readItems?_append (readItems?_cons (readItem?_countHead h.1) (readItems?_statements h.2))
      (readItems?_cons hclose rfl)
  | itemLoop body =>
    have hhead : readItem? ((Line.ofText "for (const auto &element : json) \x7b").fill p) =
        some (.each "element" (.atom "json")) := by
      rw [Line.fill_ofText]
      decide
    rw [Block.lines, List.map_append, List.map_cons]
    exact readItems?_append (readItems?_cons hhead (readItems?_statements h))
      (readItems?_cons hclose rfl)
  | fieldLoop first rest =>
    have hhead : readItem? ((Line.ofText
        "for (auto it = json.begin(); it != json.end(); ++it) \x7b").fill p) =
          some fieldHead := by
      rw [Line.fill_ofText]
      decide
    have hother : readItem? ((Line.ofText "\x7d else \x7b").fill p) = some .otherwise := by
      rw [Line.fill_ofText]
      decide
    have hleave : readItem? ((indentLine (Stmt.leave (.bool false)).line).fill p) =
        some (.statement (.leave (.atom "false"))) := by
      rw [fill_indentLine, readItem?_indent]
      exact Stmt.Legible.readItem?_eq (s := .leave (.bool false)) trivial
    obtain ⟨hfirst, hrest⟩ := List.forall_mem_cons.mp h
    rw [Block.lines, Block.items, List.map_append, List.map_cons]
    refine readItems?_append (readItems?_cons hhead ?_) (readItems?_cons hclose rfl)
    rw [readItems?_indentLine, List.map_append, List.map_append, List.map_flatMap]
    refine readItems?_append (readItems?_append ?_ (readItems?_flatMap fun b hb => ?_))
      (readItems?_cons hother (readItems?_cons hleave (readItems?_cons hclose rfl)))
    · exact readItems?_branchLines (fun e he => (readItem?_branch he).1) hfirst
    · exact readItems?_branchLines (fun e he => (readItem?_branch he).2) (hrest b hb)

end

/-! ## Commands -/

/-- A loop with its parts. -/
structure Loop where
  first : Statement
  condition : Term
  step : Term
  body : List Statement
deriving DecidableEq, Repr

/-- Statements and loops. -/
inductive Command where
  | statement (s : Statement)
  | loop (l : Loop)
deriving DecidableEq, Repr

/-- The commands that items make up, if a loop may be open. Other loops and branches are none. -/
def commandsFrom? : Option Loop → List Item → Option (List Command)
  | none, [] => some []
  | none, .statement s :: rest => (commandsFrom? none rest).map (.statement s :: ·)
  | none, .loop first condition step :: rest =>
    commandsFrom? (some ⟨first, condition, step, []⟩) rest
  | some l, .statement s :: rest => commandsFrom? (some { l with body := l.body ++ [s] }) rest
  | some l, .close :: rest => (commandsFrom? none rest).map (.loop l :: ·)
  | _, _ => none

/-- The commands of the lines of a body. -/
def readCommands? (lines : List String) : Option (List Command) :=
  (readItems? lines).bind (commandsFrom? none)

/-- The command that a block is read as. -/
def Block.command? (p : Placement) : Block → Option Command
  | .line s => some (.statement (s.statement p))
  | .countLoop bound body =>
    some (.loop ⟨.declare (.atom "size_t") "i" (.atom "0"), (countCondition bound).term p,
      .unary .increment (.atom "i"), body.map (Stmt.statement p)⟩)
  | .itemLoop _ | .fieldLoop _ _ => none

theorem commandsFrom?_body (l : Loop) (body : List Statement) (rest : List Item) :
    commandsFrom? (some l) (body.map .statement ++ .close :: rest) =
      (commandsFrom? none rest).map (.loop { l with body := l.body ++ body } :: ·) := by
  induction body generalizing l with
  | nil =>
    rw [List.append_nil]
    rfl
  | cons s body ih =>
    rw [List.map_cons, List.cons_append, commandsFrom?, ih, List.append_assoc]
    rfl

section

variable {p : Placement}

theorem commandsFrom?_items {b : Block} {c : Command} (h : b.command? p = some c)
    (rest : List Item) :
    commandsFrom? none (b.items p ++ rest) = (commandsFrom? none rest).map (c :: ·) := by
  cases b with
  | line s =>
    obtain rfl := Option.some.inj h
    rfl
  | countLoop bound body =>
    obtain rfl := Option.some.inj h
    have hbody : (body.map fun s => Item.statement (s.statement p)) =
        (body.map (Stmt.statement p)).map .statement := by
      rw [List.map_map]
      rfl
    rw [Block.items, Block.countHead, hbody, List.cons_append, List.cons_append,
      List.append_assoc, commandsFrom?]
    exact commandsFrom?_body _ _ rest
  | itemLoop body => cases h
  | fieldLoop first rest => cases h

theorem readItems?_bodyLines {body : List Block} (h : ∀ b ∈ body, b.Legible p) :
    readItems? (Emit.bodyLines p body) = some (body.flatMap (Block.items p)) := by
  have hlines : Emit.bodyLines p body =
      ((body.flatMap Block.lines).map (Line.fill p)).map ("  " ++ ·) := by
    rw [List.map_map]
    rfl
  rw [hlines, readItems?_indent, List.map_flatMap]
  exact readItems?_flatMap fun b hb => (h b hb).readItems?_eq

/-- **Bodies.** A body of legible statements and counting loops is read as its commands. -/
theorem readCommands?_bodyLines {body : List Block} {commands : List Command}
    (hlegible : ∀ b ∈ body, b.Legible p)
    (h : body.map (Block.command? p) = commands.map some) :
    readCommands? (Emit.bodyLines p body) = some commands := by
  have hcommands : commandsFrom? none (body.flatMap (Block.items p)) = some commands := by
    clear hlegible
    induction body generalizing commands with
    | nil =>
      obtain rfl := List.map_eq_nil_iff.mp h.symm
      rfl
    | cons b body ih =>
      obtain ⟨c, rest, rfl, hc, hrest⟩ := List.map_eq_cons_iff.mp h.symm
      rw [List.flatMap_cons, commandsFrom?_items hc.symm, ih hrest.symm]
      rfl
  rw [readCommands?, readItems?_bodyLines hlegible]
  exact hcommands

end

end ConfigForge.Cpp
