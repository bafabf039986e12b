import ConfigForge.Proofs.Functions
import ConfigForge.Proofs.Terms

/-!
# Expressions as terms

The text of an expression, at the place where it stands, is read as a term: what the tokens say, with
names in place of helpers and types, and numerals in place of numbers. This holds for every expression
whose names are words and whose brackets stand where the operators need them.

Results:

* `reads_path`: a qualified name is read as its parts.
* `reads_integerLiteral`, `reads_numberLiteral`: the literals of numbers are read as numerals.
* `Expr.Legible.reads`: the text of an expression is read as its term.
-/

namespace ConfigForge.Cpp

open Code (Line Placement)
open Emit (wideSigned)

/-! ## Tokens side by side -/

theorem stops_of_head? {p : Char → Bool} {token : List Char} {s : String}
    (h : s.toList.head?.any p = true) (hp : ∀ c, p c = true → goesOn token c = false) :
    Stops token s :=
  any_head?_mono h fun c hc => by rw [hp c hc]; rfl

theorem IsWord.head? {text : String} (h : IsWord text) :
    text.toList.head?.any isWordChar = true := by
  cases hchars : text.toList with
  | nil => exact absurd hchars h.1
  | cons c chars => exact h.2 c (by rw [hchars]; exact List.mem_cons_self)

theorem IsWord.ne_quote {text : String} (h : IsWord text) : text.toList.head? ≠ some '"' :=
  head?_ne_of_any h.head? (by decide)

theorem CutInto.toList_ne_nil {text : String} {ts : List (List Char)} (h : CutInto text ts) :
    text.toList ≠ [] := by
  intro hnil
  have htokens := h.tokens_eq
  rw [tokens, hnil] at htokens
  exact h.ne_nil htokens.symm

/-- A bracket, round or square, is a token of its own, whatever follows. -/
theorem goesOn_bracket {d : Char} (hd : d ∈ ['(', ')', '[', ']']) (c : Char) :
    goesOn [d] c = false := by
  have hpair : pairSigns.contains [d, c] = false :=
    contains_pairSigns_of_all (q := (·.head?.any ['(', ')', '[', ']'].contains)) (by decide)
      (List.contains_iff_mem.mpr hd)
  have hplain : (['(', ')', '[', ']'].all fun d => d != '"' && !isWordChar d) = true := by decide
  have hword := List.all_eq_true.mp hplain d hd
  rw [Bool.and_eq_true, bne_iff_ne, Bool.not_eq_true'] at hword
  rw [goesOn, if_neg hword.1, hword.2, hpair]
  rfl

theorem stops_bracket {d : Char} (hd : d ∈ ['(', ')', '[', ']']) {text : String}
    (h : text.toList ≠ []) : Stops [d] text := by
  refine stops_of_head? (p := fun _ => true) ?_ fun c _ => goesOn_bracket hd c
  cases hchars : text.toList with
  | nil => exact absurd hchars h
  | cons c chars => rfl

/-- Whether a closed part can begin with a character. -/
def opensOperand (c : Char) : Bool :=
  isWordChar c || c == '"' || c == '('

/-- The signs in front of an operand are tokens of their own. -/
theorem goesOn_unarySign {sign : List Char} {op : UnaryOp} (h : signOf? unarySigns sign = some op)
    {c : Char} (hc : opensOperand c = true) : goesOn sign c = false := by
  obtain ⟨spelling, hmem, rfl⟩ := exists_of_signOf? h
  have hpair : ∀ d, pairSigns.contains [d, c] = false := fun d =>
    contains_pairSigns_of_all (q := (·.getLast?.any opensOperand)) (by decide) hc
  have hsigns : ∀ entry ∈ unarySigns, entry.1.toList.head?.all
      (fun d => d != '"' && !isWordChar d) = true := by decide
  cases hlist : spelling.toList with
  | nil => rfl
  | cons d more =>
    have hd := hsigns _ hmem
    rw [hlist] at hd
    simp only [List.head?_cons, Option.all_some, Bool.and_eq_true, bne_iff_ne,
      Bool.not_eq_true'] at hd
    rw [goesOn, if_neg hd.1, hd.2, hpair]
    simp

/-! ## Texts that are read as terms -/

/-- Whether a text is read as a term that binds with the given level, whatever stands around it. A
separator always ends it, and if it is `ended`, so does every sign. -/
structure Reads (text : String) (level : Nat) (ended : Bool) (t : Term) : Prop where
  cut : CutInto text (tokens text)
  parses : Parses (tokens text) level t
  separator : ∀ c, isSeparator c = true → goesOn (lastToken (tokens text)) c = false
  sign : ended = true → ∀ c, isWordChar c = false → goesOn (lastToken (tokens text)) c = false
  front : closedLevel ≤ level → text.toList.head?.any opensOperand = true

/-- Whether a word does not open a statement. -/
def IsFree (text : String) : Prop :=
  text ∉ statementWords

instance (text : String) : Decidable (IsFree text) :=
  inferInstanceAs (Decidable (text ∉ statementWords))

/-- No word that opens a statement begins with a character like that. -/
theorem isFree_of_head? {p : Char → Bool} {text : String} (h : text.toList.head?.any p = true)
    (hp : (statementWords.all fun word => !word.toList.head?.any p) = true) : IsFree text := by
  intro hmem
  have hword := List.all_eq_true.mp hp text hmem
  rw [h] at hword
  cases hword

theorem isAtom_of_isFree {text : String}
    (h : text.toList.head?.any (fun c => isWordChar c || c == '"') = true) (hfree : IsFree text) :
    isAtom text.toList = true := by
  have hnone : (statementWords.any fun word => word.toList == text.toList) = false := by
    rw [List.any_eq_false]
    intro word hword heq
    exact hfree (String.toList_inj.mp (eq_of_beq heq) ▸ hword)
  rw [isAtom, h, hnone]
  rfl

/-- A name: a word that neither is a number nor opens a statement. -/
structure IsName (text : String) : Prop where
  word : IsWord text
  digit : text.toList.head?.any Char.isDigit = false
  free : IsFree text

instance (text : String) : Decidable (IsName text) :=
  decidable_of_iff (IsWord text ∧ text.toList.head?.any Char.isDigit = false ∧ IsFree text)
    ⟨fun h => ⟨h.1, h.2.1, h.2.2⟩, fun h => ⟨h.1, h.2, h.3⟩⟩

theorem IsName.goesOn_eq_false {text : String} (h : IsName text) (c : Char)
    (hc : isWordChar c = false) : goesOn text.toList c = false := by
  refine h.word.goesOn_eq_false hc fun hdigit => ?_
  have hnone := h.digit
  cases hchars : text.toList with
  | nil => exact absurd hchars h.word.1
  | cons d more =>
    rw [hchars] at hdigit hnone
    exact absurd (hdigit.symm.trans hnone) (by decide)

namespace Reads

variable {text more member : String} {level level' : Nat} {ended ended' : Bool} {t s : Term}

theorem of_cut {ts : List (List Char)} (hcut : CutInto text ts) (hparses : Parses ts level t)
    (hseparator : ∀ c, isSeparator c = true → goesOn (lastToken ts) c = false)
    (hsign : ended = true → ∀ c, isWordChar c = false → goesOn (lastToken ts) c = false)
    (hfront : closedLevel ≤ level → text.toList.head?.any opensOperand = true) :
    Reads text level ended t := by
  obtain rfl := hcut.tokens_eq
  exact ⟨hcut, hparses, hseparator, hsign, hfront⟩

/-- A text that ends in a closing bracket. -/
theorem of_bracket {ts : List (List Char)} {d : Char} (hcut : CutInto text (ts ++ [[d]]))
    (hparses : Parses (ts ++ [[d]]) level t) (hd : d ∈ ['(', ')', '[', ']'])
    (hfront : closedLevel ≤ level → text.toList.head?.any opensOperand = true) :
    Reads text level true t := by
  have hlast : ∀ c, goesOn (lastToken (ts ++ [[d]])) c = false := by
    rw [lastToken_append ts (List.cons_ne_nil _ _)]
    exact goesOn_bracket hd
  exact of_cut hcut hparses (fun c _ => hlast c) (fun _ c _ => hlast c) hfront

theorem weaken (h : Reads text level ended t) : Reads text level false t :=
  ⟨h.cut, h.parses, h.separator, nofun, h.front⟩

theorem stops (h : Reads text level ended t) (hmore : more.toList.head?.any isSeparator = true) :
    Stops (lastToken (tokens text)) more :=
  stops_of_head? hmore h.separator

theorem stops_sign (h : Reads text level true t)
    (hmore : more.toList.head?.any (fun c => !isWordChar c) = true) :
    Stops (lastToken (tokens text)) more :=
  stops_of_head? hmore fun c hc => h.sign rfl c ((Bool.not_eq_true' _).mp hc)

/-- A number or a name. -/
theorem atom (htoken : isToken text.toList = true)
    (hfront : text.toList.head?.any isWordChar = true) (hfree : IsFree text)
    (hsign : ended = true → ∀ c, isWordChar c = false → goesOn text.toList c = false) :
    Reads text closedLevel ended (.atom text) := by
  have hquote : text.toList.head? ≠ some '"' := head?_ne_of_any hfront (by decide)
  have hatom : text.toList.head?.any (fun c => isWordChar c || c == '"') = true :=
    any_head?_mono hfront fun c hc => by rw [hc, Bool.true_or]
  refine of_cut (.token htoken) (.atom (isAtom_of_isFree hatom hfree))
    (fun c hc => goesOn_of_isSeparator hc hquote) hsign
    fun _ => any_head?_mono hatom fun c hc => ?_
  rw [opensOperand, hc, Bool.true_or]

theorem word (h : IsWord text) (hfree : IsFree text) : Reads text closedLevel false (.atom text) :=
  atom h.isToken h.head? hfree nofun

theorem name (h : IsName text) : Reads text closedLevel true (.atom text) :=
  atom h.word.isToken h.word.head? h.free fun _ => h.goesOn_eq_false

theorem stringLiteral (s : String) :
    Reads (stringLiteral s) closedLevel true (.atom (stringLiteral s)) := by
  have hfront : (Cpp.stringLiteral s).toList.head? = some '"' := by
    rw [toList_stringLiteral]
    rfl
  have hquote : (Cpp.stringLiteral s).toList.head?.any (· == '"') = true := by
    rw [hfront]
    rfl
  refine of_cut (.stringLiteral s)
    (.atom (isAtom_of_isFree ?_ (isFree_of_head? hquote (by decide))))
    (fun c _ => goesOn_stringLiteral s c) (fun _ c _ => goesOn_stringLiteral s c) fun _ => ?_
  all_goals
    rw [hfront]
    rfl

theorem paren (h : Reads text level ended t) : Reads ("(" ++ (text ++ ")")) closedLevel true t := by
  have hclose : CutInto (text ++ ")") (tokens text ++ [[')']]) :=
    h.cut.append (.token (by decide)) (h.stops (by decide))
  have hopen : CutInto "(" [['(']] := .token (by decide)
  have hcut : CutInto ("(" ++ (text ++ ")")) ((['('] :: tokens text) ++ [[')']]) :=
    hopen.append hclose (stops_bracket (by decide) hclose.toList_ne_nil)
  exact of_bracket hcut h.parses.paren (by decide)
    fun _ => any_head?_append (s := "(") (by decide) _

theorem unary {op : UnaryOp} {sign : String} (hsign : signOf? unarySigns sign.toList = some op)
    (htoken : isToken sign.toList = true) (h : Reads text closedLevel ended t) :
    Reads (sign ++ text) unaryLevel false (.unary op t) := by
  refine of_cut ((CutInto.token htoken).append h.cut ?_) (h.parses.unary hsign) ?_ nofun ?_
  · exact stops_of_head? (h.front (Nat.le_refl _)) fun c hc => goesOn_unarySign hsign hc
  · exact (lastToken_append _ h.cut.ne_nil).symm ▸ h.separator
  · exact fun hle => absurd hle (by decide)

/-- An operator between two operands, with a blank behind it and possibly one in front. -/
theorem binary {op : Operator} {sign : String} (hsign : signOf? operatorSigns sign.toList = some op)
    (htoken : isToken sign.toList = true) (hquote : sign.toList.head? ≠ some '"')
    (h : Reads text level ended t) (h' : Reads more level' ended' s)
    (hleft : op.level ≤ level) (hright : op.level < level')
    (hlt : op = .op .lt → closedLevel ≤ level ∧ t.takesType = false) {front : String}
    (hfront : front = "" ∨ front = " ")
    (hstop : Stops (lastToken (tokens text)) (front ++ (sign ++ (" " ++ more)))) :
    Reads (text ++ (front ++ (sign ++ (" " ++ more)))) op.level false (.binary op t s) := by
  have hsecond : CutInto (sign ++ (" " ++ more)) ([sign.toList] ++ tokens more) := by
    refine (CutInto.token htoken).append h'.cut.blank ?_
    exact stops_of_head? (separator_append " " more (by decide))
      fun c hc => goesOn_of_isSeparator hc hquote
  have hbehind : CutInto (front ++ (sign ++ (" " ++ more))) ([sign.toList] ++ tokens more) := by
    rcases hfront with rfl | rfl
    · rw [String.empty_append]
      exact hsecond
    · exact hsecond.blank
  refine of_cut (h.cut.append hbehind hstop) (h.parses.binary hsign h'.parses hleft hright hlt) ?_
    nofun ?_
  · rw [lastToken_append _ hbehind.ne_nil, lastToken_append _ h'.cut.ne_nil]
    exact h'.separator
  · intro hle
    have hop := op.level_lt
    simp only [closedLevel, unaryLevel] at hle hop
    omega

/-- An operator between blanks. -/
theorem operator {op : Operator} {sign : String}
    (hsign : signOf? operatorSigns sign.toList = some op) (htoken : isToken sign.toList = true)
    (hquote : sign.toList.head? ≠ some '"') (h : Reads text level ended t)
    (h' : Reads more level' ended' s) (hleft : op.level ≤ level) (hright : op.level < level')
    (hlt : op = .op .lt → closedLevel ≤ level ∧ t.takesType = false) :
    Reads (text ++ (" " ++ (sign ++ (" " ++ more)))) op.level false (.binary op t s) :=
  binary hsign htoken hquote h h' hleft hright hlt (.inr rfl)
    (h.stops (separator_append " " _ (by decide)))

/-- Two arguments. -/
theorem comma (h : Reads text level ended t) (h' : Reads more level' ended' s) (hright : 0 < level') :
    Reads (text ++ ("," ++ (" " ++ more))) 0 false (.binary .comma t s) := by
  have hstop : Stops (lastToken (tokens text)) ("" ++ ("," ++ (" " ++ more))) := by
    rw [String.empty_append]
    exact h.stops (separator_append "," _ (by decide))
  have hsign : signOf? operatorSigns ",".toList = some .comma := by decide
  have hcomma := binary hsign (by decide) (by decide) h h' (Nat.zero_le _) hright nofun (.inl rfl)
    hstop
  rwa [String.empty_append] at hcomma

theorem cut_access {sign : String} (htoken : isToken sign.toList = true)
    (hover : ∀ c, isWordChar c = true → goesOn sign.toList c = false) (h : Reads text level ended t)
    (hstop : Stops (lastToken (tokens text)) sign) (hmember : IsWord member) :
    CutInto (text ++ (sign ++ member)) (tokens text ++ [sign.toList, member.toList]) :=
  h.cut.append ((CutInto.token htoken).append (.word hmember) (stops_of_head? hmember.head? hover))
    (any_head?_append hstop _)

/-- A member, if its sign does not go on with what stands in front. -/
theorem access {how : Access} (sign : String) (hsign : signOf? accessSigns sign.toList = some how)
    (htoken : isToken sign.toList = true)
    (hover : ∀ c, isWordChar c = true → goesOn sign.toList c = false)
    (h : Reads text closedLevel ended t) (hstop : Stops (lastToken (tokens text)) sign)
    (hmember : IsWord member)
    (hend : ended' = true → ∀ c, isWordChar c = false → goesOn member.toList c = false) :
    Reads (text ++ (sign ++ member)) closedLevel ended' (.access how t member) := by
  have hlast : lastToken (tokens text ++ [sign.toList, member.toList]) = member.toList :=
    lastToken_append _ (List.cons_ne_nil _ _)
  refine of_cut (h.cut_access htoken hover hstop hmember) (h.parses.access hsign hmember.head?) ?_
    ?_ fun hle => any_head?_append (h.front hle) _
  · rw [hlast]
    exact fun c hc => goesOn_of_isSeparator hc hmember.ne_quote
  · rw [hlast]
    exact hend

/-- A bracket behind a closed part. -/
theorem cut_bracket (opening closing : String) (h : Reads text closedLevel ended t)
    (h' : Reads more level ended' s) (hopen : CutInto opening [opening.toList])
    (hstop : Stops (lastToken (tokens text)) opening) (hover : Stops opening.toList more)
    (hclose : CutInto closing [closing.toList])
    (hend : Stops (lastToken (tokens more)) closing) :
    CutInto (text ++ (opening ++ (more ++ closing)))
      (tokens text ++ opening.toList :: (tokens more ++ [closing.toList])) :=
  h.cut.append (hopen.append (h'.cut.append hclose hend) (any_head?_append hover _))
    (any_head?_append hstop _)

theorem call0 (h : Reads text closedLevel ended t) :
    Reads (text ++ "()") closedLevel true (.call0 t) := by
  have hopen : CutInto "(" [['(']] := .token (by decide)
  have hclose : CutInto ")" [[')']] := .token (by decide)
  have hbrackets : CutInto "()" [['('], [')']] :=
    hopen.append hclose (stops_bracket (by decide) (by decide))
  have hcut := h.cut.append hbrackets (h.stops (by decide))
  have hparses := h.parses.call0
  rw [← List.singleton_append, ← List.append_assoc] at hcut hparses
  exact of_bracket hcut hparses (by decide) fun hle => any_head?_append (h.front hle) _

theorem call (h : Reads text closedLevel ended t) (h' : Reads more level ended' s) :
    Reads (text ++ ("(" ++ (more ++ ")"))) closedLevel true (.call t s) := by
  have hcut := cut_bracket "(" ")" h h' (.token (by decide))
    (h.stops (by decide)) (stops_bracket (by decide) h'.cut.toList_ne_nil) (.token (by decide))
    (h'.stops (by decide))
  have hparses := h.parses.call h'.parses
  rw [← List.cons_append, ← List.append_assoc] at hcut hparses
  exact of_bracket hcut hparses (by decide) fun hle => any_head?_append (h.front hle) _

theorem index (h : Reads text closedLevel ended t) (h' : Reads more level ended' s) :
    Reads (text ++ ("[" ++ (more ++ "]"))) closedLevel true (.index t s) := by
  have hcut := cut_bracket "[" "]" h h' (.token (by decide))
    (h.stops (by decide)) (stops_bracket (by decide) h'.cut.toList_ne_nil) (.token (by decide))
    (h'.stops (by decide))
  have hparses := h.parses.index h'.parses
  rw [← List.cons_append, ← List.append_assoc] at hcut hparses
  exact of_bracket hcut hparses (by decide) fun hle => any_head?_append (h.front hle) _

/-- A member function for a type. -/
theorem typed (h : Reads text closedLevel true t) (htakes : t.takesType = true)
    (h' : Reads more closedLevel ended' s) (hword : more.toList.head?.any isWordChar = true)
    (hend : Stops (lastToken (tokens more)) ">") :
    Reads (text ++ ("<" ++ (more ++ ">"))) closedLevel false (.typed t s) := by
  have hcut := cut_bracket "<" ">" h h' (.token (by decide))
    (h.stops_sign (by decide))
    (stops_of_head? hword fun c hc => goesOn_sign_word (by decide) (by decide) hc)
    (.token (by decide)) hend
  have hparses := h.parses.typed htakes h'.parses
  rw [← List.cons_append, ← List.append_assoc] at hcut hparses
  refine of_cut hcut hparses ?_ nofun fun hle => any_head?_append (h.front hle) _
  rw [lastToken_append _ (List.cons_ne_nil _ _)]
  exact fun c hc => goesOn_of_isSeparator hc (by decide)

end Reads

/-! ## Paths -/

/-- The term of names that are joined by `::`. -/
def namesTerm : List String → Term
  | [] => .atom ""
  | first :: rest => rest.foldl (fun t name => .access .scope t name) (.atom first)

/-- The names that a path is made of. -/
def pathNames (text : String) : List String :=
  ((tokens text).filter (· ≠ [':', ':'])).map String.ofList

/-- The term that a path is read as. -/
def pathTerm (text : String) : Term :=
  namesTerm (pathNames text)

/-- Whether a text is a path: words that are joined by `::`. -/
def IsPath (text : String) : Prop :=
  ∃ scope name, (∀ n ∈ scope ++ [name], IsWord n ∧ IsFree n) ∧ text = qualification scope ++ name

theorem namesTerm_append {names : List String} (h : names ≠ []) (name : String) :
    namesTerm (names ++ [name]) = .access .scope (namesTerm names) name := by
  cases names with
  | nil => exact absurd rfl h
  | cons first rest => rw [List.cons_append, namesTerm, List.foldl_append, namesTerm]; rfl

theorem IsWord.pathNames {name : String} (h : IsWord name) : pathNames name = [name] := by
  have hcolons : name.toList ≠ [':', ':'] := ne_of_any_head? h.head? (by decide)
  rw [Cpp.pathNames, (CutInto.word h).tokens_eq, List.filter_cons_of_pos (by simpa using hcolons),
    List.filter_nil, List.map_singleton, String.ofList_toList]

/-- A path is read as its names, and it ends in its last name. -/
theorem reads_qualification {scope : List String} {name : String}
    (h : ∀ n ∈ scope ++ [name], IsWord n ∧ IsFree n) :
    Reads (qualification scope ++ name) closedLevel false (namesTerm (scope ++ [name])) ∧
      pathNames (qualification scope ++ name) = scope ++ [name] ∧
      lastToken (tokens (qualification scope ++ name)) = name.toList := by
  -- the last name of the scope takes the place of the name in the hypothesis
  have hname := (h name (by simp)).1
  induction scope using List.reverseRecOn generalizing name with
  | nil =>
    rw [qualification, String.empty_append]
    exact ⟨.word hname (h name (by simp)).2, hname.pathNames, by
      rw [(CutInto.word hname).tokens_eq]
      rfl⟩
  | append_singleton scope last ih =>
    have hlast := (h last (by simp)).1
    obtain ⟨hreads, hnames, hend⟩ := ih (fun n hn => h n (List.mem_append_left _ hn)) hlast
    have htext : qualification (scope ++ [last]) ++ name =
        qualification scope ++ last ++ ("::" ++ name) := by
      rw [qualification_append, String.append_assoc]
    have hstop : Stops (lastToken (tokens (qualification scope ++ last))) "::" := by
      rw [hend, Stops]
      have hcolon : goesOn last.toList ':' = false :=
        hlast.goesOn_eq_false (by decide) fun _ => by decide
      simp [hcolon]
    have hover : ∀ c, isWordChar c = true → goesOn "::".toList c = false := fun c _ => rfl
    have htokens := (hreads.cut_access (by decide) hover hstop hname).tokens_eq
    rw [htext]
    refine ⟨?_, ?_, ?_⟩
    · rw [namesTerm_append (by simp)]
      exact hreads.access _ (by decide) (by decide) hover hstop hname
        fun h => absurd h Bool.false_ne_true
    · have hown := hname.pathNames
      rw [pathNames, (CutInto.word hname).tokens_eq] at hown
      rw [pathNames] at hnames
      rw [pathNames, htokens, List.filter_append, List.map_append, hnames]
      exact congrArg (scope ++ [last] ++ ·) hown
    · rw [htokens, lastToken_append _ (List.cons_ne_nil _ _)]
      rfl

/-- **Paths.** A path is read as its names. -/
theorem reads_path {text : String} (h : IsPath text) :
    Reads text closedLevel false (pathTerm text) := by
  obtain ⟨scope, name, hwords, rfl⟩ := h
  obtain ⟨hreads, hnames, -⟩ := reads_qualification hwords
  rw [pathTerm, hnames]
  exact hreads

/-- A sign behind a path is no part of it. -/
theorem IsPath.goesOn_eq_false {text : String} (h : IsPath text) {c : Char}
    (hc : isWordChar c = false) (hsign : c ≠ '.' ∧ c ≠ '+' ∧ c ≠ '-') :
    goesOn (lastToken (tokens text)) c = false := by
  obtain ⟨scope, name, hwords, rfl⟩ := h
  rw [(reads_qualification hwords).2.2]
  exact (hwords name (by simp)).1.goesOn_eq_false hc fun _ => hsign

theorem IsPath.head? {text : String} (h : IsPath text) :
    text.toList.head?.any isWordChar = true := by
  obtain ⟨scope, name, hwords, rfl⟩ := h
  cases scope with
  | nil =>
    rw [qualification, String.empty_append]
    exact (hwords name (by simp)).1.head?
  | cons first scope =>
    rw [qualification, String.append_assoc, String.append_assoc]
    exact any_head?_append (hwords first (by simp)).1.head? _

/-! ## Literals of numbers -/

/-- The term of a number with its sign. -/
def signedTerm (text : String) : Term :=
  match text.toList with
  | '-' :: digits => .unary .minus (.atom (String.ofList digits))
  | _ => .atom text

/-- How tightly a number with its sign binds. -/
def literalLevel (text : String) : Nat :=
  if text.toList.head? = some '-' then unaryLevel else closedLevel

theorem signedTerm_minus (digits : String) :
    signedTerm ("-" ++ digits) = .unary .minus (.atom digits) := by
  have hchars : ("-" ++ digits).toList = '-' :: digits.toList := by rw [String.toList_append]; rfl
  have hdigits : Term.unary .minus (.atom (String.ofList digits.toList)) =
      .unary .minus (.atom digits) := by rw [String.ofList_toList]
  rw [signedTerm, hchars]
  exact hdigits

theorem signedTerm_of_word {digits : String} (h : digits.toList.head?.any isWordChar = true) :
    signedTerm digits = .atom digits := by
  rw [signedTerm]
  split
  · next hchars =>
    rw [hchars] at h
    exact absurd (show isWordChar '-' = true from h) (by decide)
  · rfl

/-- A number, or a minus in front of it. -/
theorem reads_signed {digits : String} (htoken : isToken digits.toList = true)
    (hword : digits.toList.head?.any isWordChar = true) (hfree : IsFree digits)
    (negative : Bool) :
    Reads ((if negative then "-" else "") ++ digits)
      (literalLevel ((if negative then "-" else "") ++ digits)) false
      (signedTerm ((if negative then "-" else "") ++ digits)) := by
  have hreads : Reads digits closedLevel false (.atom digits) := .atom htoken hword hfree nofun
  cases negative with
  | false =>
    have hminus : digits.toList.head? ≠ some '-' := head?_ne_of_any hword (by decide)
    rw [if_neg Bool.false_ne_true, String.empty_append, literalLevel, if_neg hminus,
      signedTerm_of_word hword]
    exact hreads
  | true =>
    have hlevel : literalLevel ("-" ++ digits) = unaryLevel := if_pos (by
      rw [String.toList_append]
      rfl)
    rw [if_pos rfl, hlevel, signedTerm_minus]
    exact hreads.unary (by decide) (by decide)

/-! ### Integers -/

/-- The suffix of the literals of a type. -/
def literalSuffix : Primitive → Suffix
  | .integer true .w64 => .ll
  | .integer false .w64 => .ull
  | _ => .plain

/-- Whether an integer is the one whose magnitude is no number of its type. -/
def IsLowest (v : Int) (type : Primitive) : Prop :=
  type = wideSigned ∧ v = (integerRange true .w64).low

instance (v : Int) (type : Primitive) : Decidable (IsLowest v type) :=
  inferInstanceAs (Decidable (_ ∧ _))

theorem integerLiteral_of_isLowest {v : Int} {type : Primitive} (h : IsLowest v type) :
    integerLiteral v type = "(-9223372036854775807LL - 1)" := by
  obtain ⟨rfl, rfl⟩ := h
  rfl

/-- The digits of an integer and the suffix of a type. -/
def magnitude (v : Int) (type : Primitive) : String :=
  toString v.natAbs ++ (literalSuffix type).spelling

theorem integerLiteral_of_not_isLowest {v : Int} {type : Primitive} (h : ¬ IsLowest v type) :
    integerLiteral v type = (if decide (v < 0) then "-" else "") ++ magnitude v type := by
  have hsuffix : integerLiteral v type = toString v ++ (literalSuffix type).spelling := by
    cases type with
    | integer signed width =>
      cases signed <;> cases width
      case true.w64 => exact if_neg fun hv => h ⟨rfl, hv⟩
      all_goals simp [integerLiteral, literalSuffix, Suffix.spelling]
    | _ => simp [integerLiteral, literalSuffix, Suffix.spelling]
  have hdigits : toString v = (if decide (v < 0) then "-" else "") ++ toString v.natAbs := by
    rw [Int.toString_eq_repr, Int.repr_eq_if, Nat.toString_eq_repr]
    by_cases hv : 0 ≤ v
    · rw [if_pos hv, if_neg (by simpa using hv), String.empty_append,
        show v.toNat = v.natAbs by omega]
    · rw [if_neg hv, if_pos (by simpa using hv), show (-v).toNat = v.natAbs by omega]
  rw [hsuffix, hdigits, String.append_assoc, magnitude]

theorem isWordChar_of_isDigit {c : Char} (h : c.isDigit = true) : isWordChar c = true := by
  rw [isWordChar, Char.isAlphanum, h, Bool.or_true, Bool.true_or]

/-- Digits with a suffix are a word. -/
theorem isWord_toString_append (n : Nat) (s : Suffix) : IsWord (toString n ++ s.spelling) := by
  rw [IsWord, String.toList_append, List.forall_mem_append]
  refine ⟨fun h => toList_toString_ne_nil n (List.append_eq_nil_iff.mp h).1, fun c hc => ?_,
    List.all_eq_true.mp s.isWordChar_spelling⟩
  exact isWordChar_of_isDigit (isDigit_of_mem_toString hc)

theorem isFree_toString_append (n : Nat) (suffix : String) : IsFree (toString n ++ suffix) := by
  refine isFree_of_head? (p := Char.isDigit) (any_head?_append ?_ suffix) (by decide)
  cases hchars : (toString n).toList with
  | nil => exact absurd hchars (toList_toString_ne_nil n)
  | cons c chars => exact isDigit_of_mem_toString (by rw [hchars]; exact List.mem_cons_self)

theorem isWord_magnitude (v : Int) (type : Primitive) : IsWord (magnitude v type) :=
  isWord_toString_append _ _

/-- The term of an integer. The one whose magnitude is no number is a difference. -/
def integerTerm (v : Int) (type : Primitive) : Term :=
  if IsLowest v type then
    .binary .difference (.unary .minus (.atom "9223372036854775807LL")) (.atom "1")
  else signedTerm (integerLiteral v type)

theorem reads_integerLiteral (v : Int) (type : Primitive) :
    Reads (integerLiteral v type) (literalLevel (integerLiteral v type)) false
      (integerTerm v type) := by
  rw [integerTerm]
  split_ifs with hlowest
  · rw [integerLiteral_of_isLowest hlowest]
    have hgreatest : Reads "9223372036854775807LL" closedLevel false
        (.atom "9223372036854775807LL") := .word (by decide) (by decide)
    have hminus : Reads ("-" ++ "9223372036854775807LL") unaryLevel false
        (.unary .minus (.atom "9223372036854775807LL")) := hgreatest.unary (by decide) (by decide)
    have hone : Reads "1" closedLevel false (.atom "1") := .word (by decide) (by decide)
    have hdifference : Reads ("-" ++ "9223372036854775807LL" ++ (" " ++ ("-" ++ (" " ++ "1"))))
        Operator.difference.level false
        (.binary .difference (.unary .minus (.atom "9223372036854775807LL")) (.atom "1")) :=
      hminus.operator (by decide) (by decide) (by decide) hone (by decide) (by decide) nofun
    exact hdifference.paren.weaken
  · have hword := isWord_magnitude v type
    rw [integerLiteral_of_not_isLowest hlowest]
    exact reads_signed hword.isToken hword.head? (isFree_toString_append _ _) _

/-! ### Floating point numbers -/

theorem grows_append (token first second : List Char) :
    grows token (first ++ second) = (grows token first && grows (token ++ first) second) := by
  induction first generalizing token with
  | nil => rw [List.nil_append, List.append_nil, grows, Bool.true_and]
  | cons c first ih =>
    rw [List.cons_append, grows, ih, grows, Bool.and_assoc, List.append_assoc,
      List.singleton_append]

/-- A number goes on with digits, letters and points. -/
theorem grows_digits {d : Char} (hd : d.isDigit = true) (more : List Char) {cs : List Char}
    (h : ∀ c ∈ cs, isWordChar c = true ∨ c = '.') : grows (d :: more) cs = true := by
  have hword := isWordChar_of_isDigit hd
  refine grows_of_goesOn (fun c hc more => ?_) more
  rw [goesOn, if_neg (ne_quote_of_isWordChar hword), if_pos hword, hd, Bool.true_and]
  rcases h c hc with hc | rfl
  · rw [hc, Bool.true_or]
  · rfl

/-- Whether characters are a number: a digit, and then digits and points. -/
def IsDigits (cs : List Char) : Prop :=
  cs.head?.any Char.isDigit = true ∧ ∀ c ∈ cs, c.isDigit = true ∨ c = '.'

theorem IsDigits.isToken {cs : List Char} (h : IsDigits cs) : isToken cs = true := by
  obtain ⟨hhead, hall⟩ := h
  cases cs with
  | nil => cases hhead
  | cons d more =>
    have hblank : d ≠ ' ' := ne_blank_of_isWordChar (isWordChar_of_isDigit hhead)
    rw [Cpp.isToken, bne_iff_ne.mpr hblank, Bool.true_and]
    exact grows_digits hhead [] fun c hc =>
      (hall c (List.mem_cons_of_mem _ hc)).imp_left isWordChar_of_isDigit

theorem isDigits_positionalChars {digits : List Char} (hne : digits ≠ [])
    (h : ∀ c ∈ digits, c.isDigit = true) (point : Int) :
    IsDigits (literalLayout.positionalChars digits point) := by
  have hhead : ∀ cs : List Char, cs ≠ [] → (∀ c ∈ cs, c.isDigit = true) → ∀ rest,
      (cs ++ rest).head?.any Char.isDigit = true := by
    intro cs hne hcs rest
    cases cs with
    | nil => exact absurd rfl hne
    | cons c cs => exact hcs c List.mem_cons_self
  have hzeros : ∀ n, ∀ c ∈ NumberLayout.zeros n, c.isDigit = true ∨ c = '.' := by
    intro n c hc
    rw [List.eq_of_mem_replicate hc]
    exact .inl (by decide)
  have hdigits : ∀ c ∈ digits, c.isDigit = true ∨ c = '.' := fun c hc => .inl (h c hc)
  unfold NumberLayout.positionalChars
  split_ifs with hpoint hinside
  · refine ⟨rfl, List.forall_mem_append.mpr ⟨List.forall_mem_append.mpr ⟨?_, hzeros _⟩, hdigits⟩⟩
    simp
  · refine ⟨hhead _ ?_ (fun c hc => h c (List.mem_of_mem_take hc)) _,
      List.forall_mem_append.mpr ⟨fun c hc => hdigits c (List.mem_of_mem_take hc),
        List.forall_mem_cons.mpr ⟨.inr rfl, fun c hc => hdigits c (List.mem_of_mem_drop hc)⟩⟩⟩
    rw [Ne, List.take_eq_nil_iff, not_or]
    exact ⟨by omega, hne⟩
  · refine ⟨?_, List.forall_mem_append.mpr ⟨List.forall_mem_append.mpr ⟨hdigits, hzeros _⟩, ?_⟩⟩
    · rw [List.append_assoc]
      exact hhead digits hne h _
    · simp [literalLayout]

theorem isToken_exponentChars {digits : List Char} (hne : digits ≠ [])
    (h : ∀ c ∈ digits, c.isDigit = true) (exponent : Int) :
    isToken (NumberLayout.exponentChars digits exponent) = true ∧
      (NumberLayout.exponentChars digits exponent).head?.any Char.isDigit = true := by
  obtain ⟨d, more, rfl⟩ := List.exists_cons_of_ne_nil hne
  have hd : d.isDigit = true := h d List.mem_cons_self
  have hblank : d ≠ ' ' := ne_blank_of_isWordChar (isWordChar_of_isDigit hd)
  let front := if more.isEmpty then [] else '.' :: more
  have hchars : NumberLayout.exponentChars (d :: more) exponent =
      d :: (front ++ ['e'] ++ (toString exponent).toList) := by
    simp [NumberLayout.exponentChars, front]
  have hfront : ∀ c ∈ front ++ ['e'], isWordChar c = true ∨ c = '.' := by
    refine List.forall_mem_append.mpr ⟨fun c hc => ?_, by simp; decide⟩
    simp only [front] at hc
    split_ifs at hc
    · cases hc
    · rcases List.mem_cons.mp hc with rfl | hc
      · exact .inr rfl
      · exact .inl (isWordChar_of_isDigit (h c (List.mem_cons_of_mem _ hc)))
  have hdigits : ∀ (n : Nat), ∀ c ∈ (toString n).toList, isWordChar c = true ∨ c = '.' :=
    fun n c hc => .inl (isWordChar_of_isDigit (isDigit_of_mem_toString hc))
  have hexponent : grows (d :: (front ++ ['e'])) (toString exponent).toList = true := by
    rw [Int.toString_eq_repr, Int.repr_eq_if]
    split_ifs
    · exact grows_digits hd _ (hdigits _)
    · have hsign : goesOn (d :: (front ++ ['e'])) '-' = true := by
        have hword := isWordChar_of_isDigit hd
        rw [goesOn, if_neg (ne_quote_of_isWordChar hword), if_pos hword, hd]
        simp [isExponentSign]
      rw [String.toList_append, grows_append]
      have hrest := grows_digits hd (front ++ ['e'] ++ ['-']) (hdigits (-exponent).toNat)
      rw [show "-".toList = ['-'] from rfl, grows, hsign, Bool.true_and]
      exact hrest
  constructor
  · rw [hchars, isToken, bne_iff_ne.mpr hblank, Bool.true_and, grows_append,
      grows_digits hd [] hfront, Bool.true_and]
    exact hexponent
  · rw [hchars]
    exact hd

theorem isToken_decimalChars (d : Decimal) :
    isToken (literalLayout.decimalChars d) = true ∧
      (literalLayout.decimalChars d).head?.any Char.isDigit = true := by
  have hdigits : ∀ c ∈ Nat.toDigits 10 d.digits, c.isDigit = true := fun c hc =>
    Nat.isDigit_of_mem_toDigits (by decide) (by decide) hc
  have hpositional := isDigits_positionalChars Nat.toDigits_ne_nil hdigits
    ((Nat.toDigits 10 d.digits).length + d.exponent)
  simp only [NumberLayout.decimalChars, literalLayout]
  split_ifs
  · exact ⟨hpositional.isToken, hpositional.1⟩
  · exact isToken_exponentChars Nat.toDigits_ne_nil hdigits _

/-- A number is written as one token, possibly with a minus in front. -/
theorem exists_numberLiteral (x : Binary64) :
    ∃ (negative : Bool) (digits : String),
      numberLiteral x = (if negative then "-" else "") ++ digits ∧
        isToken digits.toList = true ∧ digits.toList.head?.any isWordChar = true ∧
        IsFree digits := by
  rw [numberLiteral, NumberLayout.render]
  by_cases hnan : x.isNaN = true
  · rw [if_pos hnan]
    exact ⟨false, "NaN", by decide, by decide, by decide, by decide⟩
  rw [if_neg hnan]
  by_cases hinfinite : x.isInfinite = true
  · exact ⟨x.isNegative, "inf", if_pos hinfinite, by decide, by decide, by decide⟩
  by_cases hzero : x.isZero = true
  · refine ⟨x.isNegative, "0.0", ?_, by decide, by decide, by decide⟩
    rw [if_neg hinfinite, if_pos hzero, String.append_assoc]
    rfl
  · obtain ⟨htoken, hdigit⟩ := isToken_decimalChars (Decimal.shortest x)
    rw [← String.toList_ofList (l := literalLayout.decimalChars _)] at htoken hdigit
    refine ⟨x.isNegative, String.ofList (literalLayout.decimalChars (Decimal.shortest x)), ?_, htoken,
      any_head?_mono hdigit fun c => isWordChar_of_isDigit, isFree_of_head? hdigit (by decide)⟩
    rw [if_neg hinfinite, if_neg hzero]

theorem reads_numberLiteral (x : Binary64) :
    Reads (numberLiteral x) (literalLevel (numberLiteral x)) false
      (signedTerm (numberLiteral x)) := by
  obtain ⟨negative, digits, hliteral, htoken, hword, hfree⟩ := exists_numberLiteral x
  rw [hliteral]
  exact reads_signed htoken hword hfree negative

/-! ## Expressions -/

namespace Expr

variable (p : Placement)

/-- The term that an expression is read as. -/
def term : Expr → Term
  | .var name => .atom name
  | .bool b => .atom (boolLiteral b)
  | .integer v t => integerTerm v t
  | .double x => signedTerm (numberLiteral x)
  | .text s => .atom (stringLiteral s)
  | .count n => .atom (toString n)
  | .size n => .atom (toString n ++ "U")
  | .not e => .unary .not e.term
  | .deref e => .unary .deref e.term
  | .address e => .unary .address e.term
  | .paren e => e.term
  | .binary op left right => .binary (.op op) left.term right.term
  | .dot e member => .access .dot e.term member
  | .arrow e member => .access .arrow e.term member
  | .index e position => .index e.term position.term
  | .typed e t => .typed e.term (pathTerm (t.line.fill p))
  | .static t member => .access .scope (pathTerm (t.line.fill p)) member
  | .type t => pathTerm (t.line.fill p)
  | .helper h owner => pathTerm ((owner.helperLine h).fill p)
  | .call0 function => .call0 function.term
  | .call function arguments => .call function.term arguments.term
  | .comma left right => .binary .comma left.term right.term

/-- How tightly an expression binds. -/
def level : Expr → Nat
  | .integer v t => literalLevel (integerLiteral v t)
  | .double x => literalLevel (numberLiteral x)
  | .not _ | .deref _ | .address _ => unaryLevel
  | .binary op _ _ => (Operator.op op).level
  | .comma _ _ => Operator.comma.level
  | _ => closedLevel

/-- Whether every sign ends the text of an expression, so that a member can follow. -/
def isOver : Expr → Bool
  | .var _ | .text _ | .paren _ | .dot _ _ | .arrow _ _ | .index _ _ | .call0 _ | .call _ _ => true
  | _ => false

/-- Whether the text of an expression says what the expression is: its names are words, and brackets
stand where the operators need them. -/
def Legible : Expr → Prop
  | .var name => IsName name
  | .bool _ | .integer _ _ | .double _ | .text _ | .count _ | .size _ => True
  | .not e | .deref e | .address e => e.Legible ∧ e.level = closedLevel
  | .paren e => e.Legible
  | .binary op left right =>
    (left.Legible ∧ right.Legible) ∧ (Operator.op op).level ≤ left.level ∧
      (Operator.op op).level < right.level ∧
      (op = .lt → left.level = closedLevel ∧ (left.term p).takesType = false)
  | .dot e member | .arrow e member =>
    e.Legible ∧ e.level = closedLevel ∧ e.isOver = true ∧ IsName member
  | .index e position => (e.Legible ∧ position.Legible) ∧ e.level = closedLevel
  | .typed e t =>
    e.Legible ∧ e.level = closedLevel ∧ e.isOver = true ∧ (e.term p).takesType = true ∧
      IsPath (t.line.fill p)
  | .static t member => IsPath (t.line.fill p) ∧ IsWord member
  | .type t => IsPath (t.line.fill p)
  | .helper h owner => IsPath ((owner.helperLine h).fill p)
  | .call0 function => function.Legible ∧ function.level = closedLevel
  | .call function arguments =>
    (function.Legible ∧ arguments.Legible) ∧ function.level = closedLevel
  | .comma left right => (left.Legible ∧ right.Legible) ∧ 0 < right.level

variable {p}

/-- An operator other than `<` cannot be taken for a bracket, so that levels decide. -/
theorem legible_binary {op : BinaryOp} {left right : Expr} (hop : op ≠ .lt)
    (hleft : left.Legible p) (hright : right.Legible p)
    (hlevel : (Operator.op op).level ≤ left.level)
    (hlevel' : (Operator.op op).level < right.level) : (binary op left right).Legible p :=
  ⟨⟨hleft, hright⟩, hlevel, hlevel', fun h => absurd h hop⟩

end Expr

theorem BinaryOp.signOf?_sign (op : BinaryOp) :
    signOf? operatorSigns op.sign.toList = some (.op op) := by
  cases op <;> decide

theorem BinaryOp.isToken_sign (op : BinaryOp) : isToken op.sign.toList = true := by
  cases op <;> decide

theorem BinaryOp.ne_quote (op : BinaryOp) : op.sign.toList.head? ≠ some '"' := by
  cases op <;> decide

/-- **Expressions.** The text of a legible expression is read as its term. -/
theorem Expr.Legible.reads {p : Placement} {e : Expr} (h : e.Legible p) :
    Reads (e.line.fill p) e.level e.isOver (e.term p) := by
  induction e with
  | var name =>
    rw [Expr.line, Line.fill_ofText, Expr.term]
    exact .name h
  | bool b =>
    rw [Expr.line, Line.fill_ofText]
    cases b <;> exact .word (by decide) (by decide)
  | integer v type =>
    rw [Expr.line, Line.fill_ofText, Expr.term]
    exact reads_integerLiteral v type
  | double x =>
    rw [Expr.line, Line.fill_ofText, Expr.term]
    exact reads_numberLiteral x
  | text s =>
    rw [Expr.line, Line.fill_ofText, Expr.term]
    exact .stringLiteral s
  | count n =>
    rw [Expr.line, Line.fill_ofText]
    have hword := isWord_toString_append n .plain
    have hfree := isFree_toString_append n ""
    rw [Suffix.spelling, String.append_empty] at hword
    rw [String.append_empty] at hfree
    exact .word hword hfree
  | size n =>
    rw [Expr.line, Line.fill_ofText, Expr.term]
    exact .word (isWord_toString_append n .u) (isFree_toString_append n _)
  | not e ih =>
    have hreads := ih h.1
    rw [h.2] at hreads
    rw [Expr.line, Line.fill_append, Line.fill_ofText]
    exact hreads.unary (by decide) (by decide)
  | deref e ih =>
    have hreads := ih h.1
    rw [h.2] at hreads
    rw [Expr.line, Line.fill_append, Line.fill_ofText]
    exact hreads.unary (by decide) (by decide)
  | address e ih =>
    have hreads := ih h.1
    rw [h.2] at hreads
    rw [Expr.line, Line.fill_append, Line.fill_ofText]
    exact hreads.unary (by decide) (by decide)
  | paren e ih =>
    rw [Expr.line, Line.fill_text, Line.fill_append, Line.fill_ofText, String.append_assoc]
    exact (ih h).paren
  | binary op left right ihl ihr =>
    obtain ⟨⟨hl, hr⟩, hleft, hright, hlt⟩ := h
    rw [Expr.line, Line.fill_append, Line.fill_text]
    simp only [String.append_assoc]
    refine (ihl hl).operator op.signOf?_sign op.isToken_sign op.ne_quote (ihr hr) hleft hright ?_
    intro hop
    obtain ⟨hclosed, htakes⟩ := hlt (Operator.op.inj hop)
    exact ⟨Nat.le_of_eq hclosed.symm, htakes⟩
  | dot e member ih =>
    obtain ⟨he, hclosed, hover, hmember⟩ := h
    have hreads := ih he
    rw [hclosed, hover] at hreads
    rw [Expr.line, Line.fill_text]
    exact hreads.access "." (by decide) (by decide)
      (fun c hc => goesOn_sign_word (by decide) (by decide) hc) (hreads.stops_sign (by decide))
      hmember.word fun _ => hmember.goesOn_eq_false
  | arrow e member ih =>
    obtain ⟨he, hclosed, hover, hmember⟩ := h
    have hreads := ih he
    rw [hclosed, hover] at hreads
    rw [Expr.line, Line.fill_text]
    exact hreads.access "->" (by decide) (by decide) (fun c hc => rfl)
      (hreads.stops_sign (by decide)) hmember.word fun _ => hmember.goesOn_eq_false
  | index e position ih ihp =>
    obtain ⟨⟨he, hposition⟩, hclosed⟩ := h
    have hreads := ih he
    rw [hclosed] at hreads
    rw [Expr.line, Line.fill_text, Line.fill_append, Line.fill_text]
    simp only [String.append_assoc]
    exact hreads.index (ihp hposition)
  | typed e type ih =>
    obtain ⟨he, hclosed, hover, htakes, htype⟩ := h
    have hreads := ih he
    rw [hclosed, hover] at hreads
    rw [Expr.line, Line.fill_text, Line.fill_append, Line.fill_text]
    simp only [String.append_assoc]
    refine hreads.typed htakes (reads_path htype) htype.head? ?_
    exact stops_of_head? (s := ">") (p := (· == '>')) (by decide) fun c hc => by
      rw [eq_of_beq hc]
      exact htype.goesOn_eq_false (by decide) (by decide)
  | static type member =>
    obtain ⟨htype, hmember⟩ := h
    rw [Expr.line, Line.fill_text]
    refine (reads_path htype).access "::" (by decide) (by decide) (fun c hc => rfl) ?_
      hmember fun h => absurd h Bool.false_ne_true
    exact stops_of_head? (s := "::") (p := (· == ':')) (by decide) fun c hc => by
      rw [eq_of_beq hc]
      exact htype.goesOn_eq_false (by decide) (by decide)
  | type type => exact reads_path h
  | helper helper owner => exact reads_path h
  | call0 function ih =>
    have hreads := ih h.1
    rw [h.2] at hreads
    rw [Expr.line, Line.fill_text]
    exact hreads.call0
  | call function arguments ihf iha =>
    obtain ⟨⟨hf, ha⟩, hclosed⟩ := h
    have hreads := ihf hf
    rw [hclosed] at hreads
    rw [Expr.line, Line.fill_text, Line.fill_append, Line.fill_text]
    simp only [String.append_assoc]
    exact hreads.call (iha ha)
  | comma left right ihl ihr =>
    obtain ⟨⟨hl, hr⟩, hright⟩ := h
    rw [Expr.line, Line.fill_append, Line.fill_text, String.append_assoc]
    exact (ihl hl).comma (ihr hr) hright

end ConfigForge.Cpp
