import ConfigForge.Cpp.Expr
import ConfigForge.Proofs.Tokens

/-!
# Terms

The tokens of a line are read as a term: names and literals, operators in front of an operand and
between two operands, members, indices, calls, and the type that a member function is asked for. The
reader knows the signs of C++ and how tightly they bind. It knows nothing of the code that is read.

The reader goes through the tokens once. What is still open is kept on a stack of frames, innermost
first. An operator between two operands first settles every operator in front of it that binds at least
as tightly, and a closing bracket settles everything up to the bracket that it closes.

Results:

* `Parses.access`, `Parses.call`, `Parses.unary`, `Parses.binary` and others: tokens are read as a term
  whose parts they are read as, if the parts bind tightly enough.
* `Parses.readTerm?_eq`: a term is read up to a token that cannot belong to it.
-/

namespace ConfigForge.Cpp

/-! ## Operators -/

/-- The operators in front of an operand. -/
inductive UnaryOp where
  | not
  | deref
  | address
  | minus
  | increment
deriving DecidableEq, Repr

/-- The operators between two operands, including the comma between arguments. -/
inductive Operator where
  | comma
  | difference
  | op (o : BinaryOp)
deriving DecidableEq, Repr

/-- How a member is named: of an object, behind a pointer, or in a scope. -/
inductive Access where
  | dot
  | arrow
  | scope
deriving DecidableEq, Repr

/-- The signs of the operators in front of an operand. -/
def unarySigns : List (String × UnaryOp) :=
  [("!", .not), ("*", .deref), ("&", .address), ("-", .minus), ("++", .increment)]

/-- The signs of the operators between two operands. -/
def operatorSigns : List (String × Operator) :=
  [(",", .comma), ("||", .op .or), ("&&", .op .and), ("==", .op .eq), ("!=", .op .ne),
    ("<", .op .lt), (">", .op .gt), ("<=", .op .le), (">=", .op .ge), ("-", .difference)]

/-- The signs in front of the name of a member. -/
def accessSigns : List (String × Access) :=
  [(".", .dot), ("->", .arrow), ("::", .scope)]

/-- What a token stands for in a table of signs. -/
def signOf? {α : Type} (signs : List (String × α)) (token : List Char) : Option α :=
  (signs.find? fun entry => entry.1.toList == token).map Prod.snd

theorem exists_of_signOf? {α : Type} {signs : List (String × α)} {token : List Char} {a : α}
    (h : signOf? signs token = some a) : ∃ sign, (sign, a) ∈ signs ∧ sign.toList = token := by
  obtain ⟨⟨sign, b⟩, hentry, rfl⟩ := Option.map_eq_some_iff.mp h
  exact ⟨sign, List.mem_of_find?_eq_some hentry, by simpa using List.find?_some hentry⟩

/-- A token that does not begin like any sign is none. -/
theorem signOf?_eq_none {α : Type} {signs : List (String × α)} {p : Char → Bool}
    {token : List Char} (h : token.head?.any p = true)
    (hall : (signs.all fun entry => !entry.1.toList.head?.any p) = true) :
    signOf? signs token = none := by
  rw [signOf?, Option.map_eq_none_iff, List.find?_eq_none]
  intro entry hentry heq
  have hentry := List.all_eq_true.mp hall entry hentry
  rw [eq_of_beq heq, h] at hentry
  cases hentry

/-- How tightly an operator between two operands binds. -/
def Operator.level : Operator → Nat
  | .comma => 0
  | .op .or => 1
  | .op .and => 2
  | .op .eq | .op .ne => 3
  | .op .lt | .op .gt | .op .le | .op .ge => 4
  | .difference => 5

/-- How tightly an operator in front of an operand binds: more than those between operands. -/
def unaryLevel : Nat := 6

/-- How tightly names, literals and bracketed parts hold together: operators do not part them. -/
def closedLevel : Nat := 7

theorem Operator.level_lt (op : Operator) : op.level < unaryLevel := by
  cases op with
  | op o => cases o <;> decide
  | _ => decide

/-! ## Terms -/

/-- Terms. Brackets are not kept. -/
inductive Term where
  /-- A name or a literal. -/
  | atom (text : String)
  | unary (op : UnaryOp) (e : Term)
  | binary (op : Operator) (left right : Term)
  | access (how : Access) (e : Term) (member : String)
  | index (e position : Term)
  /-- A member function for a type. -/
  | typed (e type : Term)
  | call0 (function : Term)
  /-- A call; several arguments are joined by commas. -/
  | call (function arguments : Term)
deriving DecidableEq, Repr

/-- The words that open a statement or a part of one. They are no names. -/
def statementWords : List String :=
  ["return", "if", "for", "else", "void"]

/-- Whether a token is a name or a literal. -/
def isAtom (token : List Char) : Bool :=
  token.head?.any (fun c => isWordChar c || c == '"') &&
    !statementWords.any fun word => word.toList == token

/-- Whether a term is a member function that is asked for a type, so that `<` opens a bracket. -/
def Term.takesType : Term → Bool
  | .access .dot _ member => member = "get"
  | _ => false

/-- What is open while a term is read. -/
inductive Frame where
  | before (op : UnaryOp)
  | between (op : Operator) (left : Term)
  | access (how : Access) (e : Term)
  | group
  | arguments (function : Term)
  | position (e : Term)
  | type (e : Term)
deriving DecidableEq, Repr

/-- How far a term has been read: what is open, innermost first, and the operand that has just been
read, if there is one. -/
structure Parse where
  frames : List Frame
  operand? : Option Term
deriving DecidableEq, Repr

/-- Applies the innermost open operators to an operand, as long as they bind at least as tightly as
the given level. -/
def settle (level : Nat) : List Frame → Term → List Frame × Term
  | .before op :: frames, e =>
    if level ≤ unaryLevel then settle level frames (.unary op e) else (.before op :: frames, e)
  | .between op left :: frames, e =>
    if level ≤ op.level then settle level frames (.binary op left e)
    else (.between op left :: frames, e)
  | frames, e => (frames, e)

namespace Parse

/-- At the start. -/
def start : Parse :=
  ⟨[], none⟩

/-- Closes the innermost bracket, if the token is the one that closes it. -/
def close? (frames : List Frame) (e : Term) (token : List Char) : Option Parse :=
  match settle 0 frames e with
  | (.group :: frames, e) => if token = [')'] then some ⟨frames, some e⟩ else none
  | (.arguments f :: frames, e) => if token = [')'] then some ⟨frames, some (.call f e)⟩ else none
  | (.position a :: frames, e) => if token = [']'] then some ⟨frames, some (.index a e)⟩ else none
  | (.type f :: frames, e) => if token = ['>'] then some ⟨frames, some (.typed f e)⟩ else none
  | _ => none

/-- Reads a token behind an operand. -/
def behind? (frames : List Frame) (e : Term) (token : List Char) : Option Parse :=
  match signOf? accessSigns token with
  | some how => some ⟨.access how e :: frames, none⟩
  | none =>
    if token = ['('] then some ⟨.arguments e :: frames, none⟩
    else if token = ['['] then some ⟨.position e :: frames, none⟩
    else if token = ['<'] ∧ e.takesType then some ⟨.type e :: frames, none⟩
    else (close? frames e token).or ((signOf? operatorSigns token).map fun op =>
      ⟨.between op (settle op.level frames e).2 :: (settle op.level frames e).1, none⟩)

/-- Closes the bracket of a call directly behind its opening. -/
def noArguments? (frames : List Frame) (token : List Char) : Option Parse :=
  match frames with
  | .arguments f :: frames => if token = [')'] then some ⟨frames, some (.call0 f)⟩ else none
  | _ => none

/-- Reads a token where an operand is to begin. -/
def front? (frames : List Frame) (token : List Char) : Option Parse :=
  match signOf? unarySigns token with
  | some op => some ⟨.before op :: frames, none⟩
  | none =>
    if token = ['('] then some ⟨.group :: frames, none⟩
    else if isAtom token then some ⟨frames, some (.atom (String.ofList token))⟩
    else noArguments? frames token

/-- Reads a token where the name of a member has to stand. -/
def name? (frames : List Frame) (how : Access) (e : Term) (token : List Char) : Option Parse :=
  if token.head?.any isWordChar then some ⟨frames, some (.access how e (String.ofList token))⟩
  else none

/-- Reads a token. -/
def step? (p : Parse) (token : List Char) : Option Parse :=
  match p.operand?, p.frames with
  | some e, frames => behind? frames e token
  | none, .access how e :: frames => name? frames how e token
  | none, frames => front? frames token

/-- The term that has been read, if no bracket is open. -/
def complete? (p : Parse) : Option Term :=
  p.operand?.bind fun e => match settle 0 p.frames e with
    | ([], e) => some e
    | _ => none

/-- Reads a term as far as possible and gives the tokens behind it. -/
def read (p : Parse) : List (List Char) → Option (Term × List (List Char))
  | [] => p.complete?.map (·, [])
  | token :: rest =>
    match p.step? token with
    | some p => p.read rest
    | none => p.complete?.map (·, token :: rest)

theorem read_cons {p q : Parse} {token : List Char} (h : p.step? token = some q)
    (rest : List (List Char)) : p.read (token :: rest) = q.read rest := by
  rw [read, h]

end Parse

/-- The term at the front of tokens and the tokens behind it. -/
def readTerm? (ts : List (List Char)) : Option (Term × List (List Char)) :=
  Parse.start.read ts

/-! ## Settling -/

/-- Whether a frame stays as it is in front of a part that binds with the given level. -/
def Frame.admits (level : Nat) : Frame → Bool
  | .before _ => unaryLevel < level
  | .between op _ => op.level < level
  | .access _ _ => false
  | .group | .arguments _ | .position _ | .type _ => true

/-- Whether a frame is an open bracket. -/
def Frame.isBracket : Frame → Bool
  | .group | .arguments _ | .position _ | .type _ => true
  | _ => false

/-- Whether the innermost open bracket is that of a type. -/
def inType : List Frame → Bool
  | .before _ :: frames | .between _ _ :: frames => inType frames
  | .type _ :: _ => true
  | _ => false

/-- Whether a part that binds with the given level can be read in front of what is open. A type is
closed, because in its bracket the sign `>` is no operator. -/
structure Admits (frames : List Frame) (level : Nat) : Prop where
  head : frames.head?.all (Frame.admits level) = true
  type : inType frames = true → closedLevel ≤ level

theorem settle_of_admits {frames : List Frame} {level : Nat} (h : Admits frames level) (e : Term) :
    settle level frames e = (frames, e) := by
  have hhead := h.head
  cases frames with
  | nil => rfl
  | cons frame frames =>
    cases frame with
    | before op =>
      have hlt : unaryLevel < level := by simpa [Frame.admits] using hhead
      rw [settle, if_neg (by omega)]
    | between op left =>
      have hlt : op.level < level := by simpa [Frame.admits] using hhead
      rw [settle, if_neg (by omega)]
    | _ => rfl

theorem settle_of_isBracket {f : Frame} (h : f.isBracket = true) (level : Nat) (frames : List Frame)
    (e : Term) : settle level (f :: frames) e = (f :: frames, e) := by
  cases f with
  | before | between | access => cases h
  | _ => rfl

theorem admits_of_isBracket {f : Frame} (h : f.isBracket = true) (frames : List Frame) {level : Nat}
    (htype : inType (f :: frames) = true → closedLevel ≤ level) : Admits (f :: frames) level := by
  refine ⟨?_, htype⟩
  cases f with
  | before | between | access => cases h
  | _ => rfl

/-- Settling does not go beyond brackets. -/
theorem inType_settle (level : Nat) (frames : List Frame) (e : Term) :
    inType (settle level frames e).1 = inType frames := by
  induction frames generalizing e with
  | nil => rfl
  | cons frame frames ih =>
    cases frame with
    | before op =>
      rw [settle]
      split_ifs
      · exact ih _
      · rfl
    | between op left =>
      rw [settle]
      split_ifs
      · exact ih _
      · rfl
    | _ => rfl

theorem settle_closedLevel (frames : List Frame) (e : Term) :
    settle closedLevel frames e = (frames, e) := by
  cases frames with
  | nil => rfl
  | cons frame frames =>
    cases frame with
    | between op left =>
      have hlt : op.level < unaryLevel := op.level_lt
      rw [settle, if_neg]
      simp only [closedLevel, unaryLevel] at *
      omega
    | _ => rfl

theorem Admits.mono {frames : List Frame} {level level' : Nat} (h : Admits frames level)
    (hle : level ≤ level') : Admits frames level' := by
  refine ⟨?_, fun hopen => Nat.le_trans (h.type hopen) hle⟩
  have hhead := h.head
  cases frames with
  | nil => rfl
  | cons frame frames =>
    cases frame with
    | before op =>
      have hlt : unaryLevel < level := by simpa [Frame.admits] using hhead
      simpa [Frame.admits] using Nat.lt_of_lt_of_le hlt hle
    | between op left =>
      have hlt : op.level < level := by simpa [Frame.admits] using hhead
      simpa [Frame.admits] using Nat.lt_of_lt_of_le hlt hle
    | access how e => cases hhead
    | _ => rfl

/-! ## Reading what is written -/

/-- Whether tokens are read as a term that binds with the given level, whatever is open in front of
them that admits such a part, and whatever follows them. Operators that end the tokens may still be
open, but they are settled by everything that does not bind more tightly. -/
def Parses (ts : List (List Char)) (level : Nat) (t : Term) : Prop :=
  ∀ frames, Admits frames level → ∃ inner last,
    (∀ rest, Parse.read ⟨frames, none⟩ (ts ++ rest) = Parse.read ⟨inner, some last⟩ rest) ∧
      ∀ l ≤ level, settle l inner last = settle l frames t

/-- Whether a token cannot belong to a term in front of it in which no bracket is open. -/
def endsTerm (token : List Char) : Bool :=
  (signOf? accessSigns token).isNone && (signOf? operatorSigns token).isNone &&
    !([['('], ['[']].contains token)

namespace Parses

variable {ts us : List (List Char)} {level level' : Nat} {s t : Term}

/-- Closed parts are read without leaving anything open. -/
theorem exact (h : Parses ts level t) (hclosed : closedLevel ≤ level) {frames : List Frame}
    (hframes : Admits frames level) (rest : List (List Char)) :
    Parse.read ⟨frames, none⟩ (ts ++ rest) = Parse.read ⟨frames, some t⟩ rest := by
  obtain ⟨inner, last, hread, hsettle⟩ := h frames hframes
  have hsame := hsettle closedLevel hclosed
  rw [settle_closedLevel, settle_closedLevel, Prod.mk.injEq] at hsame
  rw [hread, hsame.1, hsame.2]

/-- Parts that are read without leaving anything open are closed. -/
theorem of_exact (h : ∀ frames, Admits frames closedLevel → ∀ rest,
    Parse.read ⟨frames, none⟩ (ts ++ rest) = Parse.read ⟨frames, some t⟩ rest) :
    Parses ts closedLevel t :=
  fun frames hframes => ⟨frames, t, h frames hframes, fun _ _ => rfl⟩

theorem admits_step {frames : List Frame} (h : Admits frames level) (token : List Char) :
    Parse.step? ⟨frames, none⟩ token = Parse.front? frames token := by
  have hhead := h.head
  cases frames with
  | nil => rfl
  | cons frame frames =>
    cases frame with
    | access how e => cases hhead
    | _ => rfl

/-- A name or a literal. -/
theorem atom {text : String} (h : isAtom text.toList = true) :
    Parses [text.toList] closedLevel (.atom text) := by
  have hhead := ((Bool.and_eq_true _ _).mp h).1
  refine of_exact fun frames hframes rest => Parse.read_cons ?_ rest
  have hsign : signOf? unarySigns text.toList = none := signOf?_eq_none hhead (by decide)
  have hopen : text.toList ≠ ['('] := ne_of_any_head? hhead (by decide)
  rw [admits_step hframes, Parse.front?, hsign]
  simp only [if_neg hopen, if_pos h, String.ofList_toList]

/-- A bracketed part. -/
theorem paren (h : Parses ts level t) : Parses (['('] :: (ts ++ [[')']])) closedLevel t := by
  refine of_exact fun frames hframes rest => ?_
  have hopen : Parse.step? ⟨frames, none⟩ ['('] = some ⟨.group :: frames, none⟩ :=
    (admits_step hframes _).trans rfl
  obtain ⟨inner, last, hread, hsettle⟩ := h (.group :: frames) ⟨rfl, nofun⟩
  have hclose : Parse.step? ⟨inner, some last⟩ [')'] = some ⟨frames, some t⟩ := by
    have hgroup : settle 0 inner last = (.group :: frames, t) := hsettle 0 (Nat.zero_le _)
    simp [Parse.step?, Parse.behind?, Parse.close?, hgroup, signOf?, accessSigns]
  rw [List.cons_append, Parse.read_cons hopen, List.append_assoc, hread]
  exact Parse.read_cons hclose rest

/-- An operator in front of a closed part. -/
theorem unary {op : UnaryOp} {sign : List Char} (hsign : signOf? unarySigns sign = some op)
    (h : Parses ts closedLevel t) : Parses (sign :: ts) unaryLevel (.unary op t) := by
  intro frames hframes
  have hstep : Parse.step? ⟨frames, none⟩ sign = some ⟨.before op :: frames, none⟩ := by
    rw [admits_step hframes, Parse.front?, hsign]
  refine ⟨.before op :: frames, t, fun rest => ?_, fun l hl => ?_⟩
  · have hadmits : Admits (.before op :: frames) closedLevel := ⟨rfl, fun _ => Nat.le_refl _⟩
    rw [List.cons_append, Parse.read_cons hstep]
    exact h.exact (Nat.le_refl _) hadmits rest
  · rw [settle, if_pos hl]

/-- The member of a closed part. -/
theorem access {how : Access} {sign : List Char} (hsign : signOf? accessSigns sign = some how)
    (h : Parses ts closedLevel t) {member : String}
    (hmember : member.toList.head?.any isWordChar = true) :
    Parses (ts ++ [sign, member.toList]) closedLevel (.access how t member) := by
  refine of_exact fun frames hframes rest => ?_
  have hstep : Parse.step? ⟨frames, some t⟩ sign = some ⟨.access how t :: frames, none⟩ := by
    simp only [Parse.step?, Parse.behind?, hsign]
  have hname : Parse.step? ⟨.access how t :: frames, none⟩ member.toList =
      some ⟨frames, some (.access how t member)⟩ := by
    simp only [Parse.step?, Parse.name?, if_pos hmember, String.ofList_toList]
  rw [List.append_assoc, h.exact (Nat.le_refl _) hframes, List.cons_append, Parse.read_cons hstep,
    List.cons_append, Parse.read_cons hname, List.nil_append]

/-- A call without arguments. -/
theorem call0 (h : Parses ts closedLevel t) :
    Parses (ts ++ [['('], [')']]) closedLevel (.call0 t) := by
  refine of_exact fun frames hframes rest => ?_
  rw [List.append_assoc, h.exact (Nat.le_refl _) hframes]
  rfl

/-- A bracket behind a closed part: `f` is the frame that it opens, and `u` what has been read when it
is closed. -/
theorem bracket {opening closing : List Char} {f : Frame} {u : Term} (h : Parses ts closedLevel t)
    (hopen : ∀ frames, Parse.step? ⟨frames, some t⟩ opening = some ⟨f :: frames, none⟩)
    (h' : Parses us level s) (hf : f.isBracket = true)
    (htype : ∀ frames, inType (f :: frames) = true → closedLevel ≤ level)
    (hclose : ∀ frames inner last, settle 0 inner last = (f :: frames, s) →
      Parse.step? ⟨inner, some last⟩ closing = some ⟨frames, some u⟩) :
    Parses (ts ++ opening :: (us ++ [closing])) closedLevel u := by
  refine of_exact fun frames hframes rest => ?_
  obtain ⟨inner, last, hread, hsettle⟩ := h' (f :: frames) (admits_of_isBracket hf _ (htype frames))
  have hinner := (hsettle 0 (Nat.zero_le _)).trans (settle_of_isBracket hf 0 frames s)
  rw [List.append_assoc, h.exact (Nat.le_refl _) hframes, List.cons_append,
    Parse.read_cons (hopen frames), List.append_assoc, hread]
  exact Parse.read_cons (hclose frames inner last hinner) rest

/-- A call with arguments. -/
theorem call (h : Parses ts closedLevel t) (h' : Parses us level s) :
    Parses (ts ++ ['('] :: (us ++ [[')']])) closedLevel (.call t s) := by
  refine h.bracket (f := .arguments t) (fun _ => rfl) h' rfl nofun fun frames inner last hinner => ?_
  simp [Parse.step?, Parse.behind?, Parse.close?, hinner, signOf?, accessSigns]

/-- An item by its position. -/
theorem index (h : Parses ts closedLevel t) (h' : Parses us level s) :
    Parses (ts ++ ['['] :: (us ++ [[']']])) closedLevel (.index t s) := by
  refine h.bracket (f := .position t) (fun _ => rfl) h' rfl nofun fun frames inner last hinner => ?_
  simp [Parse.step?, Parse.behind?, Parse.close?, hinner, signOf?, accessSigns]

/-- A member function for a type. -/
theorem typed (h : Parses ts closedLevel t) (htype : t.takesType = true)
    (h' : Parses us closedLevel s) :
    Parses (ts ++ ['<'] :: (us ++ [['>']])) closedLevel (.typed t s) := by
  refine h.bracket (f := .type t) (fun frames => ?_) h' rfl (fun _ _ => Nat.le_refl _)
    fun frames inner last hinner => ?_
  · simp [Parse.step?, Parse.behind?, signOf?, accessSigns, htype]
  · simp [Parse.step?, Parse.behind?, Parse.close?, hinner, signOf?, accessSigns]

/-- The sign of an operator between two operands is nothing else behind an operand. -/
theorem behind?_operator {op : Operator} {sign : List Char}
    (hsign : signOf? operatorSigns sign = some op) {frames : List Frame} {e : Term}
    (hlt : op = .op .lt → e.takesType = false) (htype : inType frames = false) :
    Parse.behind? frames e sign =
      some ⟨.between op (settle op.level frames e).2 :: (settle op.level frames e).1, none⟩ := by
  have hclose : sign ≠ [')'] → sign ≠ [']'] → Parse.close? frames e sign = none := by
    intro hround hsquare
    rw [← inType_settle 0 frames e] at htype
    rw [Parse.close?]
    split
    · exact if_neg hround
    · exact if_neg hround
    · exact if_neg hsquare
    · next hframes => rw [hframes] at htype; cases htype
    · rfl
  obtain ⟨spelling, hmem, rfl⟩ := exists_of_signOf? hsign
  have hall : ∀ entry ∈ operatorSigns, entry.1.toList ≠ [')'] ∧ entry.1.toList ≠ [']'] ∧
      entry.1.toList ≠ ['('] ∧ entry.1.toList ≠ ['['] ∧
        signOf? accessSigns entry.1.toList = none ∧
          (entry.1.toList = ['<'] → entry.2 = .op .lt) := by decide
  obtain ⟨hround, hsquare, hcall, hindex, haccess, hless⟩ := hall _ hmem
  have hbracket : ¬ (spelling.toList = ['<'] ∧ e.takesType = true) := by
    rintro ⟨hchars, htakes⟩
    rw [hlt (hless hchars)] at htakes
    cases htakes
  rw [Parse.behind?, haccess]
  simp only [if_neg hcall, if_neg hindex, if_neg hbracket, hclose hround hsquare, hsign,
    Option.map_some, Option.none_or]

/-- An operator between two operands. The left one binds at least as tightly as the operator, and the
right one more tightly. -/
theorem binary {op : Operator} {sign : List Char} (hsign : signOf? operatorSigns sign = some op)
    (h : Parses ts level t) (h' : Parses us level' s) (hleft : op.level ≤ level)
    (hright : op.level < level')
    (hlt : op = .op .lt → closedLevel ≤ level ∧ t.takesType = false) :
    Parses (ts ++ sign :: us) op.level (.binary op t s) := by
  intro frames hframes
  have htype : inType frames = false := by
    rw [← Bool.not_eq_true]
    intro htype
    have hclosed := hframes.type htype
    have hop := op.level_lt
    simp only [closedLevel, unaryLevel] at hclosed hop
    omega
  obtain ⟨inner, last, hread, hsettle⟩ := h frames (hframes.mono hleft)
  have hinner : settle op.level inner last = (frames, t) :=
    (hsettle op.level hleft).trans (settle_of_admits hframes t)
  have hlast : op = .op .lt → last.takesType = false := by
    intro hop
    obtain ⟨hclosed, htakes⟩ := hlt hop
    have hsame := hsettle closedLevel hclosed
    rw [settle_closedLevel, settle_closedLevel, Prod.mk.injEq] at hsame
    rw [hsame.2, htakes]
  have hinType : inType inner = false := by
    rw [← inType_settle op.level inner last, hinner, htype]
  have hstep : Parse.step? ⟨inner, some last⟩ sign = some ⟨.between op t :: frames, none⟩ := by
    have hbehind := behind?_operator hsign hlast hinType
    rw [hinner] at hbehind
    exact hbehind
  have hadmits : Admits (.between op t :: frames) level' := by
    refine ⟨by simpa [Frame.admits] using hright, fun hopen => ?_⟩
    rw [inType, htype] at hopen
    cases hopen
  obtain ⟨inner', last', hread', hsettle'⟩ := h' _ hadmits
  refine ⟨inner', last', fun rest => ?_, fun l hl => ?_⟩
  · rw [List.append_assoc, hread, List.cons_append, Parse.read_cons hstep, hread']
  · rw [hsettle' l (by omega), settle, if_pos hl]

/-- **Terms.** A term is read up to a token that cannot belong to it. -/
theorem readTerm?_eq (h : Parses ts level t) {rest : List (List Char)}
    (hrest : rest.head?.all endsTerm = true) : readTerm? (ts ++ rest) = some (t, rest) := by
  obtain ⟨inner, last, hread, hsettle⟩ := h [] ⟨rfl, nofun⟩
  have hinner : settle 0 inner last = ([], t) := hsettle 0 (Nat.zero_le _)
  have hcomplete : Parse.complete? ⟨inner, some last⟩ = some t := by
    simp only [Parse.complete?, Option.bind_some, hinner]
  rw [readTerm?, Parse.start, hread]
  cases rest with
  | nil => rw [Parse.read, hcomplete]; rfl
  | cons token rest =>
    have hstep : Parse.step? ⟨inner, some last⟩ token = none := by
      simp only [List.head?_cons, Option.all_some, endsTerm, Bool.and_eq_true, Option.isNone_iff_eq_none,
        Bool.not_eq_true', List.contains_eq_mem, decide_eq_false_iff_not, List.mem_cons,
        List.not_mem_nil, or_false, not_or] at hrest
      obtain ⟨⟨haccess, hoperator⟩, hcall, hindex⟩ := hrest
      have hless : token ≠ ['<'] := by
        rintro rfl
        revert hoperator
        decide
      simp [Parse.step?, Parse.behind?, haccess, hcall, hindex, hless, Parse.close?, hinner,
        hoperator]
    rw [Parse.read, hstep, hcomplete]
    rfl

theorem readTerm?_cons (h : Parses ts level t) {token : List Char} (htoken : endsTerm token = true)
    (rest : List (List Char)) : readTerm? (ts ++ token :: rest) = some (t, token :: rest) :=
  h.readTerm?_eq htoken

end Parses

end ConfigForge.Cpp
