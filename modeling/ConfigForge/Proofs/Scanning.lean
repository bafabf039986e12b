import ConfigForge.Cpp.Function
import ConfigForge.Proofs.TypeNames

/-!
# Scanning generated lines

A scanner goes through a line from left to right, knows whether it is inside a string literal, and
counts the braces outside of literals. Plain texts, which are free of quotes, backslashes, braces and
control characters, leave it as it was, and so do all literals. A line, a statement or a function
whose texts are plain therefore scans the way its shape says.

Results:

* `scans_stringLiteral`: a literal of any text whatever is left where it ends, without a control
  character and without a brace that counts.
* `plain_integerLiteral`, `plain_numberLiteral`: the literals of numbers are plain.
* `Cpp.Function.IsPlain.scansLines`: a function with plain names is balanced.
-/

namespace ConfigForge

open Code (Line Placement)
open Cpp

/-! ## The scanner -/

/-- Whether a character is a control character of ASCII. Line breaks are. -/
def isControl (c : Char) : Bool :=
  decide (c.toNat < 0x20) || decide (c.toNat = 0x7F)

/-- Where a scanner stands: in code, in a string literal, or there after a backslash. -/
inductive Lexing where
  | code
  | literal
  | escape
deriving DecidableEq, Repr

/-- Where a scanner stands after a character. -/
def Lexing.next (c : Char) : Lexing → Lexing
  | .code => if c = '"' then .literal else .code
  | .literal => if c = '"' then .code else if c = '\\' then .escape else .literal
  | .escape => .literal

/-- Where a scanner stands after several characters. -/
def Lexing.after (l : Lexing) (cs : List Char) : Lexing :=
  cs.foldl (fun l c => l.next c) l

/-- The number of open braces after a character of code. There is none if the character closes a
brace where no brace is open. -/
def bracesAfter? (c : Char) (depth : Nat) : Option Nat :=
  if c = '\x7b' then some (depth + 1)
  else if c = '\x7d' then if depth = 0 then none else some (depth - 1)
  else some depth

/-- The number of open braces after several characters. Braces in literals do not count. -/
def depthAfter? : Lexing → Nat → List Char → Option Nat
  | _, depth, [] => some depth
  | l, depth, c :: cs =>
    (if l = .code then bracesAfter? c depth else some depth).bind fun depth =>
      depthAfter? (l.next c) depth cs

/-- Whether a scanner that starts a line in code ends it in code. -/
def EndsInCode (line : String) : Prop :=
  Lexing.code.after line.toList = .code

/-- Whether the braces of lines balance, without ever closing a brace that is not open. -/
def Balanced (lines : List String) : Prop :=
  lines.foldlM (fun depth line => depthAfter? .code depth line.toList) 0 = some 0

instance (line : String) : Decidable (EndsInCode line) :=
  inferInstanceAs (Decidable (Lexing.code.after line.toList = .code))

instance (lines : List String) : Decidable (Balanced lines) :=
  inferInstanceAs (Decidable (lines.foldlM _ 0 = some 0))

theorem Lexing.after_append (l : Lexing) (cs ds : List Char) :
    l.after (cs ++ ds) = (l.after cs).after ds :=
  List.foldl_append

theorem depthAfter?_append (l : Lexing) (depth : Nat) (cs ds : List Char) :
    depthAfter? l depth (cs ++ ds) =
      (depthAfter? l depth cs).bind fun depth => depthAfter? (l.after cs) depth ds := by
  induction cs generalizing l depth with
  | nil => rfl
  | cons c cs ih =>
    rw [List.cons_append, depthAfter?, depthAfter?, Option.bind_assoc]
    congr 1
    funext depth
    exact ih (l.next c) depth

/-! ## Texts that a scanner enters and leaves in code -/

/-- A text without control characters that takes a scanner from code to code, and from one number of
open braces to another. -/
structure Scans (depth : Nat) (text : String) (depth' : Nat) : Prop where
  control : ∀ c ∈ text.toList, isControl c = false
  code : EndsInCode text
  braces : depthAfter? .code depth text.toList = some depth'

/-- For fixed texts, all of it can be computed. -/
theorem Scans.of_all {depth depth' : Nat} {text : String}
    (hcontrol : text.toList.all (fun c => !isControl c) = true) (hcode : EndsInCode text)
    (hbraces : depthAfter? .code depth text.toList = some depth') : Scans depth text depth' where
  control c hc := (Bool.not_eq_true' _).mp (List.all_eq_true.mp hcontrol c hc)
  code := hcode
  braces := hbraces

theorem Scans.append {depth depth' depth'' : Nat} {text more : String}
    (h : Scans depth text depth') (h' : Scans depth' more depth'') :
    Scans depth (text ++ more) depth'' where
  control c hc := by
    rw [String.toList_append, List.mem_append] at hc
    exact hc.elim (h.control c) (h'.control c)
  code := by
    have hcode : Lexing.code.after text.toList = .code := h.code
    rw [EndsInCode, String.toList_append, Lexing.after_append, hcode]
    exact h'.code
  braces := by
    have hcode : Lexing.code.after text.toList = .code := h.code
    rw [String.toList_append, depthAfter?_append, hcode, h.braces]
    exact h'.braces

/-- Lines that a scanner goes through one after the other, each from code to code. -/
inductive ScansLines : Nat → List String → Nat → Prop where
  | nil {depth : Nat} : ScansLines depth [] depth
  | cons {depth depth' depth'' : Nat} {line : String} {lines : List String}
    (head : Scans depth line depth') (tail : ScansLines depth' lines depth'') :
    ScansLines depth (line :: lines) depth''

namespace ScansLines

variable {depth depth' depth'' : Nat} {lines more : List String}

theorem append (h : ScansLines depth lines depth') (h' : ScansLines depth' more depth'') :
    ScansLines depth (lines ++ more) depth'' := by
  induction h with
  | nil => exact h'
  | cons head _ ih => exact .cons head (ih h')

theorem singleton {line : String} (h : Scans depth line depth') : ScansLines depth [line] depth' :=
  .cons h .nil

/-- Lines that all leave the number of open braces as it is. -/
theorem of_forall (h : ∀ line ∈ lines, Scans depth line depth) : ScansLines depth lines depth := by
  induction lines with
  | nil => exact .nil
  | cons line lines ih =>
    exact .cons (h line List.mem_cons_self) (ih fun l hl => h l (List.mem_cons_of_mem _ hl))

theorem flatMap {α : Type} {l : List α} {f : α → List String}
    (h : ∀ a ∈ l, ScansLines depth (f a) depth) : ScansLines depth (l.flatMap f) depth := by
  induction l with
  | nil => exact .nil
  | cons a l ih =>
    rw [List.flatMap_cons]
    exact (h a List.mem_cons_self).append (ih fun b hb => h b (List.mem_cons_of_mem _ hb))

/-- Lines with something in front of each of them that a scanner does not notice. -/
theorem map {f : String → String}
    (hf : ∀ {depth depth' : Nat} {line : String}, Scans depth line depth' →
      Scans depth (f line) depth')
    (h : ScansLines depth lines depth') : ScansLines depth (lines.map f) depth' := by
  induction h with
  | nil => exact .nil
  | cons head _ ih => exact .cons (hf head) ih

/-- What holds of every line: no control character, and no literal that is still open. -/
theorem forall_mem (h : ScansLines depth lines depth') :
    ∀ line ∈ lines, (∀ c ∈ line.toList, isControl c = false) ∧ EndsInCode line := by
  induction h with
  | nil => exact List.forall_mem_nil _
  | cons head _ ih => exact List.forall_mem_cons.mpr ⟨⟨head.control, head.code⟩, ih⟩

theorem foldlM_eq (h : ScansLines depth lines depth') :
    lines.foldlM (fun depth line => depthAfter? .code depth line.toList) depth = some depth' := by
  induction h with
  | nil => rfl
  | cons head _ ih =>
    rw [List.foldlM_cons, head.braces]
    exact ih

theorem balanced (h : ScansLines 0 lines 0) : Balanced lines :=
  h.foldlM_eq

end ScansLines

/-! ## Plain texts -/

/-- Whether a character means nothing to a scanner. -/
def isPlainChar (c : Char) : Bool :=
  !isControl c && c != '"' && c != '\\' && c != '\x7b' && c != '\x7d'

/-- A text without quotes, backslashes, braces and control characters. -/
def Plain (text : String) : Prop :=
  text.toList.all isPlainChar = true

instance (text : String) : Decidable (Plain text) :=
  inferInstanceAs (Decidable (text.toList.all isPlainChar = true))

theorem plain_iff {text : String} : Plain text ↔ ∀ c ∈ text.toList, isPlainChar c = true :=
  List.all_eq_true

@[simp] theorem plain_append {text more : String} :
    Plain (text ++ more) ↔ Plain text ∧ Plain more := by
  rw [Plain, String.toList_append, List.all_append, Bool.and_eq_true]
  rfl

theorem isPlainChar_of_isWordChar {c : Char} (h : isWordChar c = true) : isPlainChar c = true := by
  have hc : c.toNat < 128 := by
    by_cases hne : c = '_'
    · subst hne
      decide
    · exact isAlphanum_toNat_lt (isAlphanum_of_isWordChar h hne)
  exact ascii_forall (P := fun c => isWordChar c = true → isPlainChar c = true) (by decide) hc h

theorem isWordChar_of_isAlphanum {c : Char} (h : c.isAlphanum = true) : isWordChar c = true := by
  simp [isWordChar, h]

theorem isPlainChar_of_isDigit {c : Char} (h : c.isDigit = true) : isPlainChar c = true :=
  isPlainChar_of_isWordChar (isWordChar_of_isAlphanum (by simp [Char.isAlphanum, h]))

/-- A plain character is no control character and takes a scanner nowhere. -/
theorem isPlainChar_cases {c : Char} (h : isPlainChar c = true) :
    isControl c = false ∧ Lexing.code.next c = .code ∧
      ∀ depth, bracesAfter? c depth = some depth := by
  simp only [isPlainChar, Bool.and_eq_true, Bool.not_eq_true', bne_iff_ne] at h
  obtain ⟨⟨⟨⟨hcontrol, hquote⟩, -⟩, hopen⟩, hclose⟩ := h
  refine ⟨hcontrol, if_neg hquote, fun depth => ?_⟩
  rw [bracesAfter?, if_neg hopen, if_neg hclose]

theorem after_of_plain {cs : List Char} (h : ∀ c ∈ cs, isPlainChar c = true) :
    Lexing.code.after cs = .code ∧ ∀ depth, depthAfter? .code depth cs = some depth := by
  induction cs with
  | nil => exact ⟨rfl, fun _ => rfl⟩
  | cons c cs ih =>
    obtain ⟨-, hnext, hbraces⟩ := isPlainChar_cases (h c List.mem_cons_self)
    obtain ⟨hafter, hdepth⟩ := ih fun d hd => h d (List.mem_cons_of_mem _ hd)
    refine ⟨?_, fun depth => ?_⟩
    · rw [Lexing.after, List.foldl_cons, hnext]
      exact hafter
    · rw [depthAfter?, if_pos rfl, hbraces, hnext]
      exact hdepth depth

/-- A plain text leaves a scanner as it was. -/
theorem Plain.scans {text : String} (h : Plain text) (depth : Nat) : Scans depth text depth := by
  rw [plain_iff] at h
  obtain ⟨hafter, hdepth⟩ := after_of_plain h
  exact ⟨fun c hc => (isPlainChar_cases (h c hc)).1, hafter, hdepth depth⟩

theorem plain_ofList_iff {cs : List Char} :
    Plain (String.ofList cs) ↔ ∀ c ∈ cs, isPlainChar c = true := by
  rw [plain_iff, String.toList_ofList]

/-! ## Texts in literals -/

/-- Characters without control characters that a scanner reads inside a literal and that do not end
it. -/
structure InLiteral (cs : List Char) : Prop where
  control : ∀ c ∈ cs, isControl c = false
  literal : Lexing.literal.after cs = .literal
  braces : ∀ depth, depthAfter? .literal depth cs = some depth

theorem InLiteral.nil : InLiteral [] :=
  ⟨List.forall_mem_nil _, rfl, fun _ => rfl⟩

theorem InLiteral.append {cs ds : List Char} (h : InLiteral cs) (h' : InLiteral ds) :
    InLiteral (cs ++ ds) where
  control c hc := (List.mem_append.mp hc).elim (h.control c) (h'.control c)
  literal := by rw [Lexing.after_append, h.literal, h'.literal]
  braces depth := by
    rw [depthAfter?_append, h.braces, h.literal]
    exact h'.braces depth

theorem InLiteral.char {c : Char} (hcontrol : isControl c = false) (hquote : c ≠ '"')
    (hbackslash : c ≠ '\\') : InLiteral [c] := by
  have hnext : Lexing.literal.next c = .literal := by
    rw [Lexing.next, if_neg hquote, if_neg hbackslash]
  exact ⟨List.forall_mem_singleton.mpr hcontrol, hnext, fun _ => rfl⟩

/-- A backslash takes the character after it along, whatever that is. -/
theorem InLiteral.escape {c : Char} (hcontrol : isControl c = false) : InLiteral ['\\', c] where
  control := List.forall_mem_cons.mpr ⟨by decide, List.forall_mem_singleton.mpr hcontrol⟩
  literal := rfl
  braces _ := rfl

theorem InLiteral.octalChar (n : Nat) : InLiteral [octalChar n] := by
  have hall : ∀ m : Fin 8, isControl (Char.ofNat ('0'.toNat + m)) = false ∧
      Char.ofNat ('0'.toNat + m) ≠ '"' ∧ Char.ofNat ('0'.toNat + m) ≠ '\\' := by decide
  obtain ⟨hcontrol, hquote, hbackslash⟩ := hall ⟨n % 8, Nat.mod_lt n (by decide)⟩
  exact .char hcontrol hquote hbackslash

theorem inLiteral_stringChar (c : Char) : InLiteral (stringChar c) := by
  unfold stringChar
  split_ifs with hquote hbackslash hn hr ht hcontrol
  · exact .escape (by decide)
  · exact .escape (by decide)
  · exact .escape (by decide)
  · exact .escape (by decide)
  · exact .escape (by decide)
  · have hfirst : InLiteral ['\\', Cpp.octalChar (c.toNat / 64)] :=
      .escape ((InLiteral.octalChar _).control _ List.mem_cons_self)
    exact hfirst.append ((InLiteral.octalChar _).append (InLiteral.octalChar _))
  · refine .char ?_ hquote hbackslash
    simpa [isControl] using hcontrol

theorem inLiteral_stringChars (cs : List Char) : InLiteral (stringChars cs) := by
  unfold stringChars
  induction cs with
  | nil => exact .nil
  | cons c cs ih => exact (inLiteral_stringChar c).append ih

/-- **Literals.** The literal of a text, whatever its characters are, has no control character and no
brace that counts, and it ends at its last character. -/
theorem scans_stringLiteral (s : String) (depth : Nat) : Scans depth (stringLiteral s) depth := by
  have hinside := inLiteral_stringChars s.toList
  have hlist : (stringLiteral s).toList = '"' :: (stringChars s.toList ++ ['"']) := by
    simp [stringLiteral]
  refine ⟨fun c hc => ?_, ?_, ?_⟩
  · rw [hlist, List.mem_cons, List.mem_append, List.mem_singleton] at hc
    rcases hc with rfl | hc | rfl
    · decide
    · exact hinside.control c hc
    · decide
  · rw [EndsInCode, hlist]
    change Lexing.literal.after (stringChars s.toList ++ ['"']) = .code
    rw [Lexing.after_append, hinside.literal]
    rfl
  · rw [hlist]
    change depthAfter? .literal depth (stringChars s.toList ++ ['"']) = some depth
    rw [depthAfter?_append, hinside.braces, hinside.literal]
    rfl

/-! ## Literals of numbers -/

theorem isPlainChar_of_mem_toDigits {n : Nat} {c : Char} (h : c ∈ Nat.toDigits 10 n) :
    isPlainChar c = true :=
  isPlainChar_of_isDigit (Nat.isDigit_of_mem_toDigits (by decide) (by decide) h)

@[simp] theorem plain_toString_nat (n : Nat) : Plain (toString n) := by
  rw [Nat.toString_eq_ofList_toDigits, plain_ofList_iff]
  exact fun c hc => isPlainChar_of_mem_toDigits hc

@[simp] theorem plain_toString_int (i : Int) : Plain (toString i) := by
  rw [Int.toString_eq_repr, Int.repr_eq_if]
  split
  · exact plain_toString_nat _
  · exact plain_append.mpr ⟨by decide, plain_toString_nat _⟩

@[simp] theorem plain_integerLiteral (i : Int) (type : Primitive) :
    Plain (integerLiteral i type) := by
  unfold integerLiteral
  split
  · split
    · decide
    · exact plain_append.mpr ⟨plain_toString_int i, by decide⟩
  · exact plain_append.mpr ⟨plain_toString_int i, by decide⟩
  · exact plain_toString_int i

theorem plain_positionalChars {layout : NumberLayout} (hend : Plain layout.wholeEnd)
    {digits : List Char} (h : ∀ c ∈ digits, isPlainChar c = true) (point : Int) :
    ∀ c ∈ layout.positionalChars digits point, isPlainChar c = true := by
  have hzeros : ∀ n, ∀ c ∈ NumberLayout.zeros n, isPlainChar c = true := by
    intro n c hc
    rw [List.eq_of_mem_replicate hc]
    decide
  unfold NumberLayout.positionalChars
  split_ifs
  · have hfront : ∀ c ∈ "0.".toList, isPlainChar c = true :=
      plain_iff.mp (show Plain "0." by decide)
    exact List.forall_mem_append.mpr ⟨List.forall_mem_append.mpr ⟨hfront, hzeros _⟩, h⟩
  · refine List.forall_mem_append.mpr ⟨fun c hc => h c (List.mem_of_mem_take hc), ?_⟩
    exact List.forall_mem_cons.mpr ⟨by decide, fun c hc => h c (List.mem_of_mem_drop hc)⟩
  · exact List.forall_mem_append.mpr
      ⟨List.forall_mem_append.mpr ⟨h, hzeros _⟩, plain_iff.mp hend⟩

theorem plain_exponentChars {digits : List Char} (h : ∀ c ∈ digits, isPlainChar c = true)
    (exponent : Int) : ∀ c ∈ NumberLayout.exponentChars digits exponent, isPlainChar c = true := by
  have hrest : ∀ c ∈ digits.drop 1, isPlainChar c = true :=
    fun c hc => h c (List.mem_of_mem_drop hc)
  have hexponent : ∀ c ∈ 'e' :: (toString exponent).toList, isPlainChar c = true :=
    List.forall_mem_cons.mpr ⟨by decide, plain_iff.mp (plain_toString_int exponent)⟩
  unfold NumberLayout.exponentChars
  refine List.forall_mem_append.mpr
    ⟨List.forall_mem_append.mpr ⟨fun c hc => h c (List.mem_of_mem_take hc), ?_⟩, hexponent⟩
  split
  · exact List.forall_mem_nil _
  · exact List.forall_mem_cons.mpr ⟨by decide, hrest⟩

@[simp] theorem plain_numberLiteral (x : Binary64) : Plain (numberLiteral x) := by
  have hend : Plain literalLayout.wholeEnd := by decide
  have hsign : Plain (if x.isNegative then "-" else "") := by split <;> decide
  have hdecimal : ∀ d, Plain (String.ofList (literalLayout.decimalChars d)) := by
    intro d
    rw [plain_ofList_iff]
    simp only [NumberLayout.decimalChars]
    have hdigits : ∀ c ∈ Nat.toDigits 10 d.digits, isPlainChar c = true :=
      fun c hc => isPlainChar_of_mem_toDigits hc
    split
    · exact plain_positionalChars hend hdigits _
    · split
      · exact plain_positionalChars hend hdigits _
      · exact plain_exponentChars hdigits _
  simp only [numberLiteral, NumberLayout.render]
  generalize (if x.isNegative = true then "-" else "") = sign at hsign
  split_ifs
  · decide
  · exact plain_append.mpr ⟨hsign, by decide⟩
  · exact plain_append.mpr ⟨plain_append.mpr ⟨hsign, by decide⟩, hend⟩
  · exact plain_append.mpr ⟨hsign, hdecimal _⟩

/-! ## Expressions and statements -/

/-- A name whose components are plain. -/
structure QualifiedName.IsPlain (q : QualifiedName) : Prop where
  scope : ∀ c ∈ q.scope, Plain c
  name : Plain q.name

@[simp] theorem plain_qualification {scope : List String} :
    Plain (qualification scope) ↔ ∀ c ∈ scope, Plain c := by
  induction scope with
  | nil => simp [qualification]; decide
  | cons c rest ih =>
    have hcolons : Plain "::" := by decide
    simp [qualification, ih, hcolons]

theorem Helper.plain_name (h : Helper) {type : String} (htype : Plain type) :
    Plain (h.name type) := by
  cases h with
  | init => exact plain_append.mpr ⟨by decide, htype⟩
  | validate => exact plain_append.mpr ⟨by decide, htype⟩
  | toJson => exact plain_append.mpr ⟨htype, by decide⟩
  | jsonTo => exact plain_append.mpr ⟨by decide, htype⟩

/-- Whether the names in a type are plain. -/
def Cpp.Owner.IsPlain : Owner → Prop
  | .here type => Plain type
  | .named q => q.IsPlain

/-- Whether the names in a type are plain. -/
def Cpp.TypeName.IsPlain : TypeName → Prop
  | .owned owner => owner.IsPlain
  | .plain spelling => Plain spelling

/-- Whether the names in an expression are plain. Literals are not restricted. -/
@[simp] def Cpp.Expr.IsPlain : Expr → Prop
  | .var name => Plain name
  | .bool _ | .integer _ _ | .double _ | .text _ | .count _ | .size _ => True
  | .not e | .deref e | .address e | .paren e | .call0 e => e.IsPlain
  | .dot e member | .arrow e member => e.IsPlain ∧ Plain member
  | .binary _ left right | .index left right | .call left right | .comma left right =>
    left.IsPlain ∧ right.IsPlain
  | .typed e t => e.IsPlain ∧ t.IsPlain
  | .static t member => t.IsPlain ∧ Plain member
  | .type t => t.IsPlain
  | .helper _ owner => owner.IsPlain

/-- Whether the names in a statement are plain. -/
def Cpp.Stmt.IsPlain : Stmt → Prop
  | .assign e e' | .leaveIf e e' => e.IsPlain ∧ e'.IsPlain
  | .declare type name e => type.IsPlain ∧ Plain name ∧ e.IsPlain
  | .declareEmpty type name => type.IsPlain ∧ Plain name
  | .evaluate e | .leave e => e.IsPlain
  | .discard name => Plain name

/-- Whether the names in a block are plain. -/
def Cpp.Block.IsPlain : Block → Prop
  | .line s => s.IsPlain
  | .countLoop bound body => bound.IsPlain ∧ ∀ s ∈ body, s.IsPlain
  | .itemLoop body => ∀ s ∈ body, s.IsPlain
  | .fieldLoop first rest => first.2.IsPlain ∧ ∀ branch ∈ rest, branch.2.IsPlain

section

variable {p : Placement} (hp : Plain p.scope) (depth : Nat)

include hp

theorem Cpp.TypeName.IsPlain.plain_line {type : TypeName} (h : type.IsPlain) :
    Plain (type.line.fill p) := by
  cases type with
  | plain spelling => rwa [TypeName.line, Line.fill_ofText]
  | owned owner =>
    cases owner with
    | here type =>
      rw [TypeName.line, Owner.typeLine, Line.fill_append, Line.fill_ofSlot, Line.fill_ofText]
      exact plain_append.mpr ⟨hp, h⟩
    | named q =>
      rw [TypeName.line, Owner.typeLine, Line.fill_ofText]
      exact plain_append.mpr ⟨plain_qualification.mpr h.scope, h.name⟩

theorem Cpp.Owner.IsPlain.plain_helperLine {owner : Owner} (h : owner.IsPlain) (helper : Helper) :
    Plain ((owner.helperLine helper).fill p) := by
  cases owner with
  | here type =>
    rw [Owner.helperLine, Line.fill_append, Line.fill_ofSlot, Line.fill_ofText]
    exact plain_append.mpr ⟨hp, helper.plain_name h⟩
  | named q =>
    rw [Owner.helperLine, Line.fill_ofText]
    exact plain_append.mpr ⟨plain_qualification.mpr h.scope, helper.plain_name h.name⟩

/-- An expression with plain names leaves a scanner as it was. -/
theorem Cpp.Expr.IsPlain.scans {e : Expr} (h : e.IsPlain) : Scans depth (e.line.fill p) depth := by
  have word : ∀ {text : String}, Plain text → Scans depth text depth := fun ht => ht.scans depth
  induction e with
  | var name => rw [Expr.line, Line.fill_ofText]; exact word h
  | bool b => rw [Expr.line, Line.fill_ofText]; cases b <;> exact word (by decide)
  | integer value type => rw [Expr.line, Line.fill_ofText]; exact word (plain_integerLiteral _ _)
  | double x => rw [Expr.line, Line.fill_ofText]; exact word (plain_numberLiteral x)
  | text s => rw [Expr.line, Line.fill_ofText]; exact scans_stringLiteral s depth
  | count n => rw [Expr.line, Line.fill_ofText]; exact word (plain_toString_nat n)
  | size n =>
    rw [Expr.line, Line.fill_ofText]
    exact word (plain_append.mpr ⟨plain_toString_nat n, by decide⟩)
  | not e ih | deref e ih | address e ih =>
    rw [Expr.line, Line.fill_append, Line.fill_ofText]
    exact (word (by decide)).append (ih h)
  | paren e ih =>
    rw [Expr.line, Line.fill_text, Line.fill_append, Line.fill_ofText]
    exact ((word (by decide)).append (ih h)).append (word (by decide))
  | binary op left right ih ih' =>
    rw [Expr.line, Line.fill_append, Line.fill_text]
    refine ((ih h.1).append (word ?_)).append (ih' h.2)
    cases op <;> decide
  | dot e member ih | arrow e member ih =>
    rw [Expr.line, Line.fill_text]
    exact (ih h.1).append (word (plain_append.mpr ⟨by decide, h.2⟩))
  | index left right ih ih' | call left right ih ih' =>
    rw [Expr.line, Line.fill_text, Line.fill_append, Line.fill_text]
    exact (((ih h.1).append (word (by decide))).append (ih' h.2)).append (word (by decide))
  | comma left right ih ih' =>
    rw [Expr.line, Line.fill_append, Line.fill_text]
    exact ((ih h.1).append (word (by decide))).append (ih' h.2)
  | typed e type ih =>
    rw [Expr.line, Line.fill_text, Line.fill_append, Line.fill_text]
    exact (((ih h.1).append (word (by decide))).append (word (h.2.plain_line hp))).append
      (word (by decide))
  | static type member =>
    rw [Expr.line, Line.fill_text]
    exact (word (h.1.plain_line hp)).append (word (plain_append.mpr ⟨by decide, h.2⟩))
  | type t => exact word (TypeName.IsPlain.plain_line hp h)
  | helper helper owner => exact word (Owner.IsPlain.plain_helperLine hp h helper)
  | call0 e ih =>
    rw [Expr.line, Line.fill_text]
    exact (ih h).append (word (by decide))

theorem Cpp.Stmt.IsPlain.scans {s : Stmt} (h : s.IsPlain) : Scans depth (s.line.fill p) depth := by
  have word : ∀ {text : String}, Plain text → Scans depth text depth := fun ht => ht.scans depth
  cases s with
  | assign target value =>
    rw [Stmt.line, Line.fill_text, Line.fill_append, Line.fill_text]
    exact (((h.1.scans hp depth).append (word (by decide))).append (h.2.scans hp depth)).append
      (word (by decide))
  | declare type name value =>
    obtain ⟨htype, hname, hvalue⟩ := h
    rw [Stmt.line, Line.fill_text, Line.fill_append, Line.fill_text]
    have hmiddle : Plain (" " ++ name ++ " = ") :=
      plain_append.mpr ⟨plain_append.mpr ⟨by decide, hname⟩, by decide⟩
    exact (((word (htype.plain_line hp)).append (word hmiddle)).append
      (hvalue.scans hp depth)).append (word (by decide))
  | declareEmpty type name =>
    rw [Stmt.line, Line.fill_text]
    exact (word (h.1.plain_line hp)).append
      (word (plain_append.mpr ⟨plain_append.mpr ⟨by decide, h.2⟩, by decide⟩))
  | evaluate e =>
    rw [Stmt.line, Line.fill_text]
    exact (Expr.IsPlain.scans hp depth h).append (word (by decide))
  | discard name =>
    rw [Stmt.line, Line.fill_ofText]
    exact word (plain_append.mpr ⟨plain_append.mpr ⟨by decide, h⟩, by decide⟩)
  | leave e =>
    rw [Stmt.line, Line.fill_text, Line.fill_append, Line.fill_ofText]
    exact ((word (by decide)).append (Expr.IsPlain.scans hp depth h)).append (word (by decide))
  | leaveIf condition e =>
    rw [Stmt.line, Line.fill_text, Line.fill_append, Line.fill_text, Line.fill_append,
      Line.fill_ofText]
    exact ((((word (by decide)).append (h.1.scans hp depth)).append (word (by decide))).append
      (h.2.scans hp depth)).append (word (by decide))

/-! ## Blocks and functions -/

omit hp in
theorem scans_indentLine {l : Line} {depth' : Nat} (h : Scans depth (l.fill p) depth') :
    Scans depth ((indentLine l).fill p) depth' := by
  rw [indentLine, Line.fill_append, Line.fill_ofText]
  exact (Plain.scans (by decide) depth).append h

omit hp in
theorem scansLines_map_indentLine {lines : List Line} {depth' : Nat}
    (h : ScansLines depth (lines.map (Line.fill p)) depth') :
    ScansLines depth ((lines.map indentLine).map (Line.fill p)) depth' := by
  have hmap : (lines.map indentLine).map (Line.fill p) =
      (lines.map (Line.fill p)).map (Code.indentUnit ++ ·) := by
    simp [indentLine, Function.comp_def]
  rw [hmap]
  exact h.map fun hline => (Plain.scans (by decide) _).append hline

omit hp in
theorem scans_closing : Scans (depth + 1) "\x7d" depth :=
  .of_all (by decide) (by decide) rfl

/-- The lines of statements in a loop. -/
theorem scansLines_statements {body : List Stmt} (h : ∀ s ∈ body, s.IsPlain) :
    ScansLines depth ((body.map fun s => indentLine s.line).map (Line.fill p)) depth := by
  rw [List.map_map]
  refine .of_forall fun line hline => ?_
  obtain ⟨s, hs, rfl⟩ := List.mem_map.mp hline
  exact scans_indentLine depth ((h s hs).scans hp depth)

/-- The lines of a branch, whose first word may close the branch before it. -/
theorem scansLines_branchLines {word : String} {depth' : Nat} (hword : Scans depth word depth')
    {branch : String × Stmt} (h : branch.2.IsPlain) :
    ScansLines depth ((branchLines word branch).map (Line.fill p)) (depth' + 1) := by
  have htest : (Expr.binary .eq (Expr.ask (.var "it") "key") (.text branch.1)).IsPlain :=
    ⟨⟨show Plain "it" by decide, by decide⟩, trivial⟩
  have hopening : Scans depth' ") \x7b" (depth' + 1) := .of_all (by decide) (by decide) rfl
  rw [branchLines, List.map_cons, List.map_singleton, Line.fill_text, Line.fill_append,
    Line.fill_ofText]
  exact .cons
    (((hword.append (Plain.scans (by decide) _)).append (htest.scans hp _)).append hopening)
    (.singleton (scans_indentLine _ (h.scans hp _)))

/-- A block with plain names is balanced. -/
theorem Cpp.Block.IsPlain.scansLines {b : Block} (h : b.IsPlain) :
    ScansLines depth (b.lines.map (Line.fill p)) depth := by
  cases b with
  | line s => exact .singleton (Stmt.IsPlain.scans hp depth h)
  | countLoop bound body =>
    have hopening : Scans depth "; ++i) \x7b" (depth + 1) := .of_all (by decide) (by decide) rfl
    rw [Block.lines, List.cons_append, List.map_cons, List.map_append, Line.fill_text,
      Line.fill_append, Line.fill_ofText]
    exact .cons (((Plain.scans (by decide) _).append (h.1.scans hp depth)).append hopening)
      ((scansLines_statements hp _ h.2).append (.singleton (scans_closing depth)))
  | itemLoop body =>
    have hopening : Scans depth "for (const auto &element : json) \x7b" (depth + 1) :=
      .of_all (by decide) (by decide) rfl
    rw [Block.lines, List.cons_append, List.map_cons, List.map_append, Line.fill_ofText]
    exact .cons hopening
      ((scansLines_statements hp _ h).append (.singleton (scans_closing depth)))
  | fieldLoop first rest =>
    have hopening : Scans depth "for (auto it = json.begin(); it != json.end(); ++it) \x7b"
        (depth + 1) := .of_all (by decide) (by decide) rfl
    have hfirst := scansLines_branchLines hp (depth + 1)
      (Plain.scans (show Plain "if" by decide) _) h.1
    -- every further branch closes the one before it
    have hrest : ScansLines (depth + 2)
        ((rest.flatMap (branchLines "\x7d else if")).map (Line.fill p)) (depth + 2) := by
      rw [List.map_flatMap]
      refine .flatMap fun branch hbranch => ?_
      exact scansLines_branchLines hp _ (.of_all (by decide) (by decide) rfl) (h.2 branch hbranch)
    have hleave : (Stmt.leave (.bool false)).IsPlain := trivial
    have hlast : ScansLines (depth + 2)
        ([Line.ofText "\x7d else \x7b", indentLine (Stmt.leave (.bool false)).line,
          Line.ofText "\x7d"].map (Line.fill p)) (depth + 1) := by
      rw [List.map_cons, List.map_cons, List.map_singleton, Line.fill_ofText, Line.fill_ofText]
      exact .cons (.of_all (by decide) (by decide) rfl)
        (.cons (scans_indentLine _ (hleave.scans hp _)) (.singleton (scans_closing _)))
    rw [Block.lines, List.cons_append, List.map_cons, List.map_append, Line.fill_ofText]
    refine .cons hopening (.append (scansLines_map_indentLine _ ?_)
      (.singleton (scans_closing depth)))
    rw [List.map_append, List.map_append]
    exact (hfirst.append hrest).append hlast

/-- Whether the names in a parameter are plain. -/
def Cpp.Param.IsPlain (q : Param) : Prop :=
  q.type.IsPlain ∧ Plain q.mark ∧ Plain q.name

/-- Whether the names in a signature are plain. -/
structure Cpp.Signature.IsPlain (s : Signature) : Prop where
  result : Plain s.result
  name : Plain s.name
  params : ∀ q ∈ s.params, q.IsPlain

omit hp in
theorem plain_foldl_params {params : List Param} (h : ∀ q ∈ params, Plain (q.line.fill p))
    {front : Line} (hfront : Plain (front.fill p)) :
    Plain ((params.foldl (fun l q => l.text ", " ++ q.line) front).fill p) := by
  induction params generalizing front with
  | nil => exact hfront
  | cons q rest ih =>
    obtain ⟨hq, hrest⟩ := List.forall_mem_cons.mp h
    refine ih hrest ?_
    rw [Line.fill_append, Line.fill_text]
    exact plain_append.mpr ⟨plain_append.mpr ⟨hfront, by decide⟩, hq⟩

theorem Cpp.Signature.IsPlain.plain_paramsLine {s : Signature} (h : s.IsPlain) :
    Plain ((Signature.paramsLine s.params).fill p) := by
  have hparam : ∀ q ∈ s.params, Plain (q.line.fill p) := by
    intro q hq
    obtain ⟨htype, hmark, hname⟩ := h.params q hq
    rw [Param.line, Line.fill_text, Line.fill_append, Line.fill_ofText]
    have hconst : Plain (if q.isConst then "const " else "") := by split <;> decide
    exact plain_append.mpr ⟨plain_append.mpr ⟨hconst, htype.plain_line hp⟩,
      plain_append.mpr ⟨plain_append.mpr ⟨by decide, hmark⟩, hname⟩⟩
  cases hparams : s.params with
  | nil => exact show Plain "" by decide
  | cons q rest =>
    rw [hparams] at hparam
    obtain ⟨hfirst, hrest⟩ := List.forall_mem_cons.mp hparam
    exact plain_foldl_params hrest hfirst

omit hp in
theorem Cpp.Signature.IsPlain.plain_resultText {s : Signature} (h : s.IsPlain) :
    Plain s.resultText := by
  unfold Signature.resultText
  split
  · decide
  · exact plain_append.mpr ⟨h.result, by decide⟩

omit hp in
theorem Cpp.Signature.plain_constText (s : Signature) : Plain s.constText := by
  unfold Signature.constText
  split <;> decide

theorem Cpp.Signature.IsPlain.scans_head {s : Signature} (h : s.IsPlain) :
    Scans depth (s.head.fill p) (depth + 1) := by
  have hopening : Scans depth " \x7b" (depth + 1) := .of_all (by decide) (by decide) rfl
  have hfront : Plain (s.resultText ++ p.scope ++ (s.name ++ "(") ++
      (Signature.paramsLine s.params).fill p) :=
    plain_append.mpr ⟨plain_append.mpr ⟨plain_append.mpr ⟨h.plain_resultText, hp⟩,
      plain_append.mpr ⟨h.name, by decide⟩⟩, h.plain_paramsLine hp⟩
  rw [Signature.head, Line.fill_text, Line.fill_append, Line.fill_append, Line.fill_append,
    Line.fill_ofText, Line.fill_ofText, Line.fill_ofSlot]
  exact (hfront.scans depth).append
    (((plain_append.mpr ⟨by decide, s.plain_constText⟩).scans depth).append hopening)

theorem Cpp.Signature.IsPlain.plain_prototype {s : Signature} (h : s.IsPlain)
    (hstorage : Plain p.storage) : Plain (s.prototype.fill p) := by
  rw [Signature.prototype, Line.fill_text, Line.fill_append, Line.fill_append, Line.fill_ofText,
    Line.fill_ofSlot]
  refine plain_append.mpr ⟨plain_append.mpr ⟨plain_append.mpr ⟨hstorage, ?_⟩,
    h.plain_paramsLine hp⟩, plain_append.mpr ⟨?_, by decide⟩⟩
  · exact plain_append.mpr ⟨plain_append.mpr ⟨h.plain_resultText, h.name⟩, by decide⟩
  · exact plain_append.mpr ⟨by decide, s.plain_constText⟩

/-- Whether the names in a function are plain. -/
structure Cpp.Function.IsPlain (f : Function) : Prop where
  signature : f.signature.IsPlain
  body : ∀ b ∈ f.body, b.IsPlain

/-- A function with plain names is balanced. -/
theorem Cpp.Function.IsPlain.scansLines {f : Function} (h : f.IsPlain) :
    ScansLines depth (f.lines.map (Line.fill p)) depth := by
  have hbody : ScansLines (depth + 1) ((f.body.flatMap Block.lines).map (Line.fill p))
      (depth + 1) := by
    rw [List.map_flatMap]
    exact .flatMap fun b hb => (h.body b hb).scansLines hp _
  have hend : ScansLines (depth + 1) ["\x7d", ""] depth :=
    .cons (scans_closing depth) (.singleton (Plain.scans (by decide) depth))
  rw [Function.lines, List.cons_append, List.map_cons, List.map_append]
  refine .cons (h.signature.scans_head hp depth) ((scansLines_map_indentLine _ hbody).append ?_)
  rw [List.map_cons, List.map_singleton, Line.fill_ofText]
  exact hend

end

end ConfigForge
