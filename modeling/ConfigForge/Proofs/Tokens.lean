import ConfigForge.Proofs.Scanning

/-!
# Tokens of code

A line of code is cut into tokens, each as long as possible. A token is a word, a number, a string
literal or a sign; blanks stand between tokens and belong to none. A number goes on with letters, with
a point, and with a sign behind the letter of an exponent, and a literal goes on up to the quote that
closes it.

A text that is put together from smaller ones is cut into their tokens, if the first character of each
part does not go on with the last token in front of it.

Results:

* `tokens_append`: a text without literals can be cut where a separator stands.
* `CutInto.append`: a text is cut into the tokens of its parts.
* `CutInto.word`, `CutInto.stringLiteral`: words and string literals are single tokens.
* `readNumeral?_toString`: digits with a suffix are read as the number.
-/

namespace ConfigForge.Cpp

/-! ## First characters -/

theorem any_head?_append {p : Char → Bool} {s : String} (h : s.toList.head?.any p = true)
    (more : String) : (s ++ more).toList.head?.any p = true := by
  rw [String.toList_append]
  cases hchars : s.toList with
  | nil =>
    rw [hchars] at h
    cases h
  | cons c chars =>
    rw [hchars] at h
    exact h

theorem any_head?_mono {p q : Char → Bool} {text : String} (h : text.toList.head?.any p = true)
    (hpq : ∀ c, p c = true → q c = true) : text.toList.head?.any q = true := by
  cases hchars : text.toList with
  | nil =>
    rw [hchars] at h
    cases h
  | cons c chars =>
    rw [hchars] at h
    exact hpq c h

theorem ne_of_any_head? {p : Char → Bool} {cs ds : List Char} (h : cs.head?.any p = true)
    (hds : ds.head?.any p = false) : cs ≠ ds := by
  rintro rfl
  exact Bool.false_ne_true (hds.symm.trans h)

theorem head?_ne_of_any {p : Char → Bool} {cs : List Char} (h : cs.head?.any p = true) {c : Char}
    (hc : p c = false) : cs.head? ≠ some c := by
  intro hhead
  rw [hhead, Option.any_some, hc] at h
  cases h

/-! ## Tokens -/

/-- The signs of two characters. Longer ones are not needed. -/
def pairSigns : List (List Char) :=
  ["&&", "||", "==", "!=", "<=", ">=", "<<", ">>", "->", "::", "--", "++", "+=", "-=", "*=", "/=",
    "%=", "&=", "|=", "^=", "//", "/*"].map String.toList

/-- Whether a sign belongs to a number in front of it, as in `1e-5`. -/
def isExponentSign (digits : List Char) (c : Char) : Bool :=
  (c == '+' || c == '-') && (digits.getLast? == some 'e' || digits.getLast? == some 'E')

/-- Whether a character belongs to the token directly in front of it. -/
def goesOn (token : List Char) (c : Char) : Bool :=
  match token with
  | [] => false
  | d :: more =>
    if d = '"' then Lexing.literal.after more != .code
    else if isWordChar d then isWordChar c || (d.isDigit && (c == '.' || isExponentSign more c))
    else more.isEmpty && pairSigns.contains [d, c]

/-- The tokens of a text, if `token` has been begun in front of it. -/
def tokensFrom (token : List Char) : List Char → List (List Char)
  | [] => [token].filter (· ≠ [])
  | c :: rest =>
    if goesOn token c then tokensFrom (token ++ [c]) rest
    else [token].filter (· ≠ []) ++ tokensFrom (if c = ' ' then [] else [c]) rest

/-- The tokens of a text. -/
def tokens (text : String) : List (List Char) :=
  tokensFrom [] text.toList

/-- Whether a character is never part of a token in front of it, unless that is a literal. -/
def isSeparator (c : Char) : Bool :=
  !isWordChar c && c != '.' && pairSigns.all fun sign => sign.getLast? ≠ some c

/-- A sign of two characters is over, and one of one character goes on to such a sign only. -/
theorem not_mem_pairSigns {d c : Char} (h : (pairSigns.all fun sign => sign.getLast? ≠ some c) = true) :
    pairSigns.contains [d, c] = false := by
  rw [← Bool.not_eq_true, List.contains_iff_mem]
  intro hmem
  simpa using List.all_eq_true.mp h _ hmem

theorem isExponentSign_of_isSeparator {c : Char} (h : isSeparator c = true) (digits : List Char) :
    isExponentSign digits c = false := by
  have hplus : c ≠ '+' := by
    rintro rfl
    revert h
    decide
  have hminus : c ≠ '-' := by
    rintro rfl
    revert h
    decide
  simp [isExponentSign, hplus, hminus]

theorem goesOn_of_isSeparator {c : Char} (h : isSeparator c = true) {token : List Char}
    (hquote : token.head? ≠ some '"') : goesOn token c = false := by
  have hsign := isExponentSign_of_isSeparator h
  simp only [isSeparator, Bool.and_eq_true, Bool.not_eq_true', bne_iff_ne] at h
  obtain ⟨⟨hword, hpoint⟩, hpairs⟩ := h
  cases token with
  | nil => rfl
  | cons d more =>
    have hd : d ≠ '"' := fun hd => hquote (congrArg some hd)
    rw [goesOn, if_neg hd, not_mem_pairSigns hpairs, hword, hsign]
    simp [hpoint]

/-- No sign of two characters has a property, so two characters with it are none. -/
theorem contains_pairSigns_of_all {q : List Char → Bool} (hall : (pairSigns.all (!q ·)) = true)
    {d c : Char} (h : q [d, c] = true) : pairSigns.contains [d, c] = false := by
  rw [← Bool.not_eq_true, List.contains_iff_mem]
  intro hmem
  have hnot := List.all_eq_true.mp hall _ hmem
  rw [h] at hnot
  cases hnot

/-- A sign goes on with no character of a word. -/
theorem goesOn_sign_word {d c : Char} (hquote : d ≠ '"') (hd : isWordChar d = false)
    (hc : isWordChar c = true) : goesOn [d] c = false := by
  have hpair : pairSigns.contains [d, c] = false :=
    contains_pairSigns_of_all (q := (·.getLast?.any isWordChar)) (by decide) hc
  rw [goesOn, if_neg hquote, hd, hpair, Bool.and_false]
  rfl

theorem tokensFrom_append {c : Char} (h : isSeparator c = true) {token text : List Char}
    (htoken : token.head? ≠ some '"') (htext : '"' ∉ text) (rest : List Char) :
    tokensFrom token (text ++ c :: rest) =
      tokensFrom token text ++ tokensFrom [] (c :: rest) := by
  -- The token begun so far changes with every character of the text, so it is general here.
  induction text generalizing token with
  | nil =>
    simp only [List.nil_append, tokensFrom, goesOn_of_isSeparator h htoken]
    rfl
  | cons d text ih =>
    obtain ⟨hd, htext⟩ := not_or.mp (List.mem_cons.not.mp htext)
    have hnext : (token ++ [d]).head? ≠ some '"' := by
      cases token with
      | nil => exact fun hquote => hd (Option.some.inj hquote).symm
      | cons t token => exact htoken
    have hfirst : (if d = ' ' then [] else [d]).head? ≠ some '"' := by
      split_ifs
      · exact Option.some_ne_none _ ∘ Eq.symm
      · exact fun hquote => hd (Option.some.inj hquote).symm
    simp only [List.cons_append, tokensFrom, ih hnext htext, ih hfirst htext]
    split
    · rfl
    · rw [List.append_assoc]

/-- **Cutting.** A text without literals can be cut in front of a separator. -/
theorem tokens_append {front back : String} (hquote : '"' ∉ front.toList)
    (h : back.toList.head?.any isSeparator = true) :
    tokens (front ++ back) = tokens front ++ tokens back := by
  rw [tokens, tokens, tokens, String.toList_append]
  cases hback : back.toList with
  | nil =>
    rw [hback] at h
    cases h
  | cons c rest =>
    rw [hback] at h
    exact tokensFrom_append h (by simp) hquote rest

theorem separator_append (front back : String) (h : front.toList.head?.any isSeparator = true) :
    (front ++ back).toList.head?.any isSeparator = true :=
  any_head?_append h back

theorem tokens_blank (text : String) : tokens (" " ++ text) = tokens text := by
  rw [tokens, String.toList_append]
  rfl

/-- A text between blanks and separators. -/
theorem tokens_around {front text : String} (hfront : '"' ∉ front.toList)
    (htext : '"' ∉ text.toList) {back : String}
    (hback : back.toList.head?.any isSeparator = true) :
    tokens (front ++ " " ++ text ++ back) = tokens front ++ (tokens text ++ tokens back) := by
  rw [String.append_assoc, String.append_assoc,
    tokens_append hfront (separator_append _ _ (by decide)), tokens_blank,
    tokens_append htext hback]

/-! ## Texts of several tokens -/

/-- Whether a token that has been begun goes on with all of the given characters. -/
def grows : List Char → List Char → Bool
  | _, [] => true
  | token, c :: rest => goesOn token c && grows (token ++ [c]) rest

/-- Whether characters are a single token. -/
def isToken : List Char → Bool
  | [] => false
  | c :: rest => c != ' ' && grows [c] rest

theorem tokensFrom_grows {token more : List Char} (h : grows token more = true)
    (rest : List Char) : tokensFrom token (more ++ rest) = tokensFrom (token ++ more) rest := by
  induction more generalizing token with
  | nil => rw [List.nil_append, List.append_nil]
  | cons c more ih =>
    obtain ⟨hc, hmore⟩ := (Bool.and_eq_true _ _).mp h
    rw [List.cons_append, tokensFrom, if_pos hc, ih hmore, List.append_assoc,
      List.singleton_append]

/-- Whether a text begins with a character that does not go on with a token. -/
def Stops (token : List Char) (text : String) : Prop :=
  text.toList.head?.any (fun c => !goesOn token c) = true

/-- The last one of several tokens. -/
def lastToken (ts : List (List Char)) : List Char :=
  ts.getLast?.getD []

theorem lastToken_append (ts : List (List Char)) {us : List (List Char)} (h : us ≠ []) :
    lastToken (ts ++ us) = lastToken us := by
  rw [lastToken, List.getLast?_append_of_ne_nil _ h, lastToken]

theorem tokensFrom_stop {token rest : List Char} (hne : token ≠ [])
    (h : rest.head?.all (fun c => !goesOn token c) = true) :
    tokensFrom token rest = token :: tokensFrom [] rest := by
  have hfilter : [token].filter (· ≠ []) = [token] := by simp [hne]
  cases rest with
  | nil => rw [tokensFrom, hfilter]; rfl
  | cons c rest =>
    have hc : goesOn token c = false := by simpa using h
    rw [tokensFrom, hc, hfilter]
    rfl

/-- The last character is no blank, whether others follow the first one or not. -/
theorem last_of_cons {c : Char} {chars : List Char} (h : (c :: chars).getLast? ≠ some ' ') :
    chars.getLast? ≠ some ' ' ∧ (chars = [] → (if c = ' ' then [] else [c]) ≠ []) := by
  constructor
  · intro hblank
    rw [List.getLast?_cons, hblank] at h
    exact h rfl
  · rintro rfl
    have hc : c ≠ ' ' := fun hc => h (congrArg some hc)
    rw [if_neg hc]
    exact List.cons_ne_nil _ _

/-- A text that does not end in a blank ends in a token, which is still open. -/
theorem tokensFrom_ne_nil {token chars : List Char} (hend : chars.getLast? ≠ some ' ')
    (hopen : chars = [] → token ≠ []) : tokensFrom token chars ≠ [] := by
  induction chars generalizing token with
  | nil => simpa [tokensFrom] using hopen rfl
  | cons c chars ih =>
    obtain ⟨hlast, hnext⟩ := last_of_cons hend
    rw [tokensFrom]
    split
    · exact ih hlast fun _ => by simp
    · exact fun hnil => ih hlast hnext (List.append_eq_nil_iff.mp hnil).2

theorem tokensFrom_append_of_stops {token chars : List Char} (hend : chars.getLast? ≠ some ' ')
    (hopen : chars = [] → token ≠ []) {rest : List Char}
    (hrest : rest.head?.all (fun c => !goesOn (lastToken (tokensFrom token chars)) c) = true) :
    tokensFrom token (chars ++ rest) = tokensFrom token chars ++ tokensFrom [] rest := by
  induction chars generalizing token with
  | nil =>
    have hne := hopen rfl
    have htoken : tokensFrom token [] = [token] := by simp [tokensFrom, hne]
    rw [htoken] at hrest
    rw [List.nil_append, htoken]
    exact tokensFrom_stop hne hrest
  | cons c chars ih =>
    obtain ⟨hlast, hnext⟩ := last_of_cons hend
    rw [tokensFrom] at hrest
    rw [List.cons_append, tokensFrom, tokensFrom]
    split at hrest
    · next hgoes =>
      rw [if_pos hgoes, if_pos hgoes]
      exact ih hlast (fun _ => by simp) hrest
    · next hgoes =>
      rw [lastToken_append _ (tokensFrom_ne_nil hlast hnext)] at hrest
      rw [if_neg hgoes, if_neg hgoes, ih hlast hnext hrest, List.append_assoc]

/-- Whether a text is cut into tokens, whatever follows that does not go on with the last one. -/
structure CutInto (text : String) (ts : List (List Char)) : Prop where
  ne_nil : ts ≠ []
  cut : ∀ rest : List Char, rest.head?.all (fun c => !goesOn (lastToken ts) c) = true →
    tokensFrom [] (text.toList ++ rest) = ts ++ tokensFrom [] rest

namespace CutInto

variable {text more : String} {ts us : List (List Char)}

theorem tokens_eq (h : CutInto text ts) : tokens text = ts := by
  have hcut := h.cut [] rfl
  rwa [List.append_nil, show tokensFrom [] [] = [] from rfl, List.append_nil] at hcut

/-- A text that does not end in a blank is cut into its tokens. -/
theorem self (text : String) (hne : text.toList ≠ []) (hend : text.toList.getLast? ≠ some ' ') :
    CutInto text (tokens text) :=
  ⟨tokensFrom_ne_nil hend fun hnil => absurd hnil hne, fun _ hrest =>
    tokensFrom_append_of_stops hend (fun hnil => absurd hnil hne) hrest⟩

theorem token (h : isToken text.toList = true) : CutInto text [text.toList] := by
  refine ⟨List.cons_ne_nil _ _, fun rest hrest => ?_⟩
  cases hchars : text.toList with
  | nil =>
    rw [hchars] at h
    cases h
  | cons c chars =>
    rw [hchars, isToken, Bool.and_eq_true, bne_iff_ne] at h
    rw [hchars] at hrest
    have hfirst : tokensFrom [] (c :: (chars ++ rest)) = tokensFrom [c] (chars ++ rest) := by
      rw [tokensFrom, goesOn, if_neg h.1]
      rfl
    rw [List.cons_append, hfirst, tokensFrom_grows h.2]
    exact tokensFrom_stop (List.cons_ne_nil _ _) hrest

/-- **Parts.** A text is cut into the tokens of its parts. -/
theorem append (h : CutInto text ts) (h' : CutInto more us) (hstop : Stops (lastToken ts) more) :
    CutInto (text ++ more) (ts ++ us) := by
  refine ⟨fun hnil => h.ne_nil (List.append_eq_nil_iff.mp hnil).1, fun rest hrest => ?_⟩
  rw [lastToken_append ts h'.ne_nil] at hrest
  have hhead : (more.toList ++ rest).head?.all (fun c => !goesOn (lastToken ts) c) = true := by
    rw [Stops] at hstop
    cases hmore : more.toList with
    | nil =>
      rw [hmore] at hstop
      cases hstop
    | cons c chars =>
      rw [hmore] at hstop
      simpa using hstop
  rw [String.toList_append, List.append_assoc, h.cut _ hhead, h'.cut rest hrest, List.append_assoc]

theorem blank (h : CutInto text ts) : CutInto (" " ++ text) ts := by
  refine ⟨h.ne_nil, fun rest hrest => ?_⟩
  rw [String.toList_append, List.append_assoc, ← h.cut rest hrest]
  rfl

end CutInto

/-! ## Words and literals -/

/-- Whether a text is a word. A word that begins with a digit is a number. -/
def IsWord (text : String) : Prop :=
  text.toList ≠ [] ∧ ∀ c ∈ text.toList, isWordChar c = true

instance (text : String) : Decidable (IsWord text) :=
  decidable_of_iff (text.toList ≠ [] ∧ text.toList.all isWordChar = true)
    (and_congr Iff.rfl List.all_eq_true)

theorem ne_quote_of_isWordChar {c : Char} (h : isWordChar c = true) : c ≠ '"' := by
  rintro rfl
  revert h
  decide

theorem ne_blank_of_isWordChar {c : Char} (h : isWordChar c = true) : c ≠ ' ' := by
  rintro rfl
  revert h
  decide

/-- Characters that always belong to a token with a given front. -/
theorem grows_of_goesOn {d : Char} {cs : List Char}
    (h : ∀ c ∈ cs, ∀ more, goesOn (d :: more) c = true) (more : List Char) :
    grows (d :: more) cs = true := by
  induction cs generalizing more with
  | nil => rfl
  | cons c cs ih =>
    obtain ⟨hc, hrest⟩ := List.forall_mem_cons.mp h
    rw [grows, hc more, Bool.true_and]
    exact ih hrest (more ++ [c])

theorem grows_word {d : Char} (hd : isWordChar d = true) (more : List Char) {word : List Char}
    (hword : ∀ c ∈ word, isWordChar c = true) : grows (d :: more) word = true := by
  refine grows_of_goesOn (fun c hc more => ?_) more
  rw [goesOn, if_neg (ne_quote_of_isWordChar hd), if_pos hd, hword c hc, Bool.true_or]

theorem IsWord.isToken {text : String} (h : IsWord text) : isToken text.toList = true := by
  obtain ⟨hne, hword⟩ := h
  cases hchars : text.toList with
  | nil => exact absurd hchars hne
  | cons d more =>
    rw [hchars] at hword
    obtain ⟨hd, hmore⟩ := List.forall_mem_cons.mp hword
    rw [Cpp.isToken, bne_iff_ne.mpr (ne_blank_of_isWordChar hd), grows_word hd [] hmore]
    rfl

/-- A word is one token. -/
theorem CutInto.word {text : String} (h : IsWord text) : CutInto text [text.toList] :=
  .token h.isToken

/-- A word goes on with no sign, unless it is a number. -/
theorem IsWord.goesOn_eq_false {text : String} (h : IsWord text) {c : Char}
    (hc : isWordChar c = false) (hnumber : text.toList.head?.all Char.isDigit = true →
      c ≠ '.' ∧ c ≠ '+' ∧ c ≠ '-') : goesOn text.toList c = false := by
  cases hchars : text.toList with
  | nil => rfl
  | cons d more =>
    have hd : isWordChar d = true := h.2 d (by rw [hchars]; exact List.mem_cons_self)
    rw [hchars] at hnumber
    rw [goesOn, if_neg (ne_quote_of_isWordChar hd), if_pos hd, hc, Bool.false_or]
    cases hdigit : d.isDigit with
    | false => rfl
    | true =>
      obtain ⟨hpoint, hplus, hminus⟩ := hnumber hdigit
      simp [isExponentSign, hpoint, hplus, hminus]

/-- A literal that has been begun goes on with the next character. -/
theorem grows_quote {more front : List Char} (h : Lexing.literal.after more = .literal)
    (hfront : Lexing.literal.after front ≠ .code) (c : Char) (rest : List Char) :
    grows ('"' :: (more ++ front)) (c :: rest) = grows ('"' :: (more ++ (front ++ [c]))) rest := by
  have hgoes : goesOn ('"' :: (more ++ front)) c = true := by
    rw [goesOn, if_pos rfl, Lexing.after_append, h]
    exact bne_iff_ne.mpr hfront
  rw [grows, hgoes, Bool.true_and, List.cons_append, List.append_assoc]

/-- A character as it is written inside a literal belongs to the literal. -/
theorem grows_stringChar {more : List Char} (h : Lexing.literal.after more = .literal) (c : Char)
    (rest : List Char) :
    grows ('"' :: more) (stringChar c ++ rest) = grows ('"' :: (more ++ stringChar c)) rest := by
  have hfirst : ∀ (d : Char) (rest : List Char),
      grows ('"' :: more) (d :: rest) = grows ('"' :: (more ++ [d])) rest := by
    intro d rest
    have hempty : Lexing.literal.after [] ≠ .code := by decide
    have hd := grows_quote h hempty d rest
    rwa [List.append_nil, List.nil_append] at hd
  have hescape : ∀ (d : Char) (rest : List Char),
      grows ('"' :: more) ('\\' :: d :: rest) = grows ('"' :: (more ++ ['\\', d])) rest :=
    fun d rest => (hfirst _ _).trans (grows_quote h (by decide) d rest)
  unfold stringChar
  split_ifs
  · exact hescape _ rest
  · exact hescape _ rest
  · exact hescape _ rest
  · exact hescape _ rest
  · exact hescape _ rest
  · have hdigit := (InLiteral.octalChar (c.toNat / 8)).literal
    have hdigits : Lexing.literal.after ['\\', octalChar (c.toNat / 64), octalChar (c.toNat / 8)] ≠
        .code := by
      intro hcode
      exact Lexing.noConfusion (hdigit.symm.trans hcode)
    exact (hescape _ _).trans ((grows_quote h Lexing.noConfusion _ _).trans
      (grows_quote h hdigits _ rest))
  · exact hfirst c rest

theorem grows_stringChars (cs : List Char) {more : List Char}
    (h : Lexing.literal.after more = .literal) (rest : List Char) :
    grows ('"' :: more) (stringChars cs ++ rest) =
      grows ('"' :: (more ++ stringChars cs)) rest := by
  induction cs generalizing more with
  | nil => rw [stringChars, List.flatMap_nil, List.nil_append, List.append_nil]
  | cons c cs ih =>
    have hnext : Lexing.literal.after (more ++ stringChar c) = .literal := by
      rw [Lexing.after_append, h, (inLiteral_stringChar c).literal]
    have hchars : stringChars (c :: cs) = stringChar c ++ stringChars cs := List.flatMap_cons
    rw [hchars, List.append_assoc, grows_stringChar h, ih hnext, List.append_assoc]

theorem toList_stringLiteral (s : String) :
    (stringLiteral s).toList = '"' :: (stringChars s.toList ++ ['"']) := by
  simp [stringLiteral]

/-- **String literals.** The literal of a text is one token. -/
theorem CutInto.stringLiteral (s : String) :
    CutInto (stringLiteral s) [(stringLiteral s).toList] := by
  refine .token ?_
  have hempty : Lexing.literal.after [] = .literal := rfl
  have hgrows := grows_stringChars s.toList hempty ['"']
  have hclose : grows ('"' :: ([] ++ stringChars s.toList)) ['"'] = true := by
    rw [grows, goesOn, if_pos rfl, List.nil_append, (inLiteral_stringChars s.toList).literal]
    rfl
  rw [toList_stringLiteral, isToken, hgrows, hclose]
  rfl

/-- Nothing goes on with a literal that has been closed. -/
theorem goesOn_stringLiteral (s : String) (c : Char) :
    goesOn (stringLiteral s).toList c = false := by
  rw [toList_stringLiteral, goesOn, if_pos rfl, Lexing.after_append,
    (inLiteral_stringChars s.toList).literal]
  rfl

/-! ## Numbers -/

/-- The suffixes of numbers. -/
inductive Suffix where
  | plain
  | u
  | l
  | ul
  | ll
  | ull
deriving DecidableEq, Repr

namespace Suffix

/-- The suffixes, shortest first. -/
def all : List Suffix :=
  [.plain, .u, .l, .ul, .ll, .ull]

/-- How a suffix is written, in capital letters. -/
def spelling : Suffix → String
  | .plain => ""
  | .u => "U"
  | .l => "L"
  | .ul => "UL"
  | .ll => "LL"
  | .ull => "ULL"

/-- The suffix that is written so. -/
def ofChars? (cs : List Char) : Option Suffix :=
  all.find? (·.spelling.toList = cs)

theorem ofChars?_spelling (s : Suffix) : ofChars? s.spelling.toList = some s := by
  cases s <;> decide

theorem isWordChar_spelling (s : Suffix) : s.spelling.toList.all isWordChar = true := by
  cases s <;> decide

theorem takeWhile_spelling (s : Suffix) : s.spelling.toList.takeWhile Char.isDigit = [] := by
  cases s <;> decide

theorem dropWhile_spelling (s : Suffix) :
    s.spelling.toList.dropWhile Char.isDigit = s.spelling.toList := by
  cases s <;> decide

end Suffix

/-- A number with its suffix. -/
structure Numeral where
  octal : Bool
  value : Nat
  suffix : Suffix
deriving DecidableEq, Repr

/-- The number that a token is. A zero in front makes it octal; other bases are not read. -/
def readNumeral? (token : List Char) : Option Numeral :=
  let digits := token.takeWhile Char.isDigit
  (Suffix.ofChars? (token.dropWhile Char.isDigit)).bind fun suffix =>
    if digits = [] then none
    else if digits.head? = some '0' then
      if digits.all (· < '8') then some ⟨true, Nat.ofDigitChars 8 digits 0, suffix⟩ else none
    else some ⟨false, Nat.ofDigitChars 10 digits 0, suffix⟩

/-- A number as it is read from its decimal digits. Zero counts as octal. -/
def Numeral.decimal (n : Nat) (s : Suffix) : Numeral :=
  ⟨n == 0, n, s⟩

theorem isDigit_of_mem_toString {n : Nat} {c : Char} (h : c ∈ (toString n).toList) :
    c.isDigit = true := by
  rw [Nat.toString_eq_ofList_toDigits, String.toList_ofList] at h
  exact Nat.isDigit_of_mem_toDigits (by decide) (by decide) h

theorem toList_toString_ne_nil (n : Nat) : (toString n).toList ≠ [] := by
  rw [Nat.toString_eq_ofList_toDigits, String.toList_ofList]
  exact Nat.toDigits_ne_nil

/-- Only zero is written with a zero in front. -/
theorem head?_toDigits {n : Nat} (h : n ≠ 0) : (Nat.toDigits 10 n).head? ≠ some '0' := by
  induction n using Nat.strongRecOn with
  | _ n ih =>
    by_cases hlt : n < 10
    · rw [Nat.toDigits_of_lt_base hlt]
      simpa using h
    · rw [Nat.toDigits_of_base_le (by decide) (by omega),
        List.head?_append_of_ne_nil _ Nat.toDigits_ne_nil]
      exact ih (n / 10) (by omega) (by omega)

/-- **Numbers.** The digits of a number with a suffix are read as that number. -/
theorem readNumeral?_toString (n : Nat) (s : Suffix) :
    readNumeral? ((toString n).toList ++ s.spelling.toList) =
      some (.decimal n s) := by
  have hdigits : ∀ c ∈ Nat.toDigits 10 n, c.isDigit = true := fun c hc =>
    Nat.isDigit_of_mem_toDigits (by decide) (by decide) hc
  rw [Nat.toString_eq_ofList_toDigits, String.toList_ofList, readNumeral?,
    List.dropWhile_append_of_pos hdigits, List.takeWhile_append_of_pos hdigits,
    s.dropWhile_spelling, s.takeWhile_spelling, s.ofChars?_spelling, List.append_nil,
    Option.bind_some]
  by_cases hzero : n = 0
  · subst hzero
    rfl
  · have hflag : (n == 0) = false := by simpa using hzero
    rw [if_neg Nat.toDigits_ne_nil, if_neg (head?_toDigits hzero), Nat.ofDigitChars_ten_toDigits,
      Numeral.decimal, hflag]

/-- A zero in front changes the base. -/
example : readNumeral? "010LL".toList = some ⟨true, 8, .ll⟩ := by decide

end ConfigForge.Cpp
