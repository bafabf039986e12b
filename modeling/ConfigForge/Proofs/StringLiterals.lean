import ConfigForge.Emit.Alias
import Mathlib.Data.List.TakeWhile

/-!
# String literals as C++ reads them

An ordinary string literal stands between quotes. A backslash begins an escape: one of the simple
ones, or up to three octal digits, as many as there are. Every other character stands for its bytes
in UTF-8, and an escape stands for one byte. A literal alone makes a string that ends at the first
NUL; a string with NULs is made from a literal and a length.

A text is written with escapes of different lengths side by side. It is read back whatever follows
the escapes, because those in octal always have three digits.

Results:

* `readItems_stringChar`: a character as it is written is read as the bytes of the character.
* `lexString_stringLiteral`: the literal of a text is read as the bytes of the text, and reading
  stops at its end.
* `stringValue?_textValue`: the initial value of a string is read as the bytes of the text.
* `string_literals_denote`: both in one statement, on the code of a string.
-/

namespace ConfigForge.Cpp

open Code (Line Placement)
open Emit

/-! ## Reading a literal -/

/-- The bytes of a text in UTF-8. -/
def utf8 (s : String) : List UInt8 :=
  s.toUTF8.data.toList

/-- The byte of a simple escape. -/
def simpleEscape? : Char → Option UInt8
  | '\'' => some 0x27
  | '"' => some 0x22
  | '?' => some 0x3F
  | '\\' => some 0x5C
  | 'a' => some 0x07
  | 'b' => some 0x08
  | 'f' => some 0x0C
  | 'n' => some 0x0A
  | 'r' => some 0x0D
  | 't' => some 0x09
  | 'v' => some 0x0B
  | _ => none

/-- The value of an octal digit. -/
def octalDigit? (c : Char) : Option Nat :=
  if '0' ≤ c ∧ c ≤ '7' then some (c.toNat - '0'.toNat) else none

/-- Where a reader stands behind the opening quote. -/
inductive LiteralState where
  /-- Before a character, an escape or the closing quote. -/
  | item
  /-- Behind a backslash. -/
  | escape
  /-- Behind so many digits of an octal escape. -/
  | octal (digits value : Nat)
deriving DecidableEq, Repr

/-- Bytes in front of what is read behind them. -/
def withBytes (bytes : List UInt8) (read : Option (List UInt8 × List Char)) :
    Option (List UInt8 × List Char) :=
  read.map fun (more, rest) => (bytes ++ more, rest)

/-- Reads on before a character, an escape or the closing quote; `next` reads on behind `c`. A line
break cannot stand in a literal. -/
def readAt (next : LiteralState → Option (List UInt8 × List Char)) (c : Char) (rest : List Char) :
    Option (List UInt8 × List Char) :=
  if c = '"' then some ([], rest)
  else if c = '\\' then next .escape
  else if c = '\n' then none
  else withBytes (String.utf8EncodeChar c) (next .item)

/-- The bytes up to the closing quote and the characters behind it. An octal escape goes on as long
as there are digits, but not beyond the third. -/
def readItems : LiteralState → List Char → Option (List UInt8 × List Char)
  | _, [] => none
  | .item, c :: rest => readAt (fun state => readItems state rest) c rest
  | .escape, c :: rest =>
    match octalDigit? c with
    | some d => readItems (.octal 1 d) rest
    | none => (simpleEscape? c).bind fun byte => withBytes [byte] (readItems .item rest)
  | .octal digits value, c :: rest =>
    match if digits < 3 then octalDigit? c else none with
    | some d => readItems (.octal (digits + 1) (8 * value + d)) rest
    | none =>
      if value < 256 then
        withBytes [UInt8.ofNat value] (readAt (fun state => readItems state rest) c rest)
      else none

/-- The bytes of the literal at the front of a text and the characters behind it. -/
def lexString : List Char → Option (List UInt8 × List Char)
  | '"' :: rest => readItems .item rest
  | _ => none

/-- The text that bytes stand for. -/
def textOf? (bytes : List UInt8) : Option String :=
  String.fromUTF8? bytes.toByteArray

/-- The text that a literal stands for. Nothing may follow the literal. -/
def literalText? (literal : String) : Option String :=
  match lexString literal.toList with
  | some (bytes, []) => textOf? bytes
  | _ => none

/-! ## Bytes of texts -/

theorem utf8_eq (s : String) : utf8 s = s.toList.flatMap String.utf8EncodeChar := by
  rw [utf8, String.toUTF8_eq_toByteArray, ← String.utf8Encode_toList, List.utf8Encode,
    List.toList_data_toByteArray]

theorem length_utf8 (s : String) : (utf8 s).length = s.utf8ByteSize := by
  rw [← String.size_toByteArray]
  rfl

theorem textOf?_utf8 (s : String) : textOf? (utf8 s) = some s := by
  have hbytes : (utf8 s).toByteArray = s.toByteArray :=
    ByteArray.ext (Array.toList_inj.mp List.toList_data_toByteArray)
  rw [textOf?, hbytes, String.fromUTF8?, dif_pos s.isValidUTF8]
  rfl

theorem utf8EncodeChar_of_ascii {c : Char} (h : c.toNat < 128) :
    String.utf8EncodeChar c = [UInt8.ofNat c.toNat] :=
  if_pos (Nat.le_of_lt_succ h)

/-- The only character with a NUL among its bytes is NUL itself. -/
theorem zero_mem_utf8EncodeChar_iff {c : Char} :
    0 ∈ String.utf8EncodeChar c ↔ c = Char.ofNat 0 := by
  have hbyte : ∀ n, 0 < n → n < 256 → (0 : UInt8) ≠ UInt8.ofNat n := by
    intro n hpos hn heq
    have hmod := congrArg UInt8.toNat heq
    rw [UInt8.toNat_ofNat_of_lt' hn] at hmod
    exact absurd hmod.symm (Nat.ne_of_gt hpos)
  constructor
  · intro h
    by_cases hascii : c.toNat < 128
    · rw [utf8EncodeChar_of_ascii hascii, List.mem_singleton] at h
      by_contra hne
      refine hbyte c.toNat (Nat.pos_of_ne_zero fun hzero => hne ?_) (by omega) h
      rw [← hzero, Char.ofNat_toNat]
    · -- the bytes of all other characters are 128 or more
      exfalso
      simp only [String.utf8EncodeChar] at h
      rw [if_neg (show ¬ c.val.toNat ≤ 127 from fun hle => hascii (Nat.lt_succ_of_le hle))] at h
      split_ifs at h
      all_goals simp only [List.mem_cons, List.not_mem_nil, or_false] at h
      · rcases h with h | h <;> exact hbyte _ (by omega) (by omega) h
      · rcases h with h | h | h <;> exact hbyte _ (by omega) (by omega) h
      · rcases h with h | h | h | h <;> exact hbyte _ (by omega) (by omega) h
  · rintro rfl
    decide

theorem zero_mem_utf8_iff {s : String} : 0 ∈ utf8 s ↔ Char.ofNat 0 ∈ s.toList := by
  rw [utf8_eq, List.mem_flatMap]
  constructor
  · rintro ⟨c, hc, hzero⟩
    rwa [← zero_mem_utf8EncodeChar_iff.mp hzero]
  · intro h
    exact ⟨_, h, zero_mem_utf8EncodeChar_iff.mpr rfl⟩

/-! ## Reading what is written -/

theorem octalDigit?_octalChar (n : Nat) : octalDigit? (octalChar n) = some (n % 8) := by
  have hall : ∀ m : Fin 8, octalDigit? (Char.ofNat ('0'.toNat + m)) = some m.val := by decide
  exact hall ⟨n % 8, Nat.mod_lt n (by decide)⟩

/-- An escape with three octal digits is over, whatever follows. -/
theorem readItems_octal_three {value : Nat} (h : value < 256) (rest : List Char) :
    readItems (.octal 3 value) rest = withBytes [UInt8.ofNat value] (readItems .item rest) := by
  cases rest with
  | nil => rfl
  | cons c rest =>
    have hover : readItems (.octal 3 value) (c :: rest) =
        withBytes [UInt8.ofNat value] (readAt (fun state => readItems state rest) c rest) := by
      rw [readItems, if_neg (by decide : ¬ 3 < 3), if_pos h]
    rw [hover, readItems]

/-- Three octal digits behind a backslash. -/
theorem readItems_octalChars {n : Nat} (h : n < 256) (rest : List Char) :
    readItems .item ('\\' :: octalChar (n / 64) :: octalChar (n / 8) :: octalChar n :: rest) =
      withBytes [UInt8.ofNat n] (readItems .item rest) := by
  have hvalue : 8 * (8 * (n / 64 % 8) + n / 8 % 8) + n % 8 = n := by omega
  have hnext : ∀ digits < 3, ∀ value m (rest : List Char),
      readItems (.octal digits value) (octalChar m :: rest) =
        readItems (.octal (digits + 1) (8 * value + m % 8)) rest := by
    intro digits hdigits value m rest
    rw [readItems, if_pos hdigits, octalDigit?_octalChar]
  have hfirst : readItems .item ('\\' :: octalChar (n / 64) :: octalChar (n / 8) ::
      octalChar n :: rest) = readItems (.octal 1 (n / 64 % 8))
        (octalChar (n / 8) :: octalChar n :: rest) := by
    rw [readItems, readAt, if_neg (by decide), if_pos rfl, readItems, octalDigit?_octalChar]
  rw [hfirst, hnext 1 (by decide), hnext 2 (by decide), hvalue, readItems_octal_three h]

/-- An escape of one character. -/
theorem readItems_escape {c d : Char} {byte : UInt8} (hdigit : octalDigit? c = none)
    (hbyte : simpleEscape? c = some byte) (hd : String.utf8EncodeChar d = [byte])
    (rest : List Char) :
    readItems .item ('\\' :: c :: rest) =
      withBytes (String.utf8EncodeChar d) (readItems .item rest) := by
  rw [readItems, readAt, if_neg (by decide), if_pos rfl, readItems, hdigit, hbyte, hd]
  rfl

/-- **Characters.** A character as it is written is read as its bytes, whatever follows. -/
theorem readItems_stringChar (c : Char) (rest : List Char) :
    readItems .item (stringChar c ++ rest) =
      withBytes (String.utf8EncodeChar c) (readItems .item rest) := by
  unfold stringChar
  split_ifs with hquote hbackslash hn hr ht hcontrol
  · subst hquote
    exact readItems_escape (by decide) rfl (by decide) rest
  · subst hbackslash
    exact readItems_escape (by decide) rfl (by decide) rest
  · subst hn
    exact readItems_escape (by decide) rfl (by decide) rest
  · subst hr
    exact readItems_escape (by decide) rfl (by decide) rest
  · subst ht
    exact readItems_escape (by decide) rfl (by decide) rest
  · rw [utf8EncodeChar_of_ascii (by omega)]
    exact readItems_octalChars (by omega) rest
  · rw [List.singleton_append, readItems, readAt, if_neg hquote, if_neg hbackslash, if_neg hn]

theorem readItems_stringChars (cs rest : List Char) :
    readItems .item (stringChars cs ++ '"' :: rest) =
      some (cs.flatMap String.utf8EncodeChar, rest) := by
  induction cs with
  | nil => rfl
  | cons c cs ih =>
    rw [stringChars, List.flatMap_cons, List.append_assoc, readItems_stringChar, ← stringChars, ih,
      List.flatMap_cons]
    rfl

/-- **Literals.** The literal of a text is read as the bytes of the text. Reading stops behind the
closing quote, whatever follows. -/
theorem lexString_stringLiteral (s : String) (rest : List Char) :
    lexString ((stringLiteral s).toList ++ rest) = some (utf8 s, rest) := by
  have hchars : (stringLiteral s).toList ++ rest =
      '"' :: (stringChars s.toList ++ '"' :: rest) := by
    simp [stringLiteral]
  rw [hchars, lexString, readItems_stringChars, utf8_eq]

theorem literalText?_stringLiteral (s : String) : literalText? (stringLiteral s) = some s := by
  have hlex := lexString_stringLiteral s []
  rw [List.append_nil] at hlex
  rw [literalText?, hlex]
  exact textOf?_utf8 s

/-- A digit behind an octal escape is a character of its own. -/
example : lexString "\"\\0012\"".toList = some ([0x01, 0x32], []) := by decide

/-! ## Initial values -/

/-- What stands behind a given front of a text. -/
def behind? (front : String) (text : List Char) : Option (List Char) :=
  if front.toList <+: text then some (text.drop front.toList.length) else none

/-- The number at the front of a text and the characters behind its digits. -/
def readCount (text : List Char) : Nat × List Char :=
  (Nat.ofDigitChars 10 (text.takeWhile Char.isDigit) 0, text.dropWhile Char.isDigit)

/-- The bytes that an initial value gives to a string. A literal alone counts up to its first NUL.
With a length, so many bytes count, NUL or not; the closing NUL of a literal is the last byte that
there is. -/
def stringValue? (value : List Char) : Option (List UInt8) :=
  match behind? "std::string(" value with
  | some arguments => do
    let (bytes, rest) ← lexString arguments
    let (length, rest) := readCount (← behind? ", " rest)
    if rest = [')'] ∧ length ≤ bytes.length + 1 then some ((bytes ++ [0]).take length) else none
  | none =>
    match lexString value with
    | some (bytes, []) => some (bytes.takeWhile (· ≠ 0))
    | _ => none

theorem behind?_append (front : String) (rest : List Char) :
    behind? front (front.toList ++ rest) = some rest := by
  rw [behind?, if_pos (List.prefix_append _ _), List.drop_left]

theorem readCount_toString (n : Nat) {c : Char} (hc : c.isDigit = false) (rest : List Char) :
    readCount ((toString n).toList ++ c :: rest) = (n, c :: rest) := by
  have hdigits : ∀ d ∈ (toString n).toList, d.isDigit = true := by
    rw [Nat.toString_eq_ofList_toDigits, String.toList_ofList]
    exact fun d hd => Nat.isDigit_of_mem_toDigits (by decide) (by decide) hd
  have hend : (c :: rest).takeWhile Char.isDigit = [] := by rw [List.takeWhile_cons, hc]; rfl
  have hrest : (c :: rest).dropWhile Char.isDigit = c :: rest := by
    rw [List.dropWhile_cons, hc]
    rfl
  rw [readCount, List.takeWhile_append_of_pos hdigits, List.dropWhile_append_of_pos hdigits, hend,
    hrest, List.append_nil, Nat.toString_eq_ofList_toDigits, String.toList_ofList,
    Nat.ofDigitChars_ten_toDigits]

theorem fill_textValue (s : String) (p : Placement) :
    (textValue s).line.fill p =
      if Char.ofNat 0 ∈ s.toList then
        "std::string(" ++ stringLiteral s ++ ", " ++ toString s.utf8ByteSize ++ ")"
      else stringLiteral s := by
  have hcontains : s.toList.contains (Char.ofNat 0) = true ↔ Char.ofNat 0 ∈ s.toList :=
    List.contains_iff_mem
  rw [textValue]
  by_cases h : Char.ofNat 0 ∈ s.toList
  · rw [if_pos (hcontains.mpr h), if_pos h]
    have hfront : "std::string(" = "std::string" ++ "(" := by decide
    rw [hfront]
    simp only [Expr.line, TypeName.line, Line.fill_append, Line.fill_text, Line.fill_ofText,
      String.append_assoc, -String.reduceAppend]
  · rw [if_neg (fun hmem => h (hcontains.mp hmem)), if_neg h, Expr.line, Line.fill_ofText]

/-- **Initial values.** The value that `Init` assigns to a string is read as the bytes of the
text. -/
theorem stringValue?_textValue (s : String) (p : Placement) :
    stringValue? ((textValue s).line.fill p).toList = some (utf8 s) := by
  rw [fill_textValue]
  split_ifs with h
  · have hchars : ("std::string(" ++ stringLiteral s ++ ", " ++ toString s.utf8ByteSize ++
        ")").toList = "std::string(".toList ++ ((stringLiteral s).toList ++ (", ".toList ++
          ((toString s.utf8ByteSize).toList ++ [')']))) := by
      simp [String.toList_append]
    rw [hchars, stringValue?, behind?_append]
    simp only [lexString_stringLiteral, Option.bind_eq_bind, Option.bind_some, behind?_append]
    rw [readCount_toString _ (by decide), if_pos ⟨rfl, by rw [length_utf8]; omega⟩, ← length_utf8,
      List.take_left]
  · have hfront : behind? "std::string(" (stringLiteral s).toList = none := by
      refine if_neg fun ⟨rest, hrest⟩ => ?_
      have hhead := congrArg List.head? hrest
      simp [stringLiteral] at hhead
    have hlex := lexString_stringLiteral s []
    have hzero : ∀ b ∈ utf8 s, decide (b ≠ 0) = true := by
      intro b hb
      exact decide_eq_true fun hb0 => h (zero_mem_utf8_iff.mp (hb0 ▸ hb))
    rw [List.append_nil] at hlex
    rw [stringValue?, hfront, hlex]
    exact congrArg some (List.takeWhile_eq_self_iff.mpr hzero)

/-- The code of a string begins with `Init`, whose body is one assignment. -/
theorem definitions_string (target : Target) (type : String) (value : Option String)
    (primitive : Primitive) (p : Placement) :
    ∃ rest, ((aliasFragment target type (.string value) primitive).place p).definitions =
      (initSignature type).head.fill p ::
        ("  *val = " ++ (textValue (value.getD "")).line.fill p ++ ";") :: "\x7d" :: rest := by
  have hfront : "  *val = " = "  " ++ ("*" ++ "val" ++ " = ") := by decide
  have hassign : (indentLine (Stmt.assign (.deref .val) (textValue (value.getD ""))).line).fill p =
      "  *val = " ++ (textValue (value.getD "")).line.fill p ++ ";" := by
    rw [hfront]
    simp only [indentLine, Stmt.line, Expr.line, Expr.val, Line.fill_append, Line.fill_text,
      Line.fill_ofText, Code.indentUnit, String.append_assoc, -String.reduceAppend]
  have hbrace : (Line.ofText "\x7d").fill p = "\x7d" := Line.fill_ofText p _
  let others := (helperFunctions target type (aliasBodies type (.string value) primitive)).tail
  refine ⟨"" :: (others.flatMap Function.lines).map (Line.fill p), ?_⟩
  rw [← hassign, ← hbrace]
  rfl

/-- **String literals.** The literal of a text, whatever its characters are, is read by C++ as one
literal and stands for exactly that text. The code of a string with a default assigns in `Init` a
value that stands for exactly the default: with a NUL in the default, a literal with its length,
which is the number of bytes of the default and of the literal; without, a literal that has no NUL
either. -/
theorem string_literals_denote (s : String) :
    (∀ rest, lexString ((stringLiteral s).toList ++ rest) = some (utf8 s, rest)) ∧
    literalText? (stringLiteral s) = some s ∧
    ∀ (target : Target) (type : String) (primitive : Primitive) (p : Placement),
      ∃ value rest,
        ((aliasFragment target type (.string (some s)) primitive).place p).definitions =
          (initSignature type).head.fill p :: ("  *val = " ++ value ++ ";") :: "\x7d" :: rest ∧
        (stringValue? value.toList).bind textOf? = some s ∧
        (Char.ofNat 0 ∈ s.toList → ∃ length,
          value = "std::string(" ++ stringLiteral s ++ ", " ++ toString length ++ ")" ∧
          length = s.utf8ByteSize ∧ length = (utf8 s).length) ∧
        (Char.ofNat 0 ∉ s.toList → value = stringLiteral s ∧ 0 ∉ utf8 s) := by
  refine ⟨lexString_stringLiteral s, literalText?_stringLiteral s, ?_⟩
  intro target type primitive p
  obtain ⟨rest, hlines⟩ := definitions_string target type (some s) primitive p
  refine ⟨(textValue s).line.fill p, rest, hlines, ?_, fun h => ?_, fun h => ?_⟩
  · rw [stringValue?_textValue, Option.bind_some, textOf?_utf8]
  · refine ⟨s.utf8ByteSize, ?_, rfl, (length_utf8 s).symm⟩
    rw [fill_textValue, if_pos h]
  · rw [fill_textValue, if_neg h]
    exact ⟨rfl, fun hzero => h (zero_mem_utf8_iff.mp hzero)⟩

end ConfigForge.Cpp
