import ConfigForge.Json.Numeral

/-!
# Tokens of JSON text

The characters of a JSON text are grouped into brackets, commas, colons, words, numerals and
strings by a scanner that reads one character after the other. Blanks are space, tab, carriage
return and line feed. A string token keeps what was written: characters and the 16-bit codes of
`\u` escapes, which may or may not combine to characters.
-/

namespace ConfigForge.Json

/-- What a string is written with: a character or the code of a `\u` escape. -/
inductive TextUnit where
  | char (c : Char)
  | code (n : Nat)
deriving DecidableEq, Repr

/-- The characters of a string. A code in `D800–DBFF` needs one in `DC00–DFFF` right after it, and
the two write one character; a code of the second range alone writes nothing. -/
def decodeText : List TextUnit → Option (List Char)
  | [] => some []
  | .char c :: rest => (decodeText rest).map (c :: ·)
  | .code n :: .code m :: rest =>
    if 0xD800 ≤ n ∧ n < 0xDC00 then
      if 0xDC00 ≤ m ∧ m < 0xE000 then
        (decodeText rest).map (Char.ofNat (0x10000 + (n - 0xD800) * 0x400 + (m - 0xDC00)) :: ·)
      else none
    else if 0xDC00 ≤ n ∧ n < 0xE000 then none
    else (decodeText (.code m :: rest)).map (Char.ofNat n :: ·)
  | .code n :: rest =>
    if 0xD800 ≤ n ∧ n < 0xE000 then none else (decodeText rest).map (Char.ofNat n :: ·)

/-- The tokens of JSON. -/
inductive Token where
  | beginArray
  | endArray
  | beginObject
  | endObject
  | colon
  | comma
  | null
  | bool (b : Bool)
  | numeral (n : Numeral)
  | string (units : List TextUnit)
deriving DecidableEq, Repr

/-! ## Numerals -/

/-- How far a numeral has been read. -/
inductive NumeralPhase where
  | sign
  | zero
  | whole
  | point
  | fraction
  | mark
  | exponentSign
  | exponent
deriving DecidableEq, Repr

/-- The value of an ASCII digit. -/
def digit? (c : Char) : Option Nat :=
  if c.isDigit then some (c.toNat - '0'.toNat) else none

/-- Whether a numeral may end in a phase. -/
def NumeralPhase.canEnd : NumeralPhase → Bool
  | .zero | .whole | .fraction | .exponent => true
  | .sign | .point | .mark | .exponentSign => false

/-- Reads one more character of a numeral whose digits so far are kept in reverse; none if the
character does not continue the numeral. -/
def NumeralPhase.step? (phase : NumeralPhase) (n : Numeral) (c : Char) :
    Option (NumeralPhase × Numeral) :=
  match phase, digit? c with
  | .sign, some 0 => some (.zero, { n with whole := [0] })
  | .sign, some d | .whole, some d => some (.whole, { n with whole := d :: n.whole })
  | .point, some d | .fraction, some d => some (.fraction, { n with fraction := d :: n.fraction })
  | .mark, some d | .exponentSign, some d | .exponent, some d =>
    let (negative, digits) := n.exponent.getD (false, [])
    some (.exponent, { n with exponent := some (negative, d :: digits) })
  | .zero, none | .whole, none =>
    if c = '.' then some (.point, n)
    else if c = 'e' ∨ c = 'E' then some (.mark, n)
    else none
  | .fraction, none => if c = 'e' ∨ c = 'E' then some (.mark, n) else none
  | .mark, none =>
    if c = '+' then some (.exponentSign, n)
    else if c = '-' then some (.exponentSign, { n with exponent := some (true, []) })
    else none
  | _, _ => none

/-- The numeral with its digits in the order of writing. -/
def Numeral.inOrder (n : Numeral) : Numeral :=
  { n with
    whole := n.whole.reverse
    fraction := n.fraction.reverse
    exponent := n.exponent.map fun e => (e.1, e.2.reverse) }

/-! ## The scanner -/

/-- Where the scanner stands. The parts read so far of a string are kept in reverse. -/
inductive ScanState where
  | between
  | word (rest : List Char) (token : Token)
  | string (done : List TextUnit)
  | escape (done : List TextUnit)
  | hex (done : List TextUnit) (count : Nat) (value : Nat)
  | numeral (phase : NumeralPhase) (n : Numeral)

/-- The value of a hexadecimal digit. -/
def hexDigit? (c : Char) : Option Nat :=
  if c.isDigit then some (c.toNat - '0'.toNat)
  else if 'a' ≤ c ∧ c ≤ 'f' then some (c.toNat - 'a'.toNat + 10)
  else if 'A' ≤ c ∧ c ≤ 'F' then some (c.toNat - 'A'.toNat + 10)
  else none

/-- The character that a short escape writes. -/
def shortEscape? : Char → Option Char
  | '"' => some '"'
  | '\\' => some '\\'
  | '/' => some '/'
  | 'b' => some (Char.ofNat 0x08)
  | 'f' => some (Char.ofNat 0x0C)
  | 'n' => some '\n'
  | 'r' => some '\r'
  | 't' => some '\t'
  | _ => none

/-- Reads a character between tokens. -/
def stepBetween? (c : Char) : Option (ScanState × List Token) :=
  match c with
  | ' ' | '\t' | '\r' | '\n' => some (.between, [])
  | '[' => some (.between, [.beginArray])
  | ']' => some (.between, [.endArray])
  | '{' => some (.between, [.beginObject])
  | '}' => some (.between, [.endObject])
  | ':' => some (.between, [.colon])
  | ',' => some (.between, [.comma])
  | '"' => some (.string [], [])
  | 'n' => some (.word ['u', 'l', 'l'] .null, [])
  | 't' => some (.word ['r', 'u', 'e'] (.bool true), [])
  | 'f' => some (.word ['a', 'l', 's', 'e'] (.bool false), [])
  | '-' => some (.numeral .sign ⟨true, [], [], none⟩, [])
  | c =>
    (NumeralPhase.sign.step? ⟨false, [], [], none⟩ c).map fun next =>
      (.numeral next.1 next.2, [])

/-- Reads one character; the tokens completed by it come along. -/
def ScanState.step? (state : ScanState) (c : Char) : Option (ScanState × List Token) :=
  match state with
  | .between => stepBetween? c
  | .word [] _ => none
  | .word [last] token => if c = last then some (.between, [token]) else none
  | .word (next :: rest) token => if c = next then some (.word rest token, []) else none
  | .string done =>
    if c = '"' then some (.between, [.string done.reverse])
    else if c = '\\' then some (.escape done, [])
    else if c.toNat < 0x20 then none
    else some (.string (.char c :: done), [])
  | .escape done =>
    if c = 'u' then some (.hex done 0 0, [])
    else (shortEscape? c).map fun e => (.string (.char e :: done), [])
  | .hex done count value =>
    (hexDigit? c).map fun d =>
      let value := 16 * value + d
      if count = 3 then (.string (.code value :: done), []) else (.hex done (count + 1) value, [])
  | .numeral phase n =>
    match phase.step? n c with
    | some next => some (.numeral next.1 next.2, [])
    | none =>
      if phase.canEnd then
        (stepBetween? c).map fun next => (next.1, .numeral n.inOrder :: next.2)
      else none

/-- The token that the end of the text completes; none if the text ends inside a token. -/
def ScanState.finish? : ScanState → Option (List Token)
  | .between => some []
  | .numeral phase n => if phase.canEnd then some [.numeral n.inOrder] else none
  | _ => none

/-- Scans a text; `done` are the tokens read so far, in reverse. -/
def scan (state : ScanState) (done : List Token) : List Char → Option (List Token)
  | [] => state.finish?.map fun last => done.reverse ++ last
  | c :: cs =>
    match state.step? c with
    | none => none
    | some (next, tokens) => scan next (tokens.reverse ++ done) cs

/-- The tokens of a text. -/
def tokens? (text : List Char) : Option (List Token) :=
  scan .between [] text

end ConfigForge.Json
