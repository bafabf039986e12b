/-!
# Lines of code with open slots

Code is written before it is known where it will stand. What depends on the place is left open: the
qualification by the enclosing classes, and the word `static` that helper declarations need inside
a class. A line is a sequence of texts and slots; a placement fills all slots at once.

Texts that follow each other are one text, and no text is empty.

Results:

* `fill_text`, `fill_slot`, `fill_join`: filling goes through the building steps of a line.
-/

namespace ConfigForge.Code

/-- What a line leaves open. -/
inductive Slot where
  /-- The qualification by the enclosing classes, such as `Outer::`. -/
  | scope
  /-- The storage word of a helper declaration. -/
  | storage
deriving DecidableEq, Repr

/-- A part of a line. -/
inductive Piece where
  | text (s : String)
  | slot (hole : Slot)
deriving DecidableEq, Repr

/-- A line of code. -/
structure Line where
  pieces : List Piece
deriving DecidableEq, Repr

/-- Where code stands: what fills each slot. -/
structure Placement where
  scope : String
  storage : String
deriving DecidableEq, Repr

namespace Placement

/-- Directly in the target namespace (`top_level`). -/
def topLevel : Placement :=
  ⟨"", ""⟩

/-- Inside the class whose members are qualified by `scope` (`member`). -/
def inClass (scope : String) : Placement :=
  ⟨scope, "static "⟩

/-- The filling of a slot. -/
def value (p : Placement) : Slot → String
  | .scope => p.scope
  | .storage => p.storage

end Placement

/-- The text of a piece. -/
def Piece.fill (p : Placement) : Piece → String
  | .text s => s
  | .slot hole => p.value hole

/-- The text of pieces. -/
def fillPieces (p : Placement) : List Piece → String
  | [] => ""
  | piece :: rest => piece.fill p ++ fillPieces p rest

/-- Pieces with a text at the end; it becomes part of a text that is already there. -/
def appendText : List Piece → String → List Piece
  | [], s => if s = "" then [] else [.text s]
  | [.text t], s => [.text (t ++ s)]
  | piece :: rest, s => piece :: appendText rest s

namespace Line

/-- The empty line. -/
def empty : Line :=
  ⟨[]⟩

/-- The line with a text at the end. -/
def text (l : Line) (s : String) : Line :=
  ⟨appendText l.pieces s⟩

/-- The line with a slot at the end. -/
def slot (l : Line) (hole : Slot) : Line :=
  ⟨l.pieces ++ [.slot hole]⟩

/-- The line with a piece at the end. -/
def push (l : Line) : Piece → Line
  | .text s => l.text s
  | .slot hole => l.slot hole

/-- A line followed by another one. -/
def join (l m : Line) : Line :=
  m.pieces.foldl push l

/-- The line of a text alone. -/
def ofText (s : String) : Line :=
  empty.text s

/-- The line of a slot alone. -/
def ofSlot (s : Slot) : Line :=
  empty.slot s

/-- Lines one after the other. -/
def concat (lines : List Line) : Line :=
  lines.foldl join empty

/-- The text of a line at a place (`bind`). -/
def fill (p : Placement) (l : Line) : String :=
  fillPieces p l.pieces

end Line

instance : Append Line := ⟨Line.join⟩

/-! ## Filling -/

theorem fillPieces_append (p : Placement) (ps qs : List Piece) :
    fillPieces p (ps ++ qs) = fillPieces p ps ++ fillPieces p qs := by
  induction ps with
  | nil => simp [fillPieces]
  | cons piece rest ih => simp [fillPieces, ih, String.append_assoc]

theorem fillPieces_appendText (p : Placement) (ps : List Piece) (s : String) :
    fillPieces p (appendText ps s) = fillPieces p ps ++ s := by
  fun_induction appendText ps s with
  | case1 => simp [fillPieces]
  | case2 s h => simp [fillPieces, Piece.fill]
  | case3 t s => simp [fillPieces, Piece.fill]
  | case4 piece rest s h ih => simp [fillPieces, ih, String.append_assoc]

namespace Line

@[simp] theorem fill_text (p : Placement) (l : Line) (s : String) :
    (l.text s).fill p = l.fill p ++ s :=
  fillPieces_appendText p l.pieces s

@[simp] theorem fill_slot (p : Placement) (l : Line) (s : Slot) :
    (l.slot s).fill p = l.fill p ++ p.value s := by
  simp [slot, fill, fillPieces_append, fillPieces, Piece.fill]

theorem fill_push (p : Placement) (l : Line) (piece : Piece) :
    (l.push piece).fill p = l.fill p ++ piece.fill p := by
  cases piece with
  | text s => simp [push, Piece.fill]
  | slot s => simp [push, Piece.fill]

@[simp] theorem fill_join (p : Placement) (l m : Line) :
    (l.join m).fill p = l.fill p ++ m.fill p := by
  obtain ⟨pieces⟩ := m
  induction pieces generalizing l with
  | nil => simp [join, fill, fillPieces]
  | cons piece rest ih =>
    have h := ih (l.push piece)
    rw [fill_push] at h
    simp only [join, List.foldl_cons] at h ⊢
    rw [h]
    simp [fill, fillPieces, String.append_assoc]

@[simp] theorem fill_append (p : Placement) (l m : Line) :
    (l ++ m).fill p = l.fill p ++ m.fill p :=
  fill_join p l m

@[simp] theorem fill_ofText (p : Placement) (s : String) : (ofText s).fill p = s := by
  rw [ofText, fill_text]
  simp [fill, fillPieces, empty]

@[simp] theorem fill_ofSlot (p : Placement) (s : Slot) : (ofSlot s).fill p = p.value s := by
  rw [ofSlot, fill_slot]
  simp [fill, fillPieces, empty]

end Line

end ConfigForge.Code
