import ConfigForge.Code.Fragment
import Mathlib.Data.List.Chain
import Mathlib.Data.List.Induction

/-!
# Lines in normal form

A line is built by appending texts, slots and whole lines, in any order. Read from left to right it is
a sequence of characters and slots. Its pieces are the coarsest way to cut this sequence: a text is
never empty, and it goes on until the next slot. So the sequence determines the pieces, and what is
appended in several steps is what is appended at once.

Results:

* `Line.text_text`, `Line.join_push`: what two steps append, one step appends.
* `Line.join_eq_foldl`: joining a line is appending its characters and slots one at a time.
* `Line.Normal.empty_join`: a line in normal form is rebuilt from its pieces.
* `Line.Built.normal`: every line that is built is in normal form.
* `built_lines_canonical`: the normal form, equality by characters and slots, and the laws of joining
  and filling.
-/

namespace ConfigForge.Code

/-! ## Characters and slots -/

/-- What a line is made of: characters and slots. -/
inductive Symbol where
  | char (c : Char)
  | slot (hole : Slot)
deriving DecidableEq, Repr

/-- The characters that stand for a symbol at a place. -/
def Symbol.fill (p : Placement) : Symbol → List Char
  | .char c => [c]
  | .slot hole => (p.value hole).toList

/-- A symbol as a piece of its own. -/
def Symbol.piece : Symbol → Piece
  | .char c => .text (String.singleton c)
  | .slot hole => .slot hole

namespace Piece

/-- Whether a piece is a text. -/
def isText : Piece → Bool
  | .text _ => true
  | .slot _ => false

/-- The symbols of a piece. -/
def symbols : Piece → List Symbol
  | .text s => s.toList.map .char
  | .slot hole => [.slot hole]

end Piece

namespace Line

/-- The symbols of a line. -/
def symbols (l : Line) : List Symbol :=
  l.pieces.flatMap Piece.symbols

/-- The lines that are built from the empty line by appending texts, slots and lines. -/
inductive Built : Line → Prop where
  | empty : Built empty
  | text {l : Line} (s : String) : Built l → Built (l.text s)
  | slot {l : Line} (hole : Slot) : Built l → Built (l.slot hole)
  | join {l m : Line} : Built l → Built m → Built (l.join m)

/-- Whether no text of a line is empty and no two neighbours are texts. -/
structure Normal (l : Line) : Prop where
  nonempty : .text "" ∉ l.pieces
  apart : l.pieces.IsChain fun piece next => piece.isText = true → next.isText = false

end Line

/-! ## Appending a text -/

theorem endsInText_or (ps : List Piece) :
    (∃ front t, ps = front ++ [.text t]) ∨ ∀ piece ∈ ps.getLast?, piece.isText = false := by
  induction ps using List.reverseRecOn with
  | nil => exact .inr fun piece h => absurd h (by simp)
  | append_singleton front last _ =>
    cases last with
    | text t => exact .inl ⟨front, t, rfl⟩
    | slot hole =>
      right
      rintro piece h
      rw [List.getLast?_concat, Option.mem_some_iff] at h
      rw [← h]
      rfl

/-- A text is written to the end of a text. -/
theorem appendText_of_text (front : List Piece) (t s : String) :
    appendText (front ++ [.text t]) s = front ++ [.text (t ++ s)] := by
  induction front with
  | nil => rfl
  | cons piece rest ih =>
    rw [List.cons_append, appendText, ih, List.cons_append]
    simp

/-- Behind a slot, or where there is nothing, a text becomes a piece, unless it is empty. -/
theorem appendText_of_not_text {ps : List Piece} (s : String)
    (h : ∀ piece ∈ ps.getLast?, piece.isText = false) :
    appendText ps s = if s = "" then ps else ps ++ [.text s] := by
  induction ps with
  | nil => rfl
  | cons piece rest ih =>
    cases rest with
    | nil =>
      cases piece with
      | text t => cases h _ rfl
      | slot hole =>
        rw [appendText, appendText]
        · split <;> rfl
        · simp
    | cons next rest =>
      rw [List.getLast?_cons_cons] at h
      rw [appendText, ih h]
      · split <;> rfl
      · simp

namespace Line

variable (l m n : Line)

theorem text_empty : l.text "" = l := by
  rw [text, mk.injEq]
  rcases endsInText_or l.pieces with ⟨front, t, hl⟩ | hl
  · rw [hl, appendText_of_text, String.append_empty]
  · rw [appendText_of_not_text "" hl, if_pos rfl]

/-- Two texts appended one after the other are one text. -/
theorem text_text (s t : String) : (l.text s).text t = l.text (s ++ t) := by
  rw [text, text, text, mk.injEq]
  rcases endsInText_or l.pieces with ⟨front, u, hl⟩ | hl
  · rw [hl, appendText_of_text, appendText_of_text, appendText_of_text, String.append_assoc]
  · by_cases hs : s = ""
    · rw [appendText_of_not_text s hl, if_pos hs, hs, String.empty_append]
    · have hst : s ++ t ≠ "" := fun h => hs (String.append_eq_empty_iff.mp h).1
      rw [appendText_of_not_text s hl, if_neg hs, appendText_of_text,
        appendText_of_not_text (s ++ t) hl, if_neg hst]

/-! ## Joining -/

theorem join_append (ps qs : List Piece) : l.join ⟨ps ++ qs⟩ = (l.join ⟨ps⟩).join ⟨qs⟩ :=
  List.foldl_append

theorem join_slot (hole : Slot) : l.join (m.slot hole) = (l.join m).slot hole :=
  l.join_append m.pieces [.slot hole]

/-- A text at the end of a line is joined after the rest of the line. -/
theorem join_text (s : String) : l.join (m.text s) = (l.join m).text s := by
  obtain ⟨ps⟩ := m
  rcases endsInText_or ps with ⟨front, t, rfl⟩ | hm
  · rw [text, appendText_of_text, join_append, join_append]
    exact ((l.join ⟨front⟩).text_text t s).symm
  · rw [text, appendText_of_not_text s hm]
    by_cases hs : s = ""
    · rw [if_pos hs, hs, text_empty]
    · rw [if_neg hs, join_append]
      rfl

theorem join_push (piece : Piece) : l.join (m.push piece) = (l.join m).push piece := by
  cases piece with
  | text s => exact l.join_text m s
  | slot hole => exact l.join_slot m hole

/-- Joining can be done in any grouping. -/
theorem join_assoc : (l.join m).join n = l.join (m.join n) :=
  List.foldl_hom (l.join ·) fun k piece => (l.join_push k piece).symm

theorem join_empty : l.join empty = l := rfl

/-- Appending a text is appending its characters. -/
theorem foldl_push_chars (cs : List Char) :
    ((cs.map Symbol.char).map Symbol.piece).foldl push l = l.text (String.ofList cs) := by
  induction cs generalizing l with
  | nil => exact l.text_empty.symm
  | cons c cs ih =>
    rw [List.map_cons, List.map_cons, List.foldl_cons, ih]
    change (l.text (String.singleton c)).text _ = _
    rw [text_text]
    congr 1
    simp [String.ofList_cons]

/-- **Joining symbol by symbol.** What a line adds to another depends on its symbols alone. -/
theorem join_eq_foldl : l.join m = (m.symbols.map Symbol.piece).foldl push l := by
  obtain ⟨ps⟩ := m
  induction ps generalizing l with
  | nil => rfl
  | cons piece rest ih =>
    have hrest := ih (l.push piece)
    change (l.push piece).join ⟨rest⟩ = _
    rw [hrest]
    change _ = ((piece.symbols ++ (mk rest).symbols).map Symbol.piece).foldl push l
    rw [List.map_append, List.foldl_append]
    congr 1
    cases piece with
    | text s =>
      rw [Piece.symbols, foldl_push_chars, String.ofList_toList]
      rfl
    | slot hole => rfl

/-! ## Normal form -/

theorem normal_empty : empty.Normal :=
  ⟨List.not_mem_nil, .nil⟩

variable {l m}

/-- A piece at the end keeps the normal form if it is no empty text and does not follow a text as
a text. -/
theorem Normal.concat (h : l.Normal) {piece : Piece} (hne : piece ≠ .text "")
    (hlast : ∀ last ∈ l.pieces.getLast?, last.isText = true → piece.isText = false) :
    (Line.mk (l.pieces ++ [piece])).Normal := by
  refine ⟨fun hmem => ?_, List.isChain_append.mpr ⟨h.apart, .singleton _, ?_⟩⟩
  · rcases List.mem_append.mp hmem with hmem | hmem
    · exact h.nonempty hmem
    · exact hne (List.mem_singleton.mp hmem).symm
  · rintro last hmem next hnext
    obtain rfl := Option.mem_some_iff.mp hnext
    exact hlast last hmem

theorem Normal.slot (h : l.Normal) (hole : Slot) : (l.slot hole).Normal :=
  h.concat (show Piece.slot hole ≠ .text "" by simp) fun _ _ _ => rfl

theorem Normal.text (h : l.Normal) (s : String) : (l.text s).Normal := by
  obtain ⟨ps⟩ := l
  rcases endsInText_or ps with ⟨front, t, rfl⟩ | hl
  · -- the text at the end gets longer, and what stands before it stays
    obtain ⟨hne, hchain⟩ := h
    obtain ⟨hfront, -, hlast⟩ := List.isChain_append.mp hchain
    rw [Line.text, appendText_of_text]
    refine Normal.concat (l := ⟨front⟩) ⟨fun hmem => hne (List.mem_append_left _ hmem), hfront⟩ ?_ ?_
    · intro hempty
      have ht : t = "" := (String.append_eq_empty_iff.mp (Piece.text.inj hempty)).1
      exact hne (List.mem_append_right _ (List.mem_singleton.mpr (by rw [ht])))
    · exact fun last hmem => hlast last hmem (.text t) rfl
  · rw [Line.text, appendText_of_not_text s hl]
    by_cases hs : s = ""
    · rw [if_pos hs]
      exact h
    · rw [if_neg hs]
      refine h.concat (fun hempty => hs (Piece.text.inj hempty)) fun last hmem htext => ?_
      rw [hl last hmem] at htext
      cases htext

theorem Normal.push (h : l.Normal) (piece : Piece) : (l.push piece).Normal := by
  cases piece with
  | text s => exact h.text s
  | slot hole => exact h.slot hole

/-- What a line in normal form is joined with does not matter. -/
theorem Normal.join (h : l.Normal) (m : Line) : (l.join m).Normal := by
  obtain ⟨ps⟩ := m
  induction ps generalizing l with
  | nil => exact h
  | cons piece rest ih => exact ih (h.push piece)

/-- **What is built is normal.** -/
theorem Built.normal (h : l.Built) : l.Normal := by
  induction h with
  | empty => exact normal_empty
  | text s _ ih => exact ih.text s
  | slot hole _ ih => exact ih.slot hole
  | join _ _ ih _ => exact ih.join _

/-- **A line in normal form is rebuilt from its pieces.** -/
theorem Normal.empty_join (h : l.Normal) : empty.join l = l := by
  obtain ⟨ps⟩ := l
  induction ps using List.reverseRecOn with
  | nil => rfl
  | append_singleton front last ih =>
    obtain ⟨hne, hchain⟩ := h
    obtain ⟨hfront, -, hlast⟩ := List.isChain_append.mp hchain
    have hnormal : (Line.mk front).Normal := ⟨fun hmem => hne (List.mem_append_left _ hmem), hfront⟩
    rw [join_append, ih hnormal]
    cases last with
    | slot hole => rfl
    | text s =>
      have hs : s ≠ "" := fun hs => hne (by simp [hs])
      have hnot : ∀ piece ∈ front.getLast?, piece.isText = false := fun piece hmem =>
        Bool.eq_false_iff.mpr fun htext => by cases hlast piece hmem (.text s) rfl htext
      change Line.mk (appendText front s) = _
      rw [appendText_of_not_text s hnot, if_neg hs]

/-- Lines in normal form with the same symbols are the same line. -/
theorem Normal.eq_iff (hl : l.Normal) (hm : m.Normal) : l = m ↔ l.symbols = m.symbols := by
  constructor
  · rintro rfl
    rfl
  · intro h
    rw [← hl.empty_join, ← hm.empty_join, join_eq_foldl, join_eq_foldl, h]

/-! ## Filling -/

/-- Filling a line is filling its symbols. -/
theorem toList_fill (p : Placement) (l : Line) :
    (l.fill p).toList = l.symbols.flatMap (Symbol.fill p) := by
  obtain ⟨ps⟩ := l
  induction ps with
  | nil => rfl
  | cons piece rest ih =>
    change (piece.fill p ++ fillPieces p rest).toList =
      (piece.symbols ++ (mk rest).symbols).flatMap (Symbol.fill p)
    rw [String.toList_append, List.flatMap_append, ← ih]
    congr 1
    cases piece with
    | text s => simp [Piece.fill, Piece.symbols, Symbol.fill, List.flatMap_map]
    | slot hole => simp [Piece.fill, Piece.symbols, Symbol.fill]

end Line

/-- **Lines and fragments.** A line that is built has no empty text and no two texts next to each
other, and it is determined by its characters and slots. Joining is associative, with the empty line
on both sides neutral. To fill a line is to put the fillings in the place of its slots; so it goes
through joining, and for fragments through appending, part by part. -/
theorem built_lines_canonical :
    (∀ l : Line, l.Built → (∀ piece ∈ l.pieces, piece ≠ .text "") ∧
      l.pieces.IsChain fun piece next => ¬ (piece.isText = true ∧ next.isText = true)) ∧
    (∀ l m : Line, l.Built → m.Built → (l = m ↔ l.symbols = m.symbols)) ∧
    (∀ l m n : Line, (l.join m).join n = l.join (m.join n)) ∧
    (∀ l : Line, l.Built → l.join .empty = l ∧ Line.empty.join l = l) ∧
    (∀ (p : Placement) (l : Line), (l.fill p).toList = l.symbols.flatMap (Symbol.fill p)) ∧
    (∀ (p : Placement) (l m : Line), (l.join m).fill p = l.fill p ++ m.fill p) ∧
    ∀ (p : Placement) (f g : Fragment), (f.append g).place p =
      ⟨(f.place p).forward ++ (g.place p).forward,
        (f.place p).declarations ++ (g.place p).declarations,
        (f.place p).definitions ++ (g.place p).definitions⟩ := by
  refine ⟨fun l hl => ⟨fun piece hpiece hempty => ?_, ?_⟩, fun l m hl hm => ?_, Line.join_assoc,
    fun l hl => ⟨l.join_empty, hl.normal.empty_join⟩, Line.toList_fill, Line.fill_join,
    Fragment.place_append⟩
  · exact hl.normal.nonempty (hempty ▸ hpiece)
  · refine hl.normal.apart.imp fun piece next h => ?_
    rintro ⟨htext, hnext⟩
    rw [h htext] at hnext
    cases hnext
  · exact hl.normal.eq_iff hm.normal

/-- The line of a definition, appended piece by piece. -/
def Line.stepwiseExample : Line :=
  ((((Line.empty.text "a").text "").text "b").slot .scope).text "c"

/-- The same line, joined of two. -/
def Line.joinedExample : Line :=
  (Line.ofText "ab").join ((Line.empty.slot .scope).text "c")

/-- Two ways to build one line: the symbols are the same, so the lines are. -/
theorem stepwiseExample_canonical :
    Line.stepwiseExample.Built ∧ Line.joinedExample.Built ∧
      Line.stepwiseExample = Line.joinedExample ∧
      (∀ piece ∈ Line.stepwiseExample.pieces, piece ≠ .text "") ∧
      Line.empty.join Line.stepwiseExample = Line.stepwiseExample := by
  have hstepwise : Line.stepwiseExample.Built := .text _ (.slot _ (.text _ (.text _ (.text _ .empty))))
  have hjoined : Line.joinedExample.Built := .join (.text _ .empty) (.text _ (.slot _ .empty))
  obtain ⟨hnormal, hequal, -, hneutral, -⟩ := built_lines_canonical
  exact ⟨hstepwise, hjoined, (hequal _ _ hstepwise hjoined).mpr (by decide),
    (hnormal _ hstepwise).1, (hneutral _ hstepwise).2⟩

end ConfigForge.Code
