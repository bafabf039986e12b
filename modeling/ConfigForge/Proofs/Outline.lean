import ConfigForge.Proofs.TypeNames

/-!
# The outline of a header

A header can be read line by line without parsing C++: generated code opens a class with a line
`class X {`, closes it with a line `};`, and declares a type with a line `class X;` or with a line
that starts with `typedef` and ends with the name. Reading keeps the classes that are open and
records, in the order of the lines, which classes were opened or closed and which types were
declared.

Results:

* `Mark.read_indent`: indentation does not matter.
* `Mark.read_open`, `Mark.read_forward`, `Mark.read_typedef`: how generated lines are read.
* `Mark.read_of_head`: most other lines are told by their first character.
* `Reads.append`: lines are read one after the other.
* `reads_classLines`: the lines of a class open it, go on with its member types, and close it.
* `read_headerFront`: what stands before the declarations does nothing.
-/

namespace ConfigForge

open Code (Line Placement PlacedFragment)
open Emit Cpp

/-! ## Lines -/

/-- A line without its indentation. -/
def bare (line : String) : String :=
  String.ofList (line.toList.dropWhile (· == ' '))

/-- The words of a line, which stand between single blanks. -/
def words (line : String) : List String :=
  (Text.split ' ' (bare line).toList).map String.ofList

/-- A text without its last character. -/
def dropLastChar (s : String) : String :=
  String.ofList s.toList.dropLast

/-- What a line does. -/
inductive Mark where
  /-- Opens the body of a class. -/
  | opens (name : String)
  /-- Closes the body of the innermost class. -/
  | closes
  /-- Declares a type. -/
  | declares (name : String)
  | plain
deriving DecidableEq, Repr

/-- What a line with these words does. -/
def Mark.ofWords : List String → Mark
  | ["\x7d;"] => .closes
  | ["class", name, "\x7b"] => .opens name
  | ["class", name] => .declares (dropLastChar name)
  | "typedef" :: rest => .declares (dropLastChar (rest.getLast?.getD ""))
  | _ => .plain

/-- What a line does. -/
def Mark.read (line : String) : Mark :=
  .ofWords (words line)

/-- Whether a line is a typedef of a vector. -/
def isVectorTypedef (line : String) : Bool :=
  (words line).take 2 == ["typedef", "std::vector<"]

/-! ## Reading lines -/

/-- What happens to the class or type at a path of class names. -/
inductive Event where
  | opened (path : List String)
  | closed (path : List String)
  | declared (path : List String)
deriving DecidableEq, Repr

/-- What has been read: the classes that are open, outermost first, and the events so far. -/
structure Outline where
  around : List String
  events : List Event
deriving DecidableEq, Repr

namespace Outline

/-- Nothing has been read. -/
def start : Outline :=
  ⟨[], []⟩

/-- The outline after one more line. -/
def read (o : Outline) (line : String) : Outline :=
  match Mark.read line with
  | .opens name => ⟨o.around ++ [name], o.events ++ [.opened (o.around ++ [name])]⟩
  | .closes => ⟨o.around.dropLast, o.events ++ [.closed o.around]⟩
  | .declares name => ⟨o.around, o.events ++ [.declared (o.around ++ [name])]⟩
  | .plain => o

/-- The outline after more lines. -/
def readAll (o : Outline) (lines : List String) : Outline :=
  lines.foldl read o

theorem readAll_nil (o : Outline) : o.readAll [] = o := by
  rw [readAll, List.foldl_nil]

theorem readAll_cons (o : Outline) (line : String) (rest : List String) :
    o.readAll (line :: rest) = (o.read line).readAll rest := by
  rw [readAll, List.foldl_cons, readAll]

theorem readAll_append (o : Outline) (lines more : List String) :
    o.readAll (lines ++ more) = (o.readAll lines).readAll more :=
  List.foldl_append

end Outline

/-! ## Words -/

theorem bare_of_head {line : String} {c : Char} {cs : List Char} (h : line.toList = c :: cs)
    (hc : c ≠ ' ') : bare line = line := by
  have hdrop : line.toList.dropWhile (· == ' ') = line.toList := by
    rw [h, List.dropWhile_cons]
    simp [hc]
  rw [bare, hdrop, String.ofList_toList]

theorem bare_indentation (levels : Nat) (s : String) :
    bare (Code.indentation levels ++ s) = bare s := by
  induction levels with
  | zero => rw [Code.indentation, String.empty_append]
  | succ levels ih =>
    rw [Code.indentation, String.append_assoc, bare, String.toList_append, ← ih, bare]
    rfl

@[simp] theorem bare_indent (levels : Nat) (s : String) :
    bare (Code.indent levels s) = bare s := by
  unfold Code.indent
  split
  · next h => rw [h]
  · exact bare_indentation levels s

@[simp] theorem words_indent (levels : Nat) (s : String) :
    words (Code.indent levels s) = words s := by
  rw [words, bare_indent, words]

theorem bare_append {first : String} (hne : first ≠ "") (hblank : ' ' ∉ first.toList)
    (rest : String) : bare (first ++ rest) = first ++ rest := by
  cases hchars : first.toList with
  | nil => exact absurd (String.toList_eq_nil_iff.mp hchars) hne
  | cons c cs =>
    have hhead : (first ++ rest).toList = c :: (cs ++ rest.toList) := by
      rw [String.toList_append, hchars, List.cons_append]
    refine bare_of_head hhead ?_
    rintro rfl
    exact hblank (by rw [hchars]; exact List.mem_cons_self)

/-- The first word of a line and the words behind it. -/
theorem words_append {first : String} (hne : first ≠ "") (hblank : ' ' ∉ first.toList)
    (rest : String) :
    words (first ++ " " ++ rest) = first :: (Text.split ' ' rest.toList).map String.ofList := by
  have hbare : bare (first ++ " " ++ rest) = first ++ " " ++ rest := by
    rw [String.append_assoc]
    exact bare_append hne hblank _
  have hchars : (first ++ " " ++ rest).toList = first.toList ++ ' ' :: rest.toList := by
    simp [String.toList_append]
  rw [words, hbare, hchars, Text.split_append, Text.split_of_not_mem hblank]
  simp

/-- A line of one word. -/
theorem words_word {word : String} (hne : word ≠ "") (hblank : ' ' ∉ word.toList) :
    words word = [word] := by
  have hbare : bare word = word := by
    have h := bare_append hne hblank ""
    rwa [String.append_empty] at h
  rw [words, hbare, Text.split_of_not_mem hblank]
  simp

/-! ## What generated lines do -/

/-- The first word of a line that starts in the first column begins like the line. -/
theorem exists_words_of_head {line : String} {c : Char} {cs : List Char}
    (h : line.toList = c :: cs) (hc : c ≠ ' ') :
    ∃ first rest, words line = first :: rest ∧ first.toList.head? = some c := by
  rw [words, bare_of_head h hc, h, Text.split, if_neg hc]
  cases hsplit : Text.split ' ' cs with
  | nil => exact absurd hsplit (Text.split_ne_nil ' ' cs)
  | cons piece pieces =>
    refine ⟨String.ofList (c :: piece), pieces.map String.ofList, rfl, ?_⟩
    rw [String.toList_ofList]
    rfl

namespace Mark

@[simp] theorem read_indent (levels : Nat) (s : String) :
    Mark.read (Code.indent levels s) = Mark.read s := by
  rw [Mark.read, words_indent, Mark.read]

theorem ofWords_plain {first : String} {rest : List String} (hclose : first ≠ "\x7d;")
    (hclass : first ≠ "class") (htypedef : first ≠ "typedef") :
    Mark.ofWords (first :: rest) = .plain := by
  unfold Mark.ofWords
  split <;> simp_all

/-- A line whose first character is not that of a class, a typedef or a closing brace. -/
theorem read_of_head {line : String} {c : Char} {cs : List Char} (h : line.toList = c :: cs)
    (hc : c ∉ [' ', '\x7d', 'c', 't']) : Mark.read line = .plain := by
  simp only [List.mem_cons, List.not_mem_nil, or_false, not_or] at hc
  obtain ⟨hblank, hclose, hclass, htypedef⟩ := hc
  obtain ⟨first, rest, hwords, hfirst⟩ := exists_words_of_head h hblank
  have hne : ∀ w : String, w.toList.head? ≠ some c → first ≠ w := by
    rintro w hw rfl
    exact hw hfirst
  rw [Mark.read, hwords]
  exact ofWords_plain (hne _ (by simpa using Ne.symm hclose))
    (hne _ (by simpa using Ne.symm hclass)) (hne _ (by simpa using Ne.symm htypedef))

/-- The same for a line with a known front. -/
theorem read_of_front {front : String}
    (h : (front.toList.head?.any fun c => !(['\x7d', ' ', 'c', 't'].contains c)) = true)
    (rest : String) : Mark.read (front ++ rest) = .plain := by
  cases hchars : front.toList with
  | nil => rw [hchars] at h; cases h
  | cons c cs =>
    rw [hchars] at h
    have hline : (front ++ rest).toList = c :: (cs ++ rest.toList) := by
      rw [String.toList_append, hchars, List.cons_append]
    refine read_of_head hline ?_
    simpa [and_left_comm] using h

theorem read_empty : Mark.read "" = .plain := by
  decide

theorem read_close : Mark.read "\x7d;" = .closes := by
  decide

/-- A line `class X {`. -/
theorem read_open {type : String} (hblank : ' ' ∉ type.toList) :
    Mark.read ("class " ++ type ++ " \x7b") = .opens type := by
  have hline : "class " ++ type ++ " \x7b" = "class" ++ " " ++ (type ++ " \x7b") := by
    rw [String.append_assoc]
    rfl
  have hrest : (type ++ " \x7b").toList = type.toList ++ ' ' :: ['\x7b'] := by
    rw [String.toList_append]
    rfl
  rw [Mark.read, hline, words_append (by decide) (by decide), hrest, Text.split_append,
    Text.split_of_not_mem hblank]
  simp [Mark.ofWords, Text.split]

theorem dropLastChar_semicolon (s : String) : dropLastChar (s ++ ";") = s := by
  rw [dropLastChar, String.toList_append]
  simp

/-- A line `class X;`. -/
theorem read_forward {type : String} (hblank : ' ' ∉ type.toList) :
    Mark.read ("class " ++ type ++ ";") = .declares type := by
  have hline : "class " ++ type ++ ";" = "class" ++ " " ++ (type ++ ";") := by
    rw [String.append_assoc]
    rfl
  have hword : ' ' ∉ (type ++ ";").toList := by
    rw [String.toList_append, List.mem_append]
    simp [hblank]
  rw [Mark.read, hline, words_append (by decide) (by decide), Text.split_of_not_mem hword]
  simp [Mark.ofWords, dropLastChar_semicolon]

/-- A line `typedef A X;`, whatever the type `A`. -/
theorem read_typedef (aliased : String) {type : String} (hblank : ' ' ∉ type.toList) :
    Mark.read ("typedef " ++ aliased ++ " " ++ type ++ ";") = .declares type := by
  have hline : "typedef " ++ aliased ++ " " ++ type ++ ";" =
      "typedef" ++ " " ++ (aliased ++ " " ++ (type ++ ";")) := by
    simp [← String.append_assoc]
  have hrest : (aliased ++ " " ++ (type ++ ";")).toList =
      aliased.toList ++ ' ' :: (type ++ ";").toList := by
    simp
  have hword : ' ' ∉ (type ++ ";").toList := by
    rw [String.toList_append, List.mem_append]
    simp [hblank]
  rw [Mark.read, hline, words_append (by decide) (by decide), hrest, Text.split_append,
    Text.split_of_not_mem hword]
  simp [Mark.ofWords, dropLastChar_semicolon]

end Mark

/-! ## Reading generated lines -/

theorem isVectorTypedef_indent (levels : Nat) (s : String) :
    isVectorTypedef (Code.indent levels s) = isVectorTypedef s := by
  rw [isVectorTypedef, words_indent, isVectorTypedef]

/-- Typedefs of vectors are not plain. -/
theorem not_isVectorTypedef_of_plain {line : String} (h : Mark.read line = .plain) :
    isVectorTypedef line = false := by
  cases hvector : isVectorTypedef line with
  | false => rfl
  | true =>
    rw [isVectorTypedef, beq_iff_eq] at hvector
    cases hwords : words line with
    | nil => rw [hwords] at hvector; cases hvector
    | cons first rest =>
      rw [hwords, List.take_succ_cons] at hvector
      obtain ⟨rfl, -⟩ := List.cons.inj hvector
      rw [Mark.read, hwords] at h
      simp [Mark.ofWords] at h

theorem isVectorTypedef_class (rest : String) : isVectorTypedef ("class " ++ rest) = false := by
  have hfront : "class " = "class" ++ " " := by decide
  rw [isVectorTypedef, hfront, words_append (by decide) (by decide)]
  simp

theorem Outline.read_indent (o : Outline) (levels : Nat) (line : String) :
    o.read (Code.indent levels line) = o.read line := by
  rw [Outline.read, Mark.read_indent, Outline.read]

theorem Outline.readAll_indent (o : Outline) (levels : Nat) (lines : List String) :
    o.readAll (lines.map (Code.indent levels)) = o.readAll lines := by
  induction lines generalizing o with
  | nil => rfl
  | cons l rest ih =>
    rw [List.map_cons, Outline.readAll_cons, Outline.read_indent, ih, Outline.readAll_cons]

/-- Reading the lines leads from one outline to another, and `G` holds of every typedef of a vector
among them, without its indentation, and of what has been read before it. -/
structure Reads (G : Outline → String → Prop) (o : Outline) (lines : List String) (o' : Outline) :
    Prop where
  each : ∀ before line after, lines = before ++ line :: after → isVectorTypedef line = true →
    G (o.readAll before) (bare line)
  result : o.readAll lines = o'

namespace Reads

variable {G : Outline → String → Prop} {o : Outline}

theorem nil : Reads G o [] o where
  each before line after h := by simp at h
  result := rfl

theorem append {o' o'' : Outline} {lines more : List String} (h : Reads G o lines o')
    (h' : Reads G o' more o'') : Reads G o (lines ++ more) o'' where
  each before line after hsplit hvector := by
    rcases List.append_eq_append_iff.mp hsplit with
      ⟨middle, hbefore, hmore⟩ | ⟨middle, hlines, hafter⟩
    · rw [hbefore, Outline.readAll_append, h.result]
      exact h'.each middle line after hmore hvector
    · cases middle with
      | nil =>
        rw [List.append_nil] at hlines
        rw [List.nil_append] at hafter
        rw [← hlines, h.result]
        exact h'.each [] line after hafter.symm hvector
      | cons first rest =>
        obtain ⟨rfl, rfl⟩ := List.cons.inj hafter
        exact h.each before _ rest hlines hvector
  result := by rw [Outline.readAll_append, h.result, h'.result]

/-- One line. -/
theorem line {l : String} (h : isVectorTypedef l = true → G o (bare l)) :
    Reads G o [l] (o.read l) where
  each before line after hsplit hvector := by
    obtain ⟨rfl, rfl, rfl⟩ : before = [] ∧ line = l ∧ after = [] := by
      cases before with
      | nil => simpa [eq_comm] using hsplit
      | cons first rest => simp at hsplit
    rw [Outline.readAll_nil]
    exact h hvector
  result := by rw [Outline.readAll_cons, Outline.readAll_nil]

/-- One line that is no typedef of a vector. -/
theorem other {l : String} (h : isVectorTypedef l = false) : Reads G o [l] (o.read l) :=
  line fun hvector => by rw [h] at hvector; cases hvector

theorem plain_line {l : String} (h : Mark.read l = .plain) : Reads G o [l] o := by
  have hline : Reads G o [l] (o.read l) := other (not_isVectorTypedef_of_plain h)
  rwa [Outline.read, h] at hline

/-- Plain lines change nothing. -/
theorem plain {lines : List String} (h : ∀ l ∈ lines, Mark.read l = .plain) :
    Reads G o lines o := by
  induction lines with
  | nil => exact nil
  | cons l rest ih =>
    rw [List.forall_mem_cons] at h
    have hboth := (plain_line h.1).append (ih h.2)
    rwa [List.singleton_append] at hboth

theorem append_plain {o' : Outline} {lines more : List String} (h : Reads G o lines o')
    (hmore : ∀ l ∈ more, Mark.read l = .plain) : Reads G o (lines ++ more) o' :=
  h.append (plain hmore)

theorem cons {o' o'' : Outline} {l : String} {rest : List String} (h : Reads G o [l] o')
    (h' : Reads G o' rest o'') : Reads G o (l :: rest) o'' := by
  have hboth := h.append h'
  rwa [List.singleton_append] at hboth

/-- Indentation does not matter. -/
theorem indent {o' : Outline} {lines : List String} (levels : Nat) (h : Reads G o lines o') :
    Reads G o (lines.map (Code.indent levels)) o' := by
  refine ⟨fun before line after hsplit hvector => ?_, by rw [Outline.readAll_indent, h.result]⟩
  obtain ⟨before', rest, rfl, rfl, hrest⟩ := List.map_eq_append_iff.mp hsplit
  obtain ⟨l, after', rfl, rfl, rfl⟩ := List.map_eq_cons_iff.mp hrest
  rw [Outline.readAll_indent, bare_indent]
  rw [isVectorTypedef_indent] at hvector
  exact h.each before' l after' rfl hvector

end Reads

/-! ## Lines of types and classes -/

theorem isVectorTypedef_scalar (primitive : Primitive) (type : String) :
    isVectorTypedef ("typedef " ++ primitive.cppName ++ " " ++ type ++ ";") = false := by
  have hline : "typedef " ++ primitive.cppName ++ " " ++ type ++ ";" =
      "typedef" ++ " " ++ (primitive.cppName ++ " " ++ (type ++ ";")) := by
    simp [← String.append_assoc]
  have hrest : (primitive.cppName ++ " " ++ (type ++ ";")).toList =
      primitive.cppName.toList ++ ' ' :: (type ++ ";").toList := by
    simp
  have hblank : ' ' ∉ primitive.cppName.toList := by
    rcases primitive with ⟨signed, width⟩ | _ | _ | _
    · cases signed <;> cases width <;> decide
    all_goals decide
  have hname : primitive.cppName ≠ "std::vector<" := by
    rcases primitive with ⟨signed, width⟩ | _ | _ | _
    · cases signed <;> cases width <;> decide
    all_goals decide
  rw [isVectorTypedef, hline, words_append (by decide) (by decide), hrest, Text.split_append,
    Text.split_of_not_mem hblank]
  simp [hname]

/-- The prototype with all slots filled. -/
theorem fill_prototype (s : Signature) (p : Placement) :
    s.prototype.fill p = p.storage ++ s.resultText ++ s.name ++ "(" ++
      (Signature.paramsLine s.params).fill p ++ ")" ++ s.constText ++ ";" := by
  simp only [Signature.prototype, Line.fill_text, Line.fill_append, Line.fill_ofSlot,
    Line.fill_ofText, Placement.value, String.append_assoc]

/-- The declaration of a helper begins with one of three words. -/
theorem exists_prototype_front {target : Target} {p : Placement}
    (hp : p.storage = "" ∨ p.storage = "static ") {type : String} {signature : Signature}
    (h : signature ∈ signatures target type) :
    ∃ front ∈ ["static ", "void ", "bool "], ∃ rest, signature.prototype.fill p = front ++ rest := by
  have hresult : signature.resultText = "void " ∨ signature.resultText = "bool " := by
    simp only [signatures, List.mem_cons, List.not_mem_nil, or_false] at h
    rcases h with rfl | rfl | rfl | rfl | rfl
    · exact .inl (show (if ("void" : String) = "" then "" else "void" ++ " ") = _ by decide)
    all_goals
      exact .inr (show (if ("bool" : String) = "" then "" else "bool" ++ " ") = _ by decide)
  rw [fill_prototype]
  simp only [String.append_assoc]
  rcases hp with hp | hp
  · rw [hp, String.empty_append]
    rcases hresult with hresult | hresult
    all_goals
      rw [hresult]
      exact ⟨_, by simp, _, rfl⟩
  · rw [hp]
    exact ⟨_, by simp, _, rfl⟩

theorem read_prototype {target : Target} {p : Placement}
    (hp : p.storage = "" ∨ p.storage = "static ") {type : String} {signature : Signature}
    (h : signature ∈ signatures target type) :
    Mark.read (signature.prototype.fill p) = .plain := by
  obtain ⟨front, hfront, rest, hline⟩ := exists_prototype_front hp h
  rw [hline]
  simp only [List.mem_cons, List.not_mem_nil, or_false] at hfront
  rcases hfront with rfl | rfl | rfl
  all_goals exact Mark.read_of_front (by decide) _

theorem read_prototypes {target : Target} {p : Placement}
    (hp : p.storage = "" ∨ p.storage = "static ") {type line : String}
    (h : line ∈ (prototypes target type).map (Line.fill p)) : Mark.read line = .plain := by
  obtain ⟨prototype, hprototype, rfl⟩ := List.mem_map.mp h
  obtain ⟨signature, hsignature, rfl⟩ := List.mem_map.mp hprototype
  exact read_prototype hp hsignature

theorem reads_prototypes {G : Outline → String → Prop} {o : Outline} (target : Target)
    (p : Placement) {type : String} (hp : p.storage = "" ∨ p.storage = "static ") :
    Reads G o ((prototypes target type).map (Line.fill p)) o :=
  Reads.plain fun _ hl => read_prototypes hp hl

theorem read_methodDeclarations {type : String} (hblank : ' ' ∉ type.toList) {line : String}
    (h : line ∈ methodDeclarations type) : Mark.read line = .plain := by
  simp only [methodDeclarations, List.mem_cons, List.not_mem_nil, or_false] at h
  rcases h with rfl | rfl | rfl | rfl | rfl
  · have hbracket : '(' ∈ (type ++ "();").toList := by
      rw [String.toList_append, List.mem_append]
      exact .inr (by decide)
    have hword : ' ' ∉ (type ++ "();").toList := by
      rw [String.toList_append, List.mem_append, not_or]
      exact ⟨hblank, by decide⟩
    have hne : ∀ w : String, '(' ∉ w.toList → type ++ "();" ≠ w := by
      rintro w hw rfl
      exact hw hbracket
    rw [Mark.read, words_word (hne _ (by decide)) hword]
    exact Mark.ofWords_plain (hne _ (by decide)) (hne _ (by decide))
      (hne _ (by decide))
  · simp only [String.append_assoc]
    exact Mark.read_of_front (by decide) _
  · simp only [String.append_assoc]
    exact Mark.read_of_front (by decide) _
  · decide
  · decide

theorem read_dataMembers {target : Target} {type : String} {members : List Member} {line : String}
    (h : line ∈ dataMembers target type members) : Mark.read line = .plain := by
  simp only [dataMembers, List.mem_append, List.mem_map, List.mem_singleton] at h
  rcases h with ⟨m, -, rfl⟩ | rfl
  · rw [QualifiedName.absolute]
    simp only [String.append_assoc]
    exact Mark.read_of_front (by decide) _
  · simp only [String.append_assoc]
    exact Mark.read_of_front (by decide) _

/-- The lines of a class open the class, then come the lines of its member types, then it is
closed. -/
theorem reads_classLines {G : Outline → String → Prop} {target : Target} {type : String}
    {members : List Member} {placed : List PlacedFragment} {o o' : Outline}
    (hblank : ' ' ∉ type.toList)
    (h : Reads G (o.read ("class " ++ type ++ " \x7b"))
      (placed.flatMap PlacedFragment.forward ++ placed.flatMap PlacedFragment.declarations) o') :
    Reads G o (classLines target type members placed) (o'.read "\x7d;") := by
  have hinside : Reads G (o.read ("class " ++ type ++ " \x7b"))
      (placed.flatMap PlacedFragment.forward ++ placed.flatMap PlacedFragment.declarations ++
        (if (placed.flatMap PlacedFragment.forward ++
          placed.flatMap PlacedFragment.declarations).isEmpty then [] else [""]) ++
        methodDeclarations type ++ [""] ++ dataMembers target type members) o' := by
    refine (((h.append_plain ?_).append_plain ?_).append_plain ?_).append_plain ?_
    · intro l hl
      split at hl
      · cases hl
      · rw [List.mem_singleton] at hl
        rw [hl, Mark.read_empty]
    · exact fun l hl => read_methodDeclarations hblank hl
    · intro l hl
      rw [List.mem_singleton.mp hl, Mark.read_empty]
    · exact fun l hl => read_dataMembers hl
  have hopen : Reads G o ["class " ++ type ++ " \x7b"] (o.read ("class " ++ type ++ " \x7b")) := by
    refine Reads.other ?_
    rw [String.append_assoc]
    exact isVectorTypedef_class _
  have hpublic : Mark.read " public:" = .plain := by decide
  have hclose : isVectorTypedef "\x7d;" = false := by decide
  exact hopen.cons ((Reads.plain_line hpublic).cons ((hinside.indent 1).append (Reads.other hclose)))

/-! ## Lines around the declarations -/

theorem mem_paragraph {l : String} {lines : List String} (h : l ∈ paragraph lines) :
    l ∈ lines ∨ l = "" := by
  unfold paragraph at h
  split at h
  · cases h
  · rw [List.mem_append, List.mem_singleton] at h
    exact h

theorem Reads.paragraph {G : Outline → String → Prop} {o o' : Outline} {lines : List String}
    (h : Reads G o lines o') : Reads G o (paragraph lines) o' := by
  unfold ConfigForge.paragraph
  split
  · next hempty =>
    rw [List.isEmpty_iff.mp hempty] at h
    exact h
  · refine h.append_plain fun l hl => ?_
    rw [List.mem_singleton.mp hl, Mark.read_empty]

theorem read_includeLine (file : String) : Mark.read (includeLine file) = .plain := by
  unfold includeLine
  split
  · exact Mark.read_of_front (by decide) _
  · exact Mark.read_of_front (by decide) _
  · rw [String.append_assoc]
    exact Mark.read_of_front (by decide) _

theorem read_openNamespaces {names : List String} {l : String} (h : l ∈ openNamespaces names) :
    Mark.read l = .plain := by
  rcases mem_paragraph h with h | rfl
  · obtain ⟨name, -, rfl⟩ := List.mem_map.mp h
    rw [String.append_assoc]
    exact Mark.read_of_front (by decide) _
  · exact Mark.read_empty

theorem read_closeNamespaces {names : List String} {l : String} (h : l ∈ closeNamespaces names) :
    Mark.read l = .plain := by
  rcases mem_paragraph h with h | rfl
  · obtain ⟨name, -, rfl⟩ := List.mem_map.mp h
    have hfront : "\x7d  // namespace " = "\x7d" ++ " " ++ " // namespace " := by decide
    rw [hfront, String.append_assoc, Mark.read, words_append (by decide) (by decide)]
    exact Mark.ofWords_plain (by decide) (by decide) (by decide)
  · exact Mark.read_empty

/-- The lines of a header before the first declaration. -/
def headerFront (o : Options) : List String :=
  [banner, "", "#ifndef " ++ o.includeGuard, "#define " ++ o.includeGuard, ""] ++
    standardHeaders.map systemInclude ++ [""] ++
    systemInclude o.jsonHeader :: o.headerIncludes.map includeLine ++ [""] ++
    openNamespaces o.namespaces

theorem read_headerFront {o : Options} {l : String} (h : l ∈ headerFront o) :
    Mark.read l = .plain := by
  have hbanner : Mark.read banner = .plain := by decide
  have hinclude : ∀ file, Mark.read (systemInclude file) = .plain := fun file => by
    rw [systemInclude, String.append_assoc]
    exact Mark.read_of_front (by decide) _
  simp only [headerFront, List.mem_append, List.mem_cons, List.not_mem_nil, or_false,
    List.mem_map] at h
  rcases h with ((((h | h) | rfl) | h) | rfl) | h
  · rcases h with rfl | rfl | rfl | rfl | rfl
    · exact hbanner
    · exact Mark.read_empty
    · exact Mark.read_of_front (by decide) _
    · exact Mark.read_of_front (by decide) _
    · exact Mark.read_empty
  · obtain ⟨file, -, rfl⟩ := h
    exact hinclude file
  · exact Mark.read_empty
  · rcases h with rfl | ⟨file, -, rfl⟩
    · exact hinclude _
    · exact read_includeLine file
  · exact Mark.read_empty
  · exact read_openNamespaces h

end ConfigForge
