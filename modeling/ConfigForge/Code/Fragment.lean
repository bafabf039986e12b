import ConfigForge.Code.Line

/-!
# Fragments of code

The code of one or more types has three parts: forward declarations and typedefs, declarations, and
function definitions. The parts are kept apart because they end up in different places.

Results:

* `place_append`: placing goes through appending.
* `indent_zero`: indenting by nothing changes nothing.
-/

namespace ConfigForge.Code

/-- The parts of a fragment. -/
inductive Part where
  | forward
  | declarations
  | definitions
deriving DecidableEq, Repr

/-- Code whose place is still open. -/
structure Fragment where
  /-- Forward declarations and typedefs. -/
  forward : List Line
  /-- Classes and prototypes. -/
  declarations : List Line
  /-- Function definitions. -/
  definitions : List Line
deriving DecidableEq, Repr

/-- Code in its place. -/
structure PlacedFragment where
  /-- Forward declarations and typedefs. -/
  forward : List String
  /-- Classes and prototypes. -/
  declarations : List String
  /-- Function definitions. -/
  definitions : List String
deriving DecidableEq, Repr

/-- The indentation of one level. -/
def indentUnit : String :=
  "  "

/-- The indentation of so many levels. -/
def indentation : Nat → String
  | 0 => ""
  | levels + 1 => indentUnit ++ indentation levels

/-- A text indented by so many levels; an empty text stays empty. -/
def indent (levels : Nat) (s : String) : String :=
  if s = "" then "" else indentation levels ++ s

theorem indent_zero (s : String) : indent 0 s = s := by
  unfold indent indentation
  split
  · next h => exact h.symm
  · simp

namespace Fragment

/-- No code. -/
def empty : Fragment :=
  ⟨[], [], []⟩

/-- Whether there is no line in any part. -/
def isEmpty (f : Fragment) : Bool :=
  f.forward.isEmpty && f.declarations.isEmpty && f.definitions.isEmpty

/-- The fragment with lines at the end of a part. -/
def extend (f : Fragment) (part : Part) (lines : List Line) : Fragment :=
  match part with
  | .forward => { f with forward := f.forward ++ lines }
  | .declarations => { f with declarations := f.declarations ++ lines }
  | .definitions => { f with definitions := f.definitions ++ lines }

/-- The fragment with a line at the end of a part. -/
def push (f : Fragment) (part : Part) (line : Line) : Fragment :=
  f.extend part [line]

/-- The fragment with placed lines, indented, at the end of a part (`push_resolved`). -/
def pushPlaced (f : Fragment) (part : Part) (lines : List String) (levels : Nat) : Fragment :=
  f.extend part (lines.map fun s => Line.ofText (indent levels s))

/-- Two fragments of one place, part by part. -/
def append (f g : Fragment) : Fragment :=
  ⟨f.forward ++ g.forward, f.declarations ++ g.declarations, f.definitions ++ g.definitions⟩

/-- The fragment with all slots filled (`bind`). -/
def place (p : Placement) (f : Fragment) : PlacedFragment :=
  ⟨f.forward.map (Line.fill p), f.declarations.map (Line.fill p), f.definitions.map (Line.fill p)⟩

end Fragment

/-- Whether there is no line in any part. -/
def PlacedFragment.isEmpty (f : PlacedFragment) : Bool :=
  f.forward.isEmpty && f.declarations.isEmpty && f.definitions.isEmpty

/-- Two placed fragments, part by part. -/
def PlacedFragment.append (f g : PlacedFragment) : PlacedFragment :=
  ⟨f.forward ++ g.forward, f.declarations ++ g.declarations, f.definitions ++ g.definitions⟩

theorem Fragment.place_append (p : Placement) (f g : Fragment) :
    (f.append g).place p = (f.place p).append (g.place p) := by
  simp [Fragment.append, Fragment.place, PlacedFragment.append]

end ConfigForge.Code
