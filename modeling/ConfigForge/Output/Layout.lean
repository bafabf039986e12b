import ConfigForge.Generation.Walk
import ConfigForge.Output.Options
import ConfigForge.Schema.Reader

/-!
# The generated files

The units of a schema go into two files. The header holds, between include guards and inside the
target namespaces, the forward declarations of all units and then the declarations of each unit.
The source includes the header and holds the definitions.

Results:

* `length_mergePairs_lt`: merging pairs of underscores shortens a text that has one.
-/

namespace ConfigForge

open Code (PlacedFragment)

/-! ## Include guards -/

/-- A character of a guard: letters and digits in upper case, everything else an underscore. Only
ASCII letters and digits count. -/
def guardChar (c : Char) : Char :=
  if c.isAlphanum then c.toUpper else '_'

/-- Whether two underscores follow each other. -/
def hasUnderscorePair : List Char → Bool
  | [] => false
  | [_] => false
  | c :: d :: rest => (c == '_' && d == '_') || hasUnderscorePair (d :: rest)

/-- A text with one underscore for every two that follow each other, from left to right. -/
def mergePairs : List Char → List Char
  | [] => []
  | [c] => [c]
  | c :: d :: rest =>
    if c = '_' ∧ d = '_' then '_' :: mergePairs rest else c :: mergePairs (d :: rest)

theorem length_mergePairs_le (cs : List Char) : (mergePairs cs).length ≤ cs.length := by
  fun_induction mergePairs cs with
  | case1 => exact Nat.le_refl _
  | case2 c => exact Nat.le_refl _
  | case3 c d rest _ ih =>
    simp only [List.length_cons]
    omega
  | case4 c d rest _ ih => exact Nat.succ_le_succ ih

theorem length_mergePairs_lt {cs : List Char} (h : hasUnderscorePair cs) :
    (mergePairs cs).length < cs.length := by
  fun_induction mergePairs cs with
  | case1 => simp [hasUnderscorePair] at h
  | case2 c => simp [hasUnderscorePair] at h
  | case3 c d rest _ _ =>
    have := length_mergePairs_le rest
    simp only [List.length_cons]
    omega
  | case4 c d rest hne ih =>
    have hrest : hasUnderscorePair (d :: rest) := by simpa [hasUnderscorePair, hne] using h
    simpa using ih hrest

/-- A text with one underscore for every run of them: pairs are merged while there are any. -/
def squeezeUnderscores (cs : List Char) : List Char :=
  if h : hasUnderscorePair cs then
    have := length_mergePairs_lt h
    squeezeUnderscores (mergePairs cs)
  else cs
termination_by cs.length

/-- A guard that starts with a digit gets a word in front. -/
def leadByLetter : List Char → List Char
  | [] => []
  | c :: rest => if c.isDigit then "CONFIG_".toList ++ c :: rest else c :: rest

/-- The guard of a header (`include_guard`): its path and name, from the first letter or digit
on. -/
def Options.includeGuard (o : Options) : String :=
  let name := o.includePath ++ "_" ++ o.baseName ++ "_H_"
  let body := name.toList.dropWhile fun c => !c.isAlphanum
  String.ofList (leadByLetter (squeezeUnderscores (body.map guardChar)))

/-! ## Parts of the files -/

/-- The first line of both files. -/
def banner : String :=
  "// Generated by configen. Do not edit."

/-- The standard headers that generated code uses. -/
def standardHeaders : List String :=
  ["cstddef", "cstdint", "functional", "string", "vector"]

/-- An include of a file (`include_line`). A name without its brackets or quotes gets quotes. -/
def includeLine (file : String) : String :=
  match file.toList with
  | '<' :: _ => "#include " ++ file
  | '"' :: _ => "#include " ++ file
  | _ => "#include \"" ++ file ++ "\""

/-- An include of a file in angle brackets. -/
def systemInclude (file : String) : String :=
  "#include <" ++ file ++ ">"

/-- An include of a file in quotes. -/
def quotedInclude (file : String) : String :=
  "#include \"" ++ file ++ "\""

/-- Lines with an empty line after them, if there are any. -/
def paragraph (lines : List String) : List String :=
  if lines.isEmpty then [] else lines ++ [""]

/-- The lines that open the target namespaces (`namespace_open`). -/
def openNamespaces (names : List String) : List String :=
  paragraph (names.map fun name => "namespace " ++ name ++ " \x7b")

/-- The lines that close the target namespaces (`namespace_close`). -/
def closeNamespaces (names : List String) : List String :=
  paragraph (names.reverse.map fun name => "\x7d  // namespace " ++ name)

/-! ## The files -/

/-- The lines of the header (`header`). -/
def headerLines (o : Options) (units : List PlacedFragment) : List String :=
  [banner, "", "#ifndef " ++ o.includeGuard, "#define " ++ o.includeGuard, ""] ++
    standardHeaders.map systemInclude ++ [""] ++
    systemInclude o.jsonHeader :: o.headerIncludes.map includeLine ++ [""] ++
    openNamespaces o.namespaces ++
    paragraph (units.flatMap PlacedFragment.forward) ++
    units.flatMap (fun u => paragraph u.declarations) ++
    closeNamespaces o.namespaces ++
    ["#endif  // " ++ o.includeGuard]

/-- The lines of the source (`source`). -/
def sourceLines (o : Options) (units : List PlacedFragment) : List String :=
  [banner, "", quotedInclude o.headerInclude] ++
    (if o.sourceIncludes.isEmpty then [] else "" :: o.sourceIncludes.map includeLine) ++ [""] ++
    openNamespaces o.namespaces ++
    units.flatMap PlacedFragment.definitions ++
    closeNamespaces o.namespaces

/-- The texts of the two files. -/
structure GeneratedCode where
  header : String
  source : String
deriving DecidableEq, Repr

/-- The files with the given units (`assemble`). -/
def layout (o : Options) (units : Entries CodeUnit) : GeneratedCode :=
  let fragments := units.map fun entry => entry.2.fragment
  ⟨Text.unlines (headerLines o fragments), Text.unlines (sourceLines o fragments)⟩

/-- The number of bytes of both files in UTF-8. -/
def GeneratedCode.size (code : GeneratedCode) : Nat :=
  code.header.utf8ByteSize + code.source.utf8ByteSize

/-- The files of a schema (`generate`). -/
def generate (o : Options) (schema : Schema) : Except GenerationError GeneratedCode :=
  (generateUnits o.target schema).map (layout o)

/-- The files of a schema given as JSON text (`generate_from_json`). -/
def generateFromText (o : Options) (text : String) : Except GenerationError GeneratedCode := do
  let schema ← (Schema.ofText text).mapError .schema
  generate o schema

end ConfigForge
