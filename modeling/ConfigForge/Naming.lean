import ConfigForge.Text.Blank
import ConfigForge.Text.Split
import ConfigForge.Text.Upper

/-!
# Names of members, types and helpers

A schema member has a name as written. The C++ type of the member has a CamelCase name made from
it, and every type comes with four families of helper functions named after the type. A member may
be used as a C++ data member only if its name is an identifier and is not reserved.

Results:

* `mem_typeNames_iff`: the names that a type brings into its scope are its own name and the names
  of its helpers.
-/

namespace ConfigForge

/-! ## Type names -/

/-- A piece of a name with its first character in upper case. -/
def capitalize : List Char → List Char
  | [] => []
  | c :: cs => Text.upper c ++ cs

/-- The type name of a member name: blanks at the ends are dropped, the rest is cut at the
underscores, and the capitalized pieces are put together. -/
def typeNameChars (name : List Char) : List Char :=
  (Text.split '_' (Text.trim name)).flatMap capitalize

/-- `typeNameChars` on texts (`normalize`). -/
def typeName (name : String) : String :=
  String.ofList (typeNameChars name.toList)

/-! ## Identifiers -/

/-- ASCII letters. -/
def isLetter (c : Char) : Bool :=
  c.isAlpha

/-- The characters of an identifier: ASCII letters, ASCII digits and the underscore. -/
def isWordChar (c : Char) : Bool :=
  c.isAlphanum || c == '_'

/-- Whether a text can be used as an identifier as it stands: a letter or an underscore, then word
characters, and not underscores alone. -/
def isIdentifierChars : List Char → Bool
  | [] => false
  | c :: cs =>
    (isLetter c || c == '_') && (c :: cs).all isWordChar && (c :: cs).any (· != '_')

/-- `isIdentifierChars` on texts (`is_valid_identifier`). -/
def isIdentifier (name : String) : Bool :=
  isIdentifierChars name.toList

/-! ## Helpers -/

/-- The families of helper functions of a type. `validate` has two members, one for values and one
for JSON nodes. -/
inductive Helper where
  | init
  | validate
  | toJson
  | jsonTo
deriving DecidableEq, Repr

/-- The name of a helper of the type called `type`. -/
def Helper.name (h : Helper) (type : String) : String :=
  match h with
  | .init => "Init" ++ type
  | .validate => "Validate" ++ type
  | .toJson => type ++ "ToJson"
  | .jsonTo => "JsonTo" ++ type

/-- A list without the elements that equal their right neighbour. -/
def dropAdjacentRepeats : List String → List String
  | [] => []
  | [s] => [s]
  | s :: t :: rest =>
    if s = t then dropAdjacentRepeats (t :: rest) else s :: dropAdjacentRepeats (t :: rest)

/-- The names that a type brings into the scope that declares it (`scope_names`). The two
conversions of a type such as `Json` share one name, `JsonToJson`, and overload each other. -/
def typeNames (type : String) : List String :=
  dropAdjacentRepeats
    [type, Helper.init.name type, Helper.validate.name type, Helper.toJson.name type,
      Helper.jsonTo.name type]

/-! ## Reserved names -/

/-- The members that every generated class declares besides its data members. -/
def classMemberNames : List String :=
  ["ToString", "FromString", "pre_update"]

/-- The keywords of C++. -/
def keywords : List String :=
  ["alignas", "alignof", "and", "and_eq", "asm", "auto", "bitand", "bitor", "bool", "break",
   "case", "catch", "char", "char8_t", "char16_t", "char32_t", "class", "compl", "concept",
   "const", "consteval", "constexpr", "constinit", "const_cast", "continue", "co_await",
   "co_return", "co_yield", "decltype", "default", "delete", "do", "double", "dynamic_cast",
   "else", "enum", "explicit", "export", "extern", "false", "float", "for", "friend", "goto",
   "if", "inline", "int", "long", "mutable", "namespace", "new", "noexcept", "not", "not_eq",
   "nullptr", "operator", "or", "or_eq", "private", "protected", "public", "register",
   "reinterpret_cast", "requires", "return", "short", "signed", "sizeof", "static",
   "static_assert", "static_cast", "struct", "switch", "template", "this", "thread_local",
   "throw", "true", "try", "typedef", "typeid", "typename", "union", "unsigned", "using",
   "virtual", "void", "volatile", "wchar_t", "while", "xor", "xor_eq"]

/-- Whether a name cannot be the name of a data member (`is_reserved_member_name`): it is a keyword
or one of the members of every class. -/
def isReserved (name : String) : Bool :=
  keywords.contains name || classMemberNames.contains name

/-! ## Small laws -/

theorem mem_dropAdjacentRepeats {s : String} {names : List String} :
    s ∈ dropAdjacentRepeats names ↔ s ∈ names := by
  fun_induction dropAdjacentRepeats names with
  | case1 => simp
  | case2 => simp
  | case3 s' rest ih => simp_all
  | case4 s' t rest h ih => simp_all

theorem mem_typeNames_iff {s type : String} :
    s ∈ typeNames type ↔ s = type ∨ ∃ h : Helper, s = h.name type := by
  rw [typeNames, mem_dropAdjacentRepeats]
  constructor
  · intro h
    simp only [List.mem_cons, List.not_mem_nil, or_false] at h
    rcases h with h | h | h | h | h
    · exact .inl h
    all_goals exact .inr ⟨_, h⟩
  · rintro (h | ⟨helper, h⟩)
    · simp [h]
    · cases helper <;> simp [h]

end ConfigForge
