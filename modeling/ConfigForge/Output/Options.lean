import ConfigForge.Emit.TypeFunctions
import ConfigForge.Json.Document

/-!
# Options of the output

The options say which namespaces enclose the generated code, how its files are called and included,
and which JSON document type it uses. They can be built step by step or read from a JSON text. The
text is an object with some of the options by name, or an array with the first few of them in
order; every option that is left out keeps its default. Names that are no option are passed over,
and so are their values, whatever they are.
-/

namespace ConfigForge

open Json (Document TextUnit)

/-- The options of the output. -/
structure Options where
  /-- The enclosing namespaces, outermost first. -/
  namespaces : List String
  /-- The name of both files without their endings. -/
  baseName : String
  /-- The directory under which the source includes the header. -/
  includePath : String
  /-- What the header includes besides what it needs itself. -/
  headerIncludes : List String
  /-- What the source includes besides the header. -/
  sourceIncludes : List String
  /-- The JSON document type. -/
  jsonType : String
  /-- The header of the JSON document type. -/
  jsonHeader : String
deriving DecidableEq, Repr

/-- A text without the given character at its end. -/
def dropTrailing (c : Char) (cs : List Char) : List Char :=
  (cs.reverse.dropWhile (· = c)).reverse

namespace Options

/-- The default options. -/
def default : Options where
  namespaces := []
  baseName := "config"
  includePath := ""
  headerIncludes := []
  sourceIncludes := []
  jsonType := "nlohmann::ordered_json"
  jsonHeader := "nlohmann/json.hpp"

/-- What code is written for under these options. -/
def target (o : Options) : Emit.Target :=
  ⟨o.jsonType, o.namespaces⟩

/-! ## File names -/

/-- The file name of the header (`header_file_name`). -/
def headerFileName (o : Options) : String :=
  o.baseName ++ ".h"

/-- The file name of the source (`source_file_name`). -/
def sourceFileName (o : Options) : String :=
  o.baseName ++ ".cc"

/-- How the source includes the header (`header_include`): below the include path, whose slashes at
the end do not count. -/
def headerInclude (o : Options) : String :=
  let directory := dropTrailing '/' o.includePath.toList
  if directory = [] then o.headerFileName
  else String.ofList directory ++ "/" ++ o.headerFileName

/-! ## Steps -/

/-- The options with other namespaces. -/
def withNamespaces (o : Options) (namespaces : List String) : Options :=
  { o with namespaces := namespaces }

/-- The options with another base name. -/
def withBaseName (o : Options) (name : String) : Options :=
  { o with baseName := name }

/-- The options with another include path. -/
def withIncludePath (o : Options) (path : String) : Options :=
  { o with includePath := path }

/-- The options with other includes of the header. -/
def withHeaderIncludes (o : Options) (includes : List String) : Options :=
  { o with headerIncludes := includes }

/-- The options with other includes of the source. -/
def withSourceIncludes (o : Options) (includes : List String) : Options :=
  { o with sourceIncludes := includes }

/-- The options with another JSON document type. -/
def withJsonType (o : Options) (type : String) : Options :=
  { o with jsonType := type }

/-- The options with another header of the JSON document type. -/
def withJsonHeader (o : Options) (header : String) : Options :=
  { o with jsonHeader := header }

/-- The options with one more include of the header. -/
def addHeaderInclude (o : Options) (file : String) : Options :=
  o.withHeaderIncludes (o.headerIncludes ++ [file])

/-- The options with one more include of the source. -/
def addSourceInclude (o : Options) (file : String) : Options :=
  o.withSourceIncludes (o.sourceIncludes ++ [file])

/-! ## Reading -/

/-- The single options. -/
inductive Field where
  | namespaces
  | baseName
  | includePath
  | headerIncludes
  | sourceIncludes
  | jsonType
  | jsonHeader
deriving DecidableEq, Repr

namespace Field

/-- The options in the order in which an array gives them. -/
def all : List Field :=
  [namespaces, baseName, includePath, headerIncludes, sourceIncludes, jsonType, jsonHeader]

/-- The name under which an object gives an option. -/
def key : Field → String
  | namespaces => "namespace"
  | baseName => "base_name"
  | includePath => "include_path"
  | headerIncludes => "header_includes"
  | sourceIncludes => "source_includes"
  | jsonType => "json_type"
  | jsonHeader => "json_header"

/-- The option with a name. -/
def ofKey? (name : String) : Option Field :=
  all.find? (·.key = name)

end Field

/-- The text of a JSON string. -/
def text? : Document → Option String
  | .string units => (Json.decodeText units).map String.ofList
  | _ => none

/-- The texts of a JSON array of strings. -/
def texts? : Document → Option (List String)
  | .array items => items.mapM text?
  | _ => none

/-- The options with one of them read from a document. -/
def read? (o : Options) (field : Field) (d : Document) : Option Options :=
  match field with
  | .namespaces => (texts? d).map o.withNamespaces
  | .baseName => (text? d).map o.withBaseName
  | .includePath => (text? d).map o.withIncludePath
  | .headerIncludes => (texts? d).map o.withHeaderIncludes
  | .sourceIncludes => (texts? d).map o.withSourceIncludes
  | .jsonType => (text? d).map o.withJsonType
  | .jsonHeader => (text? d).map o.withJsonHeader

/-- The options with those of an object; `seen` have been given before. An option is given at most
once. -/
def readFields? (o : Options) (seen : List Field) : List (List TextUnit × Document) → Option Options
  | [] => some o
  | (name, d) :: rest => do
    let name ← Json.decodeText name
    match Field.ofKey? (String.ofList name) with
    | none => o.readFields? seen rest
    | some field =>
      if seen.contains field then none
      else (← o.read? field d).readFields? (field :: seen) rest

/-- The options with those of an array, which are the given fields in their order. -/
def readItems? (o : Options) : List Field → List Document → Option Options
  | _, [] => some o
  | [], _ :: _ => none
  | field :: fields, d :: rest => do (← o.read? field d).readItems? fields rest

/-- The options that a document gives. -/
def ofDocument? : Document → Option Options
  | .object fields => default.readFields? [] fields
  | .array items => default.readItems? Field.all items
  | _ => none

/-- The options that a JSON text gives. -/
def ofText? (text : String) : Option Options :=
  (Document.ofText? text).bind ofDocument?

end Options

end ConfigForge
