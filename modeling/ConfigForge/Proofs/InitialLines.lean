import ConfigForge.Proofs.BalancedCode
import ConfigForge.Proofs.Calls
import ConfigForge.Proofs.Defaults

/-!
# Where defaults show

Two schemas that differ in the defaults of their scalars only are generated side by side. Their
headers are the same. Their sources are the same line by line, except for the one line in the body of
`Init` of a scalar whose default differs. A default can keep a schema from giving code, but only by
lying outside of its limits.

Results:

* `SameBut.exists_of_ne`: where two texts that are the same but for some bodies differ.
* `sameBut_sourceLines`: the sources of two such schemas are the same but for bodies of `Init`.
* `defaults_change_initial_values_only`: the comparison of the generated files.
-/

namespace ConfigForge

open Code (Line Placement)
open Emit Cpp

/-! ## Lines of a text -/

/-- The lines of a text, with the empty one after the last line feed. -/
def textLines (text : String) : List String :=
  (Text.split '\n' text.toList).map String.ofList

theorem textLines_append (line text : String) :
    textLines (line ++ "\n" ++ text) = textLines line ++ textLines text := by
  have hlist : (line ++ "\n" ++ text).toList = line.toList ++ '\n' :: text.toList := by
    simp
  rw [textLines, hlist, Text.split_append, List.map_append]
  rfl

theorem textLines_of_not_mem {line : String} (h : '\n' ∉ line.toList) : textLines line = [line] := by
  rw [textLines, Text.split_of_not_mem h, List.map_singleton, String.ofList_toList]

theorem foldl_unlines (lines : List String) (front : String) :
    lines.foldl (fun text line => text ++ line ++ "\n") front = front ++ Text.unlines lines := by
  induction lines generalizing front with
  | nil => simp [Text.unlines]
  | cons line rest ih =>
    have hrest : Text.unlines (line :: rest) = "" ++ line ++ "\n" ++ Text.unlines rest :=
      ih ("" ++ line ++ "\n")
    rw [List.foldl_cons, ih, hrest, String.empty_append]
    simp only [String.append_assoc]

theorem textLines_unlines (lines : List String) :
    textLines (Text.unlines lines) = lines.flatMap textLines ++ [""] := by
  induction lines with
  | nil => rfl
  | cons line rest ih =>
    rw [Text.unlines, List.foldl_cons, foldl_unlines, String.empty_append, textLines_append, ih,
      List.flatMap_cons, List.append_assoc]

/-! ## Lines that are the same but for some bodies -/

/-- Two lists of lines that are the same, except for bodies of one line: `B` tells which head such a
body stands under and which lines it is in the one list and in the other. -/
inductive SameBut (B : String → String → String → Prop) : List String → List String → Prop where
  | nil : SameBut B [] []
  | same {lines lines' : List String} (line : String) (rest : SameBut B lines lines') :
    SameBut B (line :: lines) (line :: lines')
  | body {head line line' : String} {lines lines' : List String} (h : B head line line')
    (rest : SameBut B lines lines') :
    SameBut B (head :: line :: "\x7d" :: lines) (head :: line' :: "\x7d" :: lines')

namespace SameBut

variable {B : String → String → String → Prop} {lines lines' more more' : List String}

theorem refl (lines : List String) : SameBut B lines lines := by
  induction lines with
  | nil => exact .nil
  | cons line rest ih => exact .same line ih

theorem append (h : SameBut B lines lines') (h' : SameBut B more more') :
    SameBut B (lines ++ more) (lines' ++ more') := by
  induction h with
  | nil => exact h'
  | same line _ ih => exact .same line ih
  | body hbody _ ih => exact .body hbody ih

theorem flatMap {α : Type} {R : α → α → Prop} {l l' : List α} (h : List.Forall₂ R l l')
    {f : α → List String} (hf : ∀ a a', R a a' → SameBut B (f a) (f a')) :
    SameBut B (l.flatMap f) (l'.flatMap f) := by
  induction h with
  | nil => exact .nil
  | cons hhead _ ih =>
    rw [List.flatMap_cons, List.flatMap_cons]
    exact (hf _ _ hhead).append ih

theorem length_eq (h : SameBut B lines lines') : lines.length = lines'.length := by
  induction h with
  | nil => rfl
  | same line _ ih => simp [ih]
  | body _ _ ih => simp [ih]

/-- The lines of the texts, if no line of a body and no head of one is broken. -/
theorem flatMap_textLines (h : SameBut B lines lines')
    (hB : ∀ head line line', B head line line' →
      '\n' ∉ head.toList ∧ '\n' ∉ line.toList ∧ '\n' ∉ line'.toList) :
    SameBut B (lines.flatMap textLines) (lines'.flatMap textLines) := by
  induction h with
  | nil => exact .nil
  | same line _ ih =>
    rw [List.flatMap_cons, List.flatMap_cons]
    exact (refl _).append ih
  | body hbody _ ih =>
    obtain ⟨hhead, hline, hline'⟩ := hB _ _ _ hbody
    have hend : textLines "\x7d" = ["\x7d"] := textLines_of_not_mem (by decide)
    simp only [List.flatMap_cons, textLines_of_not_mem hhead, textLines_of_not_mem hline,
      textLines_of_not_mem hline', hend]
    exact .body hbody ih

/-- **Where lines differ.** Lines that are the same but for some bodies differ in bodies only. -/
theorem exists_of_ne (h : SameBut B lines lines') {i : Nat} (hne : lines[i]? ≠ lines'[i]?) :
    ∃ k head line line', i = k + 1 ∧ B head line line' ∧
      (lines[k]? = some head ∧ lines[k + 1]? = some line ∧ lines[k + 2]? = some "\x7d") ∧
      lines'[k]? = some head ∧ lines'[k + 1]? = some line' ∧ lines'[k + 2]? = some "\x7d" := by
  induction h generalizing i with
  | nil => exact absurd rfl hne
  | same line _ ih =>
    cases i with
    | zero => exact absurd rfl hne
    | succ i =>
      obtain ⟨k, head, line, line', rfl, hB, hlines, hlines'⟩ := ih hne
      exact ⟨k + 1, head, line, line', rfl, hB, hlines, hlines'⟩
  | body hbody _ ih =>
    rcases i with _ | _ | _ | i
    · exact absurd rfl hne
    · exact ⟨0, _, _, _, rfl, hbody, ⟨rfl, rfl, rfl⟩, rfl, rfl, rfl⟩
    · exact absurd rfl hne
    · obtain ⟨k, head, line, line', rfl, hB, hlines, hlines'⟩ := ih hne
      exact ⟨k + 3, head, line, line', rfl, hB, hlines, hlines'⟩

end SameBut

/-! ## The body of `Init` -/

/-- The head of `Init` of a type. -/
def initHead (q : QualifiedName) : String :=
  "void " ++ q.helper .init ++ "(" ++ q.typePath ++ " *val) \x7b"

/-- The line that is the body of `Init` of a scalar. -/
def initLine (s : Scalar) : String :=
  "  *val = " ++ (initialValue s s.primitive).line.fill .topLevel ++ ";"

theorem fill_initialValue (s : Scalar) (type : Primitive) (p p' : Placement) :
    (initialValue s type).line.fill p = (initialValue s type).line.fill p' := by
  cases s with
  | string value =>
    rw [initialValue, textValue]
    split <;> simp [Expr.line, TypeName.line]
  | _ => simp [initialValue, Expr.line]

theorem fill_initHead (q : QualifiedName) :
    (initSignature q.name).head.fill (scopePlacement q.scope) = initHead q := by
  have hvoid : (initSignature q.name).resultText = "void " := if_neg (show "void" ≠ "" by decide)
  have hparams : (Signature.paramsLine (initSignature q.name).params).fill (scopePlacement q.scope) =
      q.typePath ++ " *val" := fill_valuePointer q
  have hconst : (initSignature q.name).constText = "" := rfl
  have hend : " *val) \x7b" = " *val" ++ ")" ++ "" ++ " \x7b" := by decide
  rw [fill_head, hvoid, hparams, hconst, scopePlacement_scope, initHead, hend]
  simp only [initSignature, QualifiedName.helper, QualifiedName.scopeText, String.append_assoc,
    -String.reduceAppend]

theorem lines_init (q : QualifiedName) (s : Scalar) :
    (⟨initSignature q.name, (aliasBodies q.name s s.primitive).init⟩ : Function).lines.map
      (Line.fill (scopePlacement q.scope)) = [initHead q, initLine s, "\x7d", ""] := by
  have hbody : (indentLine (Stmt.assign (.deref .val) (initialValue s s.primitive)).line).fill
      (scopePlacement q.scope) = initLine s := by
    have hfront : "  *val = " = "  " ++ ("*" ++ "val" ++ " = ") := by decide
    rw [initLine, fill_initialValue s s.primitive .topLevel (scopePlacement q.scope), hfront]
    simp only [indentLine, Stmt.line, Expr.line, Expr.val, Line.fill_append, Line.fill_text,
      Line.fill_ofText, Code.indentUnit, String.append_assoc, -String.reduceAppend]
  have hlines : (⟨initSignature q.name, (aliasBodies q.name s s.primitive).init⟩ : Function).lines =
      [(initSignature q.name).head,
        indentLine (Stmt.assign (.deref .val) (initialValue s s.primitive)).line,
        Line.ofText "\x7d", Line.empty] := rfl
  rw [hlines, List.map_cons, List.map_cons, List.map_cons, List.map_singleton, fill_initHead, hbody,
    Line.fill_ofText]
  rfl

/-- The helpers of a scalar behind `Init` do not depend on its default. -/
theorem tail_helperFunctions (target : Target) (type : String) (s : Scalar) :
    (helperFunctions target type (aliasBodies type s.withoutDefault
        s.withoutDefault.primitive)).tail =
      (helperFunctions target type (aliasBodies type s s.primitive)).tail := by
  cases s <;> rfl

/-- The functions of a scalar: `Init`, and others that do not depend on the default. -/
theorem functionLines_scalar (target : Target) (around : List String) (name : String) (s : Scalar) :
    ∃ rest, ∀ a : Scalar, a.withoutDefault = s.withoutDefault →
      (⟨around, name, .scalar a⟩ : Place).functionLines target =
        initHead ⟨around.map typeName, typeName name⟩ :: initLine a :: "\x7d" :: rest := by
  let q : QualifiedName := ⟨around.map typeName, typeName name⟩
  let others := (helperFunctions target q.name (aliasBodies q.name s s.primitive)).tail
  refine ⟨"" :: (others.flatMap Function.lines).map (Line.fill (scopePlacement q.scope)),
    fun a ha => ?_⟩
  have hothers : (helperFunctions target q.name (aliasBodies q.name a a.primitive)).tail =
      others := by
    rw [← tail_helperFunctions, ha, tail_helperFunctions]
  have hfunctions : helperFunctions target q.name (aliasBodies q.name a a.primitive) =
      ⟨initSignature q.name, (aliasBodies q.name a a.primitive).init⟩ :: others := by
    rw [← hothers]
    rfl
  have hlines : (⟨around, name, .scalar a⟩ : Place).functionLines target =
      ((helperFunctions target q.name (aliasBodies q.name a a.primitive)).flatMap
        Function.lines).map (Line.fill (scopePlacement q.scope)) := by
    rw [Place.functionLines, flatMap_functions_lines]
    simp only [Place.methods, Place.bodies?, Option.toList_some, List.flatMap_singleton,
      List.nil_append]
    rfl
  rw [hlines, hfunctions, List.flatMap_cons, List.map_append, lines_init]
  rfl

/-! ## Two sources -/

/-- A body of `Init` in which the sources of two schemas differ: it belongs to scalars at the same
position of the two, with different defaults. -/
def DiffersInDefault (s s' : Schema) (head line line' : String) : Prop :=
  ∃ position around name a a', s.at? position = some ⟨around, name, .scalar a⟩ ∧
    s'.at? position = some ⟨around, name, .scalar a'⟩ ∧ a ≠ a' ∧
    head = initHead ⟨around.map typeName, typeName name⟩ ∧ line = initLine a ∧ line' = initLine a'

/-- A scalar stands in a schema where it stands in the settled form. -/
theorem Schema.at?_of_settled_scalar {s : Schema} {position : List Nat} {around : List String}
    {name : String} {a : Scalar}
    (h : s.settled.at? position = some ⟨around, name, .scalar a⟩) :
    s.at? position = some ⟨around, name, .scalar a⟩ := by
  obtain ⟨⟨around', name', node⟩, done, hq, hsettle⟩ := Schema.exists_of_settled_at? h
  obtain ⟨rfl, rfl, hnode⟩ := Place.mk.inj hsettle
  have hscalar : node = .scalar a := Node.eq_scalar_of_settle hnode.symm
  rw [hq, hscalar]

theorem Node.isScalar_withoutDefaults (node : Node) :
    node.withoutDefaults.isScalar = node.isScalar := by
  cases node <;> rfl

theorem Node.exists_of_isScalar {node : Node} (h : node.isScalar = true) :
    ∃ s, node = .scalar s := by
  cases node with
  | scalar s => exact ⟨s, rfl⟩
  | _ => cases h

section

variable {s s' : Schema} (h : s.withoutDefaults = s'.withoutDefaults)

include h

theorem settled_withoutDefaults_eq : s.settled.withoutDefaults = s'.settled.withoutDefaults := by
  rw [← settled_withoutDefaults, h, settled_withoutDefaults]

/-- The functions of nodes at the same position are the same but for the default of a scalar. -/
theorem sameBut_functionLines (target : Target) {position : List Nat} {q q' : Place}
    (hq : s.settled.at? position = some q) (hq' : s'.settled.at? position = some q') :
    SameBut (DiffersInDefault s s') (q.functionLines target) (q'.functionLines target) := by
  have hsame : q.withoutDefaults = q'.withoutDefaults := by
    have hat := s.settled.at?_withoutDefaults position
    rw [settled_withoutDefaults_eq h, Schema.at?_withoutDefaults, hq, hq'] at hat
    exact (Option.some.inj hat).symm
  obtain ⟨around, name, node⟩ := q
  obtain ⟨around', name', node'⟩ := q'
  obtain ⟨rfl, rfl, hnode⟩ := Place.mk.inj hsame
  have hscalars : node'.isScalar = node.isScalar := by
    rw [← node'.isScalar_withoutDefaults, ← node.isScalar_withoutDefaults]
    exact congrArg Node.isScalar hnode.symm
  cases hscalar : node.isScalar with
  | false =>
    rw [← Place.functionLines_withoutDefaults target hscalar, hsame,
      Place.functionLines_withoutDefaults target (hscalars.trans hscalar)]
    exact .refl _
  | true =>
    obtain ⟨a, rfl⟩ := Node.exists_of_isScalar hscalar
    obtain ⟨a', rfl⟩ := Node.exists_of_isScalar (hscalars.trans hscalar)
    by_cases heq : a = a'
    · rw [heq]
      exact .refl _
    · obtain ⟨rest, hrest⟩ := functionLines_scalar target around name a
      have hlimits : a'.withoutDefault = a.withoutDefault := (Node.scalar.inj hnode).symm
      rw [hrest a rfl, hrest a' hlimits]
      exact .body ⟨position, around, name, a, a', Schema.at?_of_settled_scalar hq,
        Schema.at?_of_settled_scalar hq', heq, rfl, rfl, rfl⟩ (.refl rest)

theorem sameBut_sourceLines (o : Options) :
    SameBut (DiffersInDefault s s')
      (s.settled.source o) (s'.settled.source o) := by
  rw [Schema.source_eq, Schema.source_eq, Schema.functions, Schema.functions,
    List.flatMap_assoc, List.flatMap_assoc]
  refine ((SameBut.refl _).append ?_).append (SameBut.refl _)
  refine .flatMap (Schema.forall₂_postorder (settled_withoutDefaults_eq h)) ?_
  rintro q q' ⟨position, hq, hq'⟩
  exact sameBut_functionLines h o.target hq hq'

end

/-! ## Two runs -/

theorem scans_initHead {q : QualifiedName} (h : q.IsPlain) : Scans 0 (initHead q) 1 := by
  have hscope : Plain q.scopeText := plain_qualification.mpr h.scope
  have hfront : Plain ("void " ++ q.helper .init ++ "(" ++ q.typePath) :=
    plain_append.mpr ⟨plain_append.mpr ⟨plain_append.mpr ⟨by decide, plain_append.mpr
      ⟨hscope, Helper.plain_name .init h.name⟩⟩, by decide⟩, plain_append.mpr ⟨hscope, h.name⟩⟩
  exact (hfront.scans 0).append (.of_all (by decide) (by decide) rfl)

theorem scans_initLine (s : Scalar) : Scans 0 (initLine s) 0 := by
  have hvalue := isPlain_initialValue s s.primitive
  have hscope : Plain Placement.topLevel.scope := by decide
  exact ((Plain.scans (by decide) 0).append (hvalue.scans hscope 0)).append
    (Plain.scans (by decide) 0)

theorem Scans.unbroken {text : String} {depth depth' : Nat} (h : Scans depth text depth') :
    '\n' ∉ text.toList :=
  fun hmem => absurd (h.control _ hmem) (by decide)

/-- No line of a body of `Init` is broken, and neither is its head. -/
theorem DiffersInDefault.unbroken {s s' : Schema} (hs : s.Admissible) {head line line' : String}
    (h : DiffersInDefault s s' head line line') :
    '\n' ∉ head.toList ∧ '\n' ∉ line.toList ∧ '\n' ∉ line'.toList := by
  obtain ⟨position, around, name, a, a', hat, -, -, rfl, rfl, rfl⟩ := h
  exact ⟨(scans_initHead (hs.isPlain_type ⟨position, hat⟩)).unbroken, (scans_initLine a).unbroken,
    (scans_initLine a').unbroken⟩

theorem generate_ok_iff {o : Options} {s : Schema} {code : GeneratedCode} :
    generate o s = .ok code ↔
      s.Admissible ∧ code = layout o (s.settled.entries.map (unitOf o.target)) := by
  constructor
  · intro h
    cases hunits : generateUnits o.target s with
    | error e =>
      rw [generate, hunits] at h
      cases h
    | ok units =>
      obtain ⟨hs, rfl⟩ := generateUnits_ok_iff.mp hunits
      rw [generate, hunits] at h
      exact ⟨hs, (Except.ok.inj h).symm⟩
  · rintro ⟨hs, rfl⟩
    rw [generate, generateUnits_ok_iff.mpr ⟨hs, rfl⟩]
    rfl

/-- Of two schemas that differ in defaults only, one gives code and the other does not only if a
default of the other lies outside of its limits. -/
theorem error_of_withoutDefaults_eq {o : Options} {s s' : Schema}
    (h : s.withoutDefaults = s'.withoutDefaults) {code : GeneratedCode} {e : GenerationError}
    (hs : generate o s = .ok code) (hs' : generate o s' = .error e) : ∃ c, e = .constraint c := by
  have hadmissible := (generate_ok_iff.mp hs).1
  cases hcheck : s'.check with
  | ok _ =>
    have hadmissible' : s'.Admissible := by
      rw [← admissible_withoutDefaults_iff hcheck, ← h,
        admissible_withoutDefaults_iff hadmissible.limits]
      exact hadmissible
    rw [generate_ok_iff.mpr ⟨hadmissible', rfl⟩] at hs'
    cases hs'
  | error c =>
    have hunits : generateUnits o.target s' = .error (.constraint c) := by
      rw [generateUnits, hcheck]
      rfl
    rw [generate, hunits] at hs'
    exact ⟨c, (Except.error.inj hs').symm⟩

/-- Whether the line at an index is the body of `Init` of a scalar of a type: it stands between the
head and the end of the definition, and assigns the initial value. -/
def InitBodyAt (lines : List String) (i : Nat) (q : QualifiedName) (s : Scalar) : Prop :=
  ∃ k, i = k + 1 ∧ lines[k]? = some (initHead q) ∧ lines[k + 1]? = some (initLine s) ∧
    lines[k + 2]? = some "\x7d"

/-- **Defaults change initial values only.** Take two schemas that differ at most in the defaults of
scalars. If both give code, their headers are the same, and their sources have the same number of
lines. Where a line differs, it assigns the initial value, and is the whole body, of `Init` of a
scalar that has different defaults in the two schemas. If only one of them gives code, the other
breaks a constraint. -/
theorem defaults_change_initial_values_only {o : Options} {s s' : Schema}
    (h : s.withoutDefaults = s'.withoutDefaults) :
    (∀ code code', generate o s = .ok code → generate o s' = .ok code' →
      code.header = code'.header ∧
      (textLines code.source).length = (textLines code'.source).length ∧
      ∀ i, (textLines code.source)[i]? ≠ (textLines code'.source)[i]? →
        ∃ position around name a a', s.at? position = some ⟨around, name, .scalar a⟩ ∧
          s'.at? position = some ⟨around, name, .scalar a'⟩ ∧ a ≠ a' ∧
          InitBodyAt (textLines code.source) i ⟨around.map typeName, typeName name⟩ a ∧
          InitBodyAt (textLines code'.source) i ⟨around.map typeName, typeName name⟩ a') ∧
    ∀ code e, (generate o s = .ok code ∧ generate o s' = .error e) ∨
        (generate o s' = .ok code ∧ generate o s = .error e) → ∃ c, e = .constraint c := by
  refine ⟨fun code code' hcode hcode' => ?_, ?_⟩
  · obtain ⟨hs, rfl⟩ := generate_ok_iff.mp hcode
    obtain ⟨-, rfl⟩ := generate_ok_iff.mp hcode'
    have hheader : headerLines o
        ((s.settled.entries.map (unitOf o.target)).map fun e => e.2.fragment) =
          headerLines o ((s'.settled.entries.map (unitOf o.target)).map fun e => e.2.fragment) := by
      rw [← headerLines_withoutDefaults o s.settled, settled_withoutDefaults_eq h,
        headerLines_withoutDefaults]
    have hsource : SameBut (DiffersInDefault s s')
        (textLines (layout o (s.settled.entries.map (unitOf o.target))).source)
        (textLines (layout o (s'.settled.entries.map (unitOf o.target))).source) := by
      simp only [layout, textLines_unlines]
      have hlines := (sameBut_sourceLines h o).flatMap_textLines
        fun _ _ _ => DiffersInDefault.unbroken hs
      exact hlines.append (.refl _)
    refine ⟨by simp only [layout, hheader], hsource.length_eq, fun i hne => ?_⟩
    obtain ⟨k, _, _, _, hk, hdiffers, hlines, hlines'⟩ := hsource.exists_of_ne hne
    obtain ⟨position, around, name, a, a', hat, hat', hdefault, rfl, rfl, rfl⟩ := hdiffers
    exact ⟨position, around, name, a, a', hat, hat', hdefault, ⟨k, hk, hlines⟩, k, hk, hlines'⟩
  · rintro code e (⟨hs, hs'⟩ | ⟨hs', hs⟩)
    · exact error_of_withoutDefaults_eq h hs hs'
    · exact error_of_withoutDefaults_eq h.symm hs' hs

/-- A note and a rating from 0 to 9, with the given defaults. -/
def noteExample (note : Option String) (rating : Option Int) : Schema :=
  ⟨[("note", .scalar (.string note)),
    ("rating", .scalar (.integer ⟨some 0, some 9, rating⟩))]⟩

/-- A note with a line break and quotes adds no line to the source, and a rating of 12 breaks a
constraint. -/
theorem noteExample_compared :
    ∃ code code', generate .default (noteExample none none) = .ok code ∧
      generate .default (noteExample (some "a\n\"b\";") (some 7)) = .ok code' ∧
      code.header = code'.header ∧ code.source ≠ code'.source ∧
      (textLines code.source).length = (textLines code'.source).length ∧
      ∃ c, generate .default (noteExample none (some 12)) = .error (.constraint c) := by
  have hrun : ∀ s : Schema, (generateUnits Options.default.target s).toBool = true →
      generate .default s =
        .ok (layout .default (s.settled.entries.map (unitOf Options.default.target))) := by
    intro s hs
    obtain ⟨units, hunits⟩ := Schema.generates_of_toBool hs
    exact generate_ok_iff.mpr ⟨(generateUnits_ok_iff.mp hunits).1, rfl⟩
  have hcode := hrun (noteExample none none) (by decide)
  have hcode' := hrun (noteExample (some "a\n\"b\";") (some 7)) (by decide)
  have hfails : (generate .default (noteExample none (some 12))).toBool = false := by
    decide
  obtain ⟨hboth, -⟩ := defaults_change_initial_values_only
    (show (noteExample none none).withoutDefaults =
      (noteExample (some "a\n\"b\";") (some 7)).withoutDefaults from rfl)
  obtain ⟨-, hone⟩ := defaults_change_initial_values_only
    (show (noteExample none none).withoutDefaults =
      (noteExample none (some 12)).withoutDefaults from rfl)
  obtain ⟨hheader, hlength, -⟩ := hboth _ _ hcode hcode'
  refine ⟨_, _, hcode, hcode', hheader, by decide +kernel, hlength, ?_⟩
  cases hbroken : generate .default (noteExample none (some 12)) with
  | ok code => rw [hbroken] at hfails; cases hfails
  | error e =>
    obtain ⟨c, rfl⟩ := hone _ _ (.inl ⟨hcode, hbroken⟩)
    exact ⟨c, rfl⟩

end ConfigForge
