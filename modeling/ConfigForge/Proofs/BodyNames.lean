import ConfigForge.Proofs.Lookup

/-!
# Names in bodies

Bodies spell generated types and helpers as they are seen from the target namespace, but stand inside
classes. Most of these names are safe: they start with the outermost class around the body, and no
class may declare the name of a class around it. Two kinds are not. The target of a reference may
stand anywhere, and a class in the target namespace has the names of its own helpers looked up inside
itself.

Results:

* `Schema.mention_cases`: which types bodies mention, and from where.
* `mention_denotes_iff`: when a name in a body means what it was spelled from, and which names can
  fail to.
* `exposed_names_hidden`: names of both kinds that are hidden.
-/

namespace ConfigForge

open Emit Cpp

/-- The mentions that may be hidden: those of the target of a reference, and those of a class of the
target namespace in its own methods. -/
def GeneratedFunction.Exposed (f : GeneratedFunction) (m : Mention) : Prop :=
  (∃ c ∈ f.place.children, ∃ r, c.node = .reference r ∧ m.type = .ofPath r.segments) ∨
    (f.isMethod = true ∧ f.place.around = [] ∧ m.type = f.place.type)

/-- The scope of a node and its class lie in the same outermost class, if there is one. -/
theorem Place.head?_scope_cases {p : Place} {scope : List String}
    (h : scope = p.scope ∨ scope = p.classPath) :
    p.scope = [] ∨ ∃ c, p.scope.head? = some c ∧ scope.head? = some c := by
  cases hscope : p.scope with
  | nil => exact .inl rfl
  | cons c rest =>
    right
    refine ⟨c, rfl, ?_⟩
    rcases h with rfl | rfl
    · rw [hscope]; rfl
    · rw [Place.classPath, hscope]; rfl

/-- A mention names a type of the schema. It is exposed, or no class stands around the body, or the
name starts with the outermost class around the body. -/
theorem Schema.mention_cases {s : Schema} {target : Target}
    (hrefs : EachReferenceIn Reference.IsSettled [] [] s.entries) {f : GeneratedFunction}
    {m : Mention} (hf : f ∈ s.functions target) (hm : m ∈ f.mentions) :
    (∃ q, s.Has q ∧ q.node.isReference = false ∧ m.type = q.type) ∧
      (f.Exposed m ∨ f.inside = [] ∨
        ∃ c, f.inside.head? = some c ∧ m.type.scope.head? = some c) := by
  obtain ⟨p, hp, hf⟩ := List.mem_flatMap.mp hf
  rw [mem_postorder_iff] at hp
  cases hmethod : f.isMethod with
  | true =>
    obtain ⟨hplace, hobject, htype⟩ := Place.mention_of_method hf hmethod hm
    refine ⟨⟨p, hp, Node.isReference_of_isObject hobject, htype⟩, ?_⟩
    rw [GeneratedFunction.inside, hmethod, hplace, if_pos rfl, htype]
    rcases Place.head?_scope_cases (p := p) (.inr rfl) with hscope | ⟨c, hscope, hclass⟩
    · refine .inl (.inr ⟨hmethod, ?_, ?_⟩)
      · rw [hplace]
        exact List.map_eq_nil_iff.mp hscope
      · rw [htype, hplace]
    · exact .inr (.inr ⟨c, hclass, hscope⟩)
  | false =>
    obtain ⟨hplace, ⟨⟨scalar, hnode⟩, htype⟩ | ⟨c, hc, htype⟩⟩ :=
      Place.mention_of_helper hf hmethod hm
    · refine ⟨⟨p, hp, by rw [hnode]; rfl, htype⟩, .inr ?_⟩
      rw [GeneratedFunction.inside, hmethod, hplace, htype]
      exact Place.head?_scope_cases (.inl rfl)
    · cases hnode : c.node with
      | reference r =>
        rw [Place.provided, hnode] at htype
        obtain ⟨o, ho, href, hotype⟩ := Schema.exists_target hrefs (hp.child hc) hnode
        refine ⟨⟨o, ho, href, by rw [hotype]; exact htype⟩, .inl (.inl ⟨c, ?_, r, hnode, htype⟩)⟩
        rw [hplace]
        exact hc
      | _ =>
        have hprovided : c.provided = c.type := by rw [Place.provided, hnode]; rfl
        rw [hprovided] at htype
        refine ⟨⟨c, hp.child hc, by rw [hnode]; rfl, htype⟩, .inr ?_⟩
        rw [GeneratedFunction.inside, hmethod, hplace, htype]
        exact Place.head?_scope_cases (Place.scope_of_mem_children hc)

/-- **Names in bodies.** The definitions in the generated code are those of the functions of the
schema, and what their bodies mention is spelled in them. A name in a body means the type or the
helper it was spelled from exactly if no class around the body gives its first component another
meaning. Only names of the targets of references, and names of a class of the target namespace in its
own methods, can be given another meaning, or be declared at all in a class around the body. -/
theorem mention_denotes_iff {target : Target} {s : Schema} {units : Entries CodeUnit}
    (h : generateUnits target s = .ok units) :
    units.flatMap (fun e => e.2.fragment.definitions) =
        (s.settled.functions target).flatMap GeneratedFunction.lines ∧
      ∀ f ∈ s.settled.functions target, ∀ m ∈ f.mentions,
        (∃ line ∈ f.lines, Occurs (qualification m.type.scope ++ m.name) line) ∧
        (s.settled.denotes? f.inside m.type.scope m.name = some m.entity ↔
          ¬ s.settled.Hides f.inside m) ∧
        (s.settled.Hides f.inside m ∨ s.settled.Declares f.inside m.first → f.Exposed m) := by
  obtain ⟨hs, rfl⟩ := generateUnits_ok_iff.mp h
  obtain ⟨ht, hrefs⟩ := hs.settled
  refine ⟨Schema.definitions_eq target s.settled, fun f hf m hm => ?_⟩
  obtain ⟨⟨q, hq, href, htype⟩, hcases⟩ := Schema.mention_cases hrefs hf hm
  refine ⟨?_, ht.denotes?_eq_some_iff hq href htype f.inside, ?_⟩
  · rw [← Mention.text_eq]
    exact GeneratedFunction.occurs hm
  · intro hdeclared
    rcases hcases with hexposed | hinside | ⟨c, hinside, hscope⟩
    · exact hexposed
    · rw [hinside] at hdeclared
      rcases hdeclared with ⟨k, -, hpos, hk, -⟩ | ⟨k, -, -, hpos, hk, -⟩
      all_goals
        rw [List.length_nil] at hk
        omega
    · have hfirst : m.first = c := by
        rw [Mention.first, List.headD_eq_head?_getD, hscope]
        rfl
      rcases hdeclared with hhides | hdeclares
      · exact absurd hhides (ht.not_hides hinside hscope)
      · exact absurd (hfirst ▸ hdeclares) (ht.not_declares hinside)

/-- Inside the class `Path` the helpers of the array `steps` call those of its item, with the class in
front of the name. -/
theorem nestedExample_item_helper :
    ∃ units, generateUnits Options.default.target nestedExample = .ok units ∧
      ∃ f ∈ nestedExample.settled.functions Options.default.target,
        f.inside = ["Path"] ∧ ⟨⟨["Path"], "StepsElement"⟩, some .validate⟩ ∈ f.mentions ∧
        nestedExample.settled.denotes? f.inside ["Path"] "ValidateStepsElement" =
          some (.helper ⟨["Path"], "StepsElement"⟩ "ValidateStepsElement") := by
  obtain ⟨units, h⟩ := Schema.generates_of_toBool
    (show (generateUnits Options.default.target nestedExample).toBool = true by decide)
  have hfunction : ∃ f ∈ nestedExample.settled.functions Options.default.target,
      f.inside = ["Path"] ∧ ⟨⟨["Path"], "StepsElement"⟩, some .validate⟩ ∈ f.mentions ∧
      f.isMethod = false ∧ ∀ c ∈ f.place.children, c.node.isReference = false := by
    decide
  obtain ⟨f, hf, hinside, hm, hmethod, hchildren⟩ := hfunction
  obtain ⟨-, hdenotes, hexposed⟩ := (mention_denotes_iff h).2 f hf _ hm
  refine ⟨units, h, f, hf, hinside, hm, hdenotes.mpr fun hhides => ?_⟩
  rcases hexposed (.inl hhides) with ⟨c, hc, r, hr, -⟩ | ⟨hyes, -⟩
  · have href := hchildren c hc
    rw [hr] at href
    cases href
  · rw [hmethod] at hyes
    cases hyes

/-- A class with a nested type called like one of the helpers of the class. -/
def methodExample : Schema :=
  ⟨[("foo", .object [("init_foo", .scalar (.bool none))])]⟩

/-- A reference to an object, inside a class with a later member of the same name. -/
def referenceExample : Schema :=
  ⟨[("inner", .object []),
    ("outer", .object [("holder", .object [("x", .reference ⟨["inner"]⟩)]), ("inner", .object [])])]⟩

/-- Both kinds of exposed names can be hidden: the constructor of `Foo` calls a helper whose name is
that of a nested type, and the helpers of `Outer::Holder` call those of `Outer::Inner` in place of
those of `Inner`. -/
theorem exposed_names_hidden :
    (∃ units, generateUnits Options.default.target methodExample = .ok units ∧
      ∃ f ∈ methodExample.settled.functions Options.default.target, ∃ m ∈ f.mentions,
        m.entity = .helper ⟨[], "Foo"⟩ "InitFoo" ∧
        methodExample.settled.Declares f.inside m.first ∧
        methodExample.settled.denotes? f.inside m.type.scope m.name =
          some (.type ⟨["Foo"], "InitFoo"⟩)) ∧
      (∃ units, generateUnits Options.default.target referenceExample = .ok units ∧
        ∃ f ∈ referenceExample.settled.functions Options.default.target, ∃ m ∈ f.mentions,
          m.entity = .helper ⟨[], "Inner"⟩ "InitInner" ∧
          referenceExample.settled.denotes? f.inside m.type.scope m.name =
            some (.helper ⟨["Outer"], "Inner"⟩ "InitInner")) := by
  obtain ⟨units, h⟩ := Schema.generates_of_toBool
    (show (generateUnits Options.default.target methodExample).toBool = true by decide)
  obtain ⟨units', h'⟩ := Schema.generates_of_toBool
    (show (generateUnits Options.default.target referenceExample).toBool = true by decide)
  refine ⟨⟨units, h, ?_⟩, units', h', ?_⟩
  · have hfunction : ∃ f ∈ methodExample.settled.functions Options.default.target, ∃ m ∈ f.mentions,
        m.entity = .helper ⟨[], "Foo"⟩ "InitFoo" ∧ f.inside = ["Foo"] ∧ m.first = "InitFoo" ∧
        methodExample.settled.denotes? f.inside m.type.scope m.name =
          some (.type ⟨["Foo"], "InitFoo"⟩) := by decide
    obtain ⟨f, hf, m, hm, hentity, hinside, hfirst, hdenotes⟩ := hfunction
    refine ⟨f, hf, m, hm, hentity, ?_, hdenotes⟩
    rw [hinside, hfirst]
    refine ⟨1, ⟨[], "foo", .object [("init_foo", .scalar (.bool none))]⟩, _, Nat.one_pos,
      Nat.le_refl 1, ⟨[0], rfl⟩, rfl, ?_, ?_⟩
    · decide
    · decide
  · decide

end ConfigForge
