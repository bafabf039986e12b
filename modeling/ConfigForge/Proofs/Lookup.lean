import ConfigForge.Proofs.ClassScopes
import ConfigForge.Proofs.HelperNames
import ConfigForge.Proofs.Mentions

/-!
# Name lookup

How C++ finds what a name means among the declarations of a schema. The first component of a name is
looked up in the innermost class around it first and then outwards, so a class may hide what is
declared further out. Before a `::` only types are found. Every further component is looked up in the
class that the components before it lead to. In its own scope every class has its own name.

Results:

* `Schema.Admissible.find?_type`: what is declared in a scope is found there.
* `Schema.Admissible.follow_classPath`: a qualification leads to its class.
* `Schema.Admissible.not_hides`: a name that starts with the outermost class around it is not hidden.
* `Schema.Admissible.denotes?_eq_some_iff`: a name means what it was spelled from exactly if no class
  around it hides it.
-/

namespace ConfigForge

open Emit Cpp

/-! ## Declarations -/

/-- What a name can mean. The functions of a type that share a name are one entity. -/
inductive Entity where
  | type (q : QualifiedName)
  | helper (owner : QualifiedName) (name : String)
  | member (scope : List String) (name : String)
deriving DecidableEq, Repr

namespace Entity

def isType : Entity → Bool
  | .type _ => true
  | _ => false

/-- The classes around the declaration. -/
def scope : Entity → List String
  | .type q => q.scope
  | .helper owner _ => owner.scope
  | .member scope _ => scope

end Entity

/-- The declarations of a type and of its helpers. -/
def typeDeclarations (scope : List String) (type : String) : List (String × Entity) :=
  (typeNames type).map fun x =>
    (x, if x = type then .type ⟨scope, type⟩ else .helper ⟨scope, type⟩ x)

/-- The declarations that the members of an object bring into its class. -/
def memberDeclarations (scope : List String) (members : List (String × Node)) :
    List (String × Entity) :=
  members.flatMap fun m =>
    (m.2.types m.1).flatMap (typeDeclarations scope) ++ [(m.1, .member scope m.1)]

/-- The declarations in the class of an object: the members of every class, the class itself, and
what the members of the object bring. -/
def Place.classDeclarations (p : Place) : List (String × Entity) :=
  match p.node with
  | .object members =>
    classMemberNames.map (fun x => (x, .member p.classPath x)) ++
      (p.type.name, .type p.type) :: memberDeclarations p.classPath members
  | _ => []

/-- What a name means by a list of declarations. Before a `::` only types are found. -/
def findIn? (ds : List (String × Entity)) (x : String) (qualifier : Bool) : Option Entity :=
  (ds.find? fun d => d.1 == x && (d.2.isType || !qualifier)).map Prod.snd

namespace Schema

/-- The object whose class has a path. -/
def classAt? (s : Schema) (path : List String) : Option Place :=
  s.postorder.find? fun p => p.node.isObject && p.classPath == path

/-- The declarations in a class, or in the target namespace if no class is given. -/
def declarations (s : Schema) : List String → List (String × Entity)
  | [] => (memberTypes s.entries).flatMap (typeDeclarations [])
  | c :: rest => ((s.classAt? (c :: rest)).map Place.classDeclarations).getD []

/-! ## Lookup -/

/-- What a name means in one scope. -/
def find? (s : Schema) (scope : List String) (x : String) (qualifier : Bool) : Option Entity :=
  findIn? (s.declarations scope) x qualifier

/-- What a name means in the first `depth` of the classes `inside` or further out. -/
def lookupFrom? (s : Schema) (inside : List String) (x : String) (qualifier : Bool) :
    Nat → Option Entity
  | 0 => s.find? [] x qualifier
  | depth + 1 =>
    (s.find? (inside.take (depth + 1)) x qualifier).or (s.lookupFrom? inside x qualifier depth)

/-- What a name means inside classes. -/
def lookup? (s : Schema) (inside : List String) (x : String) (qualifier : Bool) : Option Entity :=
  s.lookupFrom? inside x qualifier inside.length

/-- What a name means behind the `::` of an entity. -/
def findBehind? (s : Schema) (e : Entity) (x : String) (qualifier : Bool) : Option Entity :=
  match e with
  | .type q => s.find? (q.scope ++ [q.name]) x qualifier
  | _ => none

/-- What the name `x`, qualified by `classes`, means inside the classes `inside`. -/
def denotes? (s : Schema) (inside classes : List String) (x : String) : Option Entity :=
  match classes with
  | [] => s.lookup? inside x false
  | c :: rest => do
    let outer ← s.lookup? inside c true
    let owner ← rest.foldlM (fun e c => s.findBehind? e c true) outer
    s.findBehind? owner x false

end Schema

/-! ## Names of mentions -/

namespace Mention

/-- The name without its qualification. -/
def name (m : Mention) : String :=
  match m.helper with
  | none => m.type.name
  | some h => h.name m.type.name

/-- What is meant. -/
def entity (m : Mention) : Entity :=
  match m.helper with
  | none => .type m.type
  | some h => .helper m.type (h.name m.type.name)

/-- The first component of the name. -/
def first (m : Mention) : String :=
  m.type.scope.headD m.name

/-- What is meant by the first component. -/
def firstEntity (m : Mention) : Entity :=
  match m.type.scope with
  | [] => m.entity
  | c :: _ => .type ⟨[], c⟩

/-- Whether a `::` follows the first component. -/
def isQualified (m : Mention) : Bool :=
  !m.type.scope.isEmpty

theorem text_eq (m : Mention) : m.text = qualification m.type.scope ++ m.name := by
  obtain ⟨type, helper⟩ := m
  cases helper <;> rfl

theorem entity_scope (m : Mention) : m.entity.scope = m.type.scope := by
  obtain ⟨type, helper⟩ := m
  cases helper <;> rfl

theorem firstEntity_scope (m : Mention) : m.firstEntity.scope = [] := by
  rw [firstEntity]
  cases hscope : m.type.scope with
  | nil => exact m.entity_scope.trans hscope
  | cons c rest => rfl

end Mention

/-- Whether a class around a body gives the first component of a name another meaning. -/
def Schema.Hides (s : Schema) (inside : List String) (m : Mention) : Prop :=
  ∃ k e, 0 < k ∧ k ≤ inside.length ∧ s.find? (inside.take k) m.first m.isQualified = some e ∧
    e ≠ m.firstEntity

/-- Whether a class around a body declares an identifier: as a nested type, as a helper of one, or as
a data member. -/
def Schema.Declares (s : Schema) (inside : List String) (x : String) : Prop :=
  ∃ k o members, 0 < k ∧ k ≤ inside.length ∧ s.Has o ∧ o.node = .object members ∧
    o.classPath = inside.take k ∧ x ∈ memberIdentifiers members

/-! ## Finding a declaration -/

theorem Mention.name_mem_typeNames (m : Mention) : m.name ∈ typeNames m.type.name := by
  obtain ⟨type, helper⟩ := m
  cases helper with
  | none => exact typeName_mem_typeNames type.name
  | some h => exact helper_mem_typeNames h type.name

theorem Mention.mem_typeDeclarations (m : Mention) :
    (m.name, m.entity) ∈ typeDeclarations m.type.scope m.type.name := by
  refine List.mem_map.mpr ⟨m.name, m.name_mem_typeNames, ?_⟩
  obtain ⟨type, helper⟩ := m
  cases helper with
  | none => simp [Mention.name, Mention.entity]
  | some h => simp [Mention.name, Mention.entity, Helper.name_ne]

theorem keys_typeDeclarations (scope : List String) (type : String) :
    (typeDeclarations scope type).map Prod.fst = typeNames type := by
  rw [typeDeclarations, List.map_map]
  exact List.map_id _

theorem keys_memberDeclarations (scope : List String) (members : List (String × Node)) :
    (memberDeclarations scope members).map Prod.fst = memberIdentifiers members := by
  rw [memberDeclarations, memberIdentifiers, List.map_flatMap]
  refine List.flatMap_congr fun m _ => ?_
  rw [List.map_append, List.map_flatMap, Node.identifiers]
  simp only [keys_typeDeclarations, List.map_cons, List.map_nil]

theorem keys_declarations_nil (s : Schema) :
    (s.declarations []).map Prod.fst = s.identifiers := by
  rw [Schema.declarations, List.map_flatMap, memberTypes, List.flatMap_assoc]
  simp only [keys_typeDeclarations]
  rfl

theorem scope_of_mem_memberDeclarations {scope : List String} {members : List (String × Node)}
    {d : String × Entity} (h : d ∈ memberDeclarations scope members) : d.2.scope = scope := by
  obtain ⟨m, -, h⟩ := List.mem_flatMap.mp h
  rcases List.mem_append.mp h with h | h
  · obtain ⟨type, -, h⟩ := List.mem_flatMap.mp h
    obtain ⟨x, -, rfl⟩ := List.mem_map.mp h
    split <;> rfl
  · rw [List.mem_singleton.mp h]
    rfl

/-- Where names differ, a name means the entity it is declared as. -/
theorem findIn?_of_mem {ds : List (String × Entity)} {x : String} {e : Entity}
    (hnodup : (ds.map Prod.fst).Nodup) (hmem : (x, e) ∈ ds) {qualifier : Bool}
    (htype : qualifier = true → e.isType = true) : findIn? ds x qualifier = some e := by
  have haccepts : (e.isType || !qualifier) = true := by
    cases qualifier with
    | true => rw [htype rfl]; rfl
    | false => rw [Bool.not_false, Bool.or_true]
  cases hd : ds.find? fun d => d.1 == x && (d.2.isType || !qualifier) with
  | none =>
    have hno := List.find?_eq_none.mp hd _ hmem
    rw [haccepts] at hno
    simp at hno
  | some d =>
    have hkey := List.find?_some hd
    rw [Bool.and_eq_true, beq_iff_eq] at hkey
    have hsame : d = (x, e) :=
      List.inj_on_of_nodup_map hnodup (List.mem_of_find?_eq_some hd) hmem hkey.1
    rw [findIn?, hd, hsame]
    rfl

namespace Schema

variable {s : Schema}

theorem classAt?_eq_some {path : List String} {o : Place} (h : s.classAt? path = some o) :
    ∃ members, s.Has o ∧ o.node = .object members ∧ o.classPath = path := by
  have haccepted := List.find?_some h
  rw [Bool.and_eq_true, beq_iff_eq] at haccepted
  have hmem := mem_postorder_iff.mp (List.mem_of_find?_eq_some h)
  cases hnode : o.node with
  | object members => exact ⟨members, hmem, rfl, haccepted.2⟩
  | _ => rw [hnode] at haccepted; simp [Node.isObject] at haccepted

theorem Admissible.classAt?_classPath (hs : s.Admissible) {o : Place}
    {members : List (String × Node)} (ho : s.Has o) (hnode : o.node = .object members) :
    s.classAt? o.classPath = some o := by
  have hfound : (s.classAt? o.classPath).isSome := by
    refine List.find?_isSome.mpr ⟨o, mem_postorder_iff.mpr ho, ?_⟩
    rw [hnode]
    simp [Node.isObject]
  obtain ⟨o', ho'⟩ := Option.isSome_iff_exists.mp hfound
  obtain ⟨members', hhas, hnode', hpath⟩ := classAt?_eq_some ho'
  rw [ho', hs.eq_of_type_eq hhas ho (by rw [hnode']; rfl) (by rw [hnode]; rfl)
    (Place.type_eq_of_classPath_eq hpath)]

theorem declarations_cons (s : Schema) {path : List String} (h : path ≠ []) :
    s.declarations path = ((s.classAt? path).map Place.classDeclarations).getD [] := by
  cases path with
  | nil => exact absurd rfl h
  | cons c rest => rfl

/-- What is found in a class: the class itself, a member of every class, or what the members of the
object bring. -/
theorem find?_cases {path : List String} {x : String} {qualifier : Bool} {e : Entity}
    (hpath : path ≠ []) (h : s.find? path x qualifier = some e) :
    ∃ o members, s.Has o ∧ o.node = .object members ∧ o.classPath = path ∧
      ((x = o.type.name ∧ e = .type o.type) ∨
        (e.scope = path ∧
          (x ∈ memberIdentifiers members ∨ qualifier = false ∧ x ∈ classMemberNames))) := by
  obtain ⟨d, hd, rfl⟩ := Option.map_eq_some_iff.mp h
  have hmem := List.mem_of_find?_eq_some hd
  have haccepted := List.find?_some hd
  rw [Bool.and_eq_true, beq_iff_eq] at haccepted
  obtain ⟨rfl, hkind⟩ := haccepted
  rw [declarations_cons s hpath] at hmem
  cases hclass : s.classAt? path with
  | none => rw [hclass] at hmem; cases hmem
  | some o =>
    obtain ⟨members, ho, hnode, hclassPath⟩ := classAt?_eq_some hclass
    refine ⟨o, members, ho, hnode, hclassPath, ?_⟩
    rw [hclass, Option.map_some, Option.getD_some, Place.classDeclarations, hnode, hclassPath] at hmem
    rcases List.mem_append.mp hmem with hfixed | hmem
    · obtain ⟨x, hx, rfl⟩ := List.mem_map.mp hfixed
      refine .inr ⟨rfl, .inr ⟨?_, hx⟩⟩
      simpa [Entity.isType] using hkind
    · rcases List.mem_cons.mp hmem with rfl | hmem
      · exact .inl ⟨rfl, rfl⟩
      · have hkey : d.1 ∈ memberIdentifiers members := by
          rw [← keys_memberDeclarations path]
          exact List.mem_map_of_mem hmem
        exact .inr ⟨scope_of_mem_memberDeclarations hmem, .inl hkey⟩

/-- What the members of an object bring into its class is found there. -/
theorem Admissible.find?_member (hs : s.Admissible) {o : Place} {members : List (String × Node)}
    (ho : s.Has o) (hnode : o.node = .object members) {x : String} {e : Entity} {qualifier : Bool}
    (hmem : (x, e) ∈ memberDeclarations o.classPath members)
    (htype : qualifier = true → e.isType = true) : s.find? o.classPath x qualifier = some e := by
  obtain ⟨hnodup, hfree⟩ := hs.classes o members ho hnode
  rw [← keys_memberDeclarations o.classPath] at hnodup hfree
  have hx := hfree x (List.mem_map_of_mem (f := Prod.fst) hmem)
  rw [List.mem_append, List.mem_append, not_or, not_or] at hx
  obtain ⟨⟨hfixed, -⟩, hself⟩ := hx
  have hmember := findIn?_of_mem hnodup hmem htype
  rw [find?, declarations_cons s o.classPath_ne_nil, hs.classAt?_classPath ho hnode, Option.map_some,
    Option.getD_some, Place.classDeclarations, hnode, findIn?, List.find?_append,
    List.find?_eq_none.mpr, Option.none_or, List.find?_cons_of_neg]
  · exact hmember
  · intro hmatch
    rw [Bool.and_eq_true, beq_iff_eq] at hmatch
    exact hself (List.mem_singleton.mpr hmatch.1.symm)
  · intro d hd hmatch
    obtain ⟨y, hy, rfl⟩ := List.mem_map.mp hd
    rw [Bool.and_eq_true, beq_iff_eq] at hmatch
    exact hfixed (hmatch.1 ▸ hy)

/-- **Finding a type.** A type and its helpers are found in the scope of the node that declares
them. -/
theorem Admissible.find?_type (hs : s.Admissible) {q : Place} (hq : s.Has q)
    (href : q.node.isReference = false) {m : Mention} (hm : m.type = q.type) (qualifier : Bool)
    (htype : qualifier = true → m.helper = none) :
    s.find? m.type.scope m.name qualifier = some m.entity := by
  have hdeclared := m.mem_typeDeclarations
  have hkind : qualifier = true → m.entity.isType = true := by
    intro hqualifier
    rw [Mention.entity, htype hqualifier]
    rfl
  rcases hq.enclosing with hitems | ⟨o, members, ho, hnode, hitems⟩
  · have hscope : m.type.scope = [] := by
      rw [hm]
      exact scope_eq_nil_of_mem_membersWithItems hitems
    have hmem : m.type.name ∈ memberTypes s.entries := hm ▸ type_mem_memberTypes hitems href
    have hnodup : ((s.declarations []).map Prod.fst).Nodup := by
      rw [keys_declarations_nil]
      exact hs.outermost
    rw [hscope] at hdeclared ⊢
    exact findIn?_of_mem hnodup (List.mem_flatMap.mpr ⟨_, hmem, hdeclared⟩) hkind
  · have hscope : m.type.scope = o.classPath := by
      rw [hm]
      exact scope_of_mem_membersWithItems hitems
    have hmem : m.type.name ∈ memberTypes members := hm ▸ type_mem_memberTypes hitems href
    rw [hscope] at hdeclared ⊢
    refine hs.find?_member ho hnode ?_ hkind
    obtain ⟨member, hmember, hname⟩ := List.mem_flatMap.mp hmem
    refine List.mem_flatMap.mpr ⟨member, hmember, List.mem_append_left _ ?_⟩
    exact List.mem_flatMap.mpr ⟨_, hname, hdeclared⟩

/-! ## Following a qualification -/

/-- The classes around an object lead to its class, from the target namespace on. -/
theorem Admissible.follow_classPath (hs : s.Admissible) {o : Place}
    {members : List (String × Node)} (ho : s.Has o) (hnode : o.node = .object members)
    {c : String} {rest : List String} (hpath : o.classPath = c :: rest) :
    s.find? [] c true = some (.type ⟨[], c⟩) ∧
      rest.foldlM (fun e x => s.findBehind? e x true) (.type ⟨[], c⟩) = some (.type o.type) := by
  induction hn : o.around.length using Nat.strongRecOn generalizing o members rest with
  | ind n ih =>
    have href : o.node.isReference = false := by rw [hnode]; rfl
    have hfound := hs.find?_type ho href (m := ⟨o.type, none⟩) rfl true fun _ => rfl
    rcases ho.enclosing with houter | ⟨o', members', ho', hnode', hitems⟩
    · have hscope : o.scope = [] := scope_eq_nil_of_mem_membersWithItems houter
      rw [Place.classPath, hscope] at hpath
      obtain ⟨hname, rfl⟩ := List.cons.inj hpath
      have htype : o.type = ⟨[], c⟩ := by
        rw [Place.type, QualifiedName.mk.injEq]
        exact ⟨hscope, hname⟩
      rw [htype] at hfound ⊢
      exact ⟨hfound, rfl⟩
    · have hscope : o.scope = o'.classPath := scope_of_mem_membersWithItems hitems
      have hlength : o'.around.length < n := by
        rw [← hn, around_of_mem_membersWithItems hitems, Place.path, List.length_append]
        exact Nat.lt_succ_self _
      cases hpath' : o'.classPath with
      | nil => exact absurd hpath' o'.classPath_ne_nil
      | cons c' rest' =>
        rw [Place.classPath, hscope, hpath', List.cons_append] at hpath
        obtain ⟨rfl, rfl⟩ := List.cons.inj hpath
        obtain ⟨hfirst, hfollow⟩ := ih _ hlength ho' hnode' hpath' rfl
        refine ⟨hfirst, ?_⟩
        have hlast : s.findBehind? (.type o'.type) o.type.name true = some (.type o.type) := by
          rw [show o.type.scope = o'.classPath from hscope] at hfound
          exact hfound
        rw [List.foldlM_append, hfollow]
        change (s.findBehind? (.type o'.type) o.type.name true).bind _ = _
        rw [hlast]
        rfl

/-- The first component of a name is declared in the target namespace as what it means. -/
theorem Admissible.find?_first (hs : s.Admissible) {q : Place} (hq : s.Has q)
    (href : q.node.isReference = false) {m : Mention} (hm : m.type = q.type) :
    s.find? [] m.first m.isQualified = some m.firstEntity := by
  have hfound := hs.find?_type hq href hm false nofun
  rw [Mention.first, Mention.firstEntity, Mention.isQualified]
  rcases hq.scope_cases with hscope | ⟨o, members, ho, hnode, hscope⟩
  · rw [show m.type.scope = [] from hm ▸ hscope] at hfound ⊢
    exact hfound
  · rw [show m.type.scope = o.classPath from hm ▸ hscope]
    cases hpath : o.classPath with
    | nil => exact absurd hpath o.classPath_ne_nil
    | cons c rest => exact (hs.follow_classPath ho hnode hpath).1

/-- A name whose first component has its meaning means what it was spelled from. -/
theorem Admissible.denotes?_of_lookup? (hs : s.Admissible) {q : Place} (hq : s.Has q)
    (href : q.node.isReference = false) {m : Mention} (hm : m.type = q.type) {inside : List String}
    (hlookup : s.lookup? inside m.first m.isQualified = some m.firstEntity) :
    s.denotes? inside m.type.scope m.name = some m.entity := by
  have hfound := hs.find?_type hq href hm false nofun
  rw [Mention.first, Mention.firstEntity, Mention.isQualified] at hlookup
  rcases hq.scope_cases with hscope | ⟨o, members, ho, hnode, hscope⟩
  · rw [show m.type.scope = [] from hm ▸ hscope] at hlookup ⊢
    exact hlookup
  · rw [show m.type.scope = o.classPath from hm ▸ hscope] at hlookup hfound ⊢
    have hlast : s.findBehind? (.type o.type) m.name false = some m.entity := hfound
    cases hpath : o.classPath with
    | nil => exact absurd hpath o.classPath_ne_nil
    | cons c rest =>
      rw [hpath] at hlookup
      change (s.lookup? inside c true).bind _ = _
      rw [show s.lookup? inside c true = _ from hlookup, Option.bind_some,
        (hs.follow_classPath ho hnode hpath).2]
      exact hlast

/-! ## Hidden names -/

theorem lookupFrom?_of_find? {inside : List String} {x : String} {qualifier : Bool} {e : Entity}
    (houter : s.find? [] x qualifier = some e) {depth : Nat}
    (hinner : ∀ k e', 0 < k → k ≤ depth → s.find? (inside.take k) x qualifier = some e' → e' = e) :
    s.lookupFrom? inside x qualifier depth = some e := by
  induction depth with
  | zero => exact houter
  | succ depth ih =>
    rw [lookupFrom?, ih fun k e' hpos hk => hinner k e' hpos (by omega)]
    cases hfind : s.find? (inside.take (depth + 1)) x qualifier with
    | none => rfl
    | some e' => rw [hinner (depth + 1) e' (by omega) (by omega) hfind]; rfl

/-- What is declared in one of the classes is found there or further in. -/
theorem lookupFrom?_of_inner {inside : List String} {x : String} {qualifier : Bool} {e : Entity}
    {k depth : Nat} (hpos : 0 < k) (hk : k ≤ depth)
    (hfind : s.find? (inside.take k) x qualifier = some e) :
    ∃ k' e', k ≤ k' ∧ k' ≤ depth ∧ s.find? (inside.take k') x qualifier = some e' ∧
      s.lookupFrom? inside x qualifier depth = some e' := by
  induction depth with
  | zero => omega
  | succ depth ih =>
    rw [lookupFrom?]
    cases hinner : s.find? (inside.take (depth + 1)) x qualifier with
    | some e' => exact ⟨depth + 1, e', hk, Nat.le_refl _, hinner, rfl⟩
    | none =>
      have hlt : k ≤ depth := by
        rcases Nat.lt_or_eq_of_le hk with hlt | rfl
        · omega
        · rw [hfind] at hinner; cases hinner
      obtain ⟨k', e', hle, hle', hfind', hlookup⟩ := ih hlt
      exact ⟨k', e', hle, by omega, hfind', hlookup⟩

/-- What is found in a class stands in the same outermost class, unless it is that class. -/
theorem find?_head {path : List String} {x : String} {qualifier : Bool} {e : Entity}
    (hpath : path ≠ []) (h : s.find? path x qualifier = some e) :
    e.scope.head? = path.head? ∨ path = [x] ∧ e = .type ⟨[], x⟩ := by
  obtain ⟨o, members, -, -, rfl, hself | hmember⟩ := find?_cases hpath h
  · obtain ⟨rfl, rfl⟩ := hself
    cases hscope : o.scope with
    | nil =>
      right
      rw [Place.classPath, Place.type, hscope]
      exact ⟨rfl, rfl⟩
    | cons c rest =>
      left
      rw [Place.classPath, Entity.scope, Place.type, hscope]
      rfl
  · left
    rw [hmember.1]

theorem findBehind?_head {e e' : Entity} {x c : String} {qualifier : Bool}
    (hhead : e.scope.head? = some c) (h : s.findBehind? e x qualifier = some e') :
    e'.scope.head? = some c := by
  cases e with
  | helper owner name => cases h
  | member scope name => cases h
  | type q =>
    obtain ⟨scope, name⟩ := q
    change scope.head? = some c at hhead
    cases scope with
    | nil => cases hhead
    | cons c' rest =>
      rcases find?_head (List.cons_ne_nil _ _) h with hsame | ⟨hshort, -⟩
      · rw [hsame]
        exact hhead
      · cases rest <;> cases hshort

/-- Following a qualification never leaves the outermost class. -/
theorem foldlM_findBehind?_head {classes : List String} {e e' : Entity} {c : String}
    (hhead : e.scope.head? = some c)
    (h : classes.foldlM (fun e x => s.findBehind? e x true) e = some e') :
    e'.scope.head? = some c := by
  induction classes generalizing e with
  | nil =>
    obtain rfl := Option.some.inj h
    exact hhead
  | cons x rest ih =>
    obtain ⟨next, hnext, hrest⟩ := Option.bind_eq_some_iff.mp h
    exact ih (findBehind?_head hhead hnext) hrest

/-- Only inside a class a name can be hidden. -/
theorem Hides.exists_head {inside : List String} {m : Mention} (h : s.Hides inside m) :
    ∃ c, inside.head? = some c := by
  obtain ⟨k, -, hpos, hk, -⟩ := h
  cases inside with
  | nil => rw [List.length_nil] at hk; omega
  | cons c rest => exact ⟨c, rfl⟩

/-- A hidden first component means something else, in the outermost class around the body or that
class itself. -/
theorem Hides.lookup? {inside : List String} {m : Mention} (h : s.Hides inside m) :
    ∃ e, s.lookup? inside m.first m.isQualified = some e ∧ e ≠ m.firstEntity ∧
      (e.scope.head? = inside.head? ∨ e = .type ⟨[], m.first⟩) := by
  obtain ⟨c, hinside⟩ := h.exists_head
  obtain ⟨k, e, hpos, hk, hfind, hne⟩ := h
  obtain ⟨k', e', hle, hle', hfind', hlookup⟩ := lookupFrom?_of_inner hpos hk hfind
  have hlength : (inside.take k').length = k' := by
    rw [List.length_take]
    omega
  have hpath : inside.take k' ≠ [] := by
    rw [← List.length_pos_iff]
    omega
  refine ⟨e', hlookup, ?_⟩
  rcases find?_head hpath hfind' with hhead | ⟨hshort, rfl⟩
  · rw [List.head?_take, if_neg (by omega)] at hhead
    refine ⟨?_, .inl hhead⟩
    rintro rfl
    rw [m.firstEntity_scope, hinside] at hhead
    cases hhead
  · rw [hshort, List.length_singleton] at hlength
    obtain rfl : k = k' := by omega
    rw [hfind] at hfind'
    obtain rfl := Option.some.inj hfind'
    exact ⟨hne, .inr rfl⟩

/-! ## Names that start with the outermost class around the body -/

/-- No class around a body declares the name of the outermost of them. -/
theorem Admissible.not_declares (hs : s.Admissible) {inside : List String} {c : String}
    (hinside : inside.head? = some c) : ¬ s.Declares inside c := by
  rintro ⟨k, o, members, hpos, -, ho, hnode, hpath, hdeclared⟩
  have hhead : o.classPath.head? = some c := by
    rw [hpath, List.head?_take, if_neg (by omega), hinside]
  have htaken := (hs.classes o members ho hnode).2 c hdeclared
  rw [List.append_assoc, List.mem_append, not_or] at htaken
  exact htaken.2 (List.mem_of_head? hhead)

/-- A name that starts with the outermost class around the body is not hidden. -/
theorem Admissible.not_hides (hs : s.Admissible) {inside : List String} {m : Mention} {c : String}
    (hinside : inside.head? = some c) (hscope : m.type.scope.head? = some c) :
    ¬ s.Hides inside m := by
  rintro ⟨k, e, hpos, hk, hfind, hne⟩
  have hhead : (inside.take k).head? = some c := by
    rw [List.head?_take, if_neg (by omega), hinside]
  have hpath : inside.take k ≠ [] := by
    intro hnil
    rw [hnil] at hhead
    cases hhead
  rw [Mention.first, Mention.isQualified] at hfind
  rw [Mention.firstEntity] at hne
  cases hclasses : m.type.scope with
  | nil => rw [hclasses] at hscope; cases hscope
  | cons c' rest =>
    rw [hclasses] at hscope hfind hne
    obtain rfl := Option.some.inj hscope
    obtain ⟨o, members, ho, hnode, hclassPath, hself | ⟨-, hmember | ⟨hno, -⟩⟩⟩ :=
      find?_cases hpath hfind
    · obtain ⟨rfl, rfl⟩ := hself
      rw [← hclassPath, Place.classPath] at hhead
      cases houter : o.scope with
      | nil =>
        have htype : o.type = ⟨[], o.type.name⟩ := by rw [Place.type, houter]
        exact hne (congrArg Entity.type htype)
      | cons c rest =>
        have hmem : o.type.name ∈ o.scope := by
          rw [houter] at hhead ⊢
          exact List.mem_of_head? (l := c :: rest) hhead
        have haround : o.around ≠ [] := by
          intro hnil
          rw [Place.scope, hnil] at houter
          cases houter
        exact (hs.nested_type_not_taken ho (by rw [hnode]; rfl) haround).2 hmem
    · exact hs.not_declares hinside ⟨k, o, members, hpos, hk, ho, hnode, hclassPath, hmember⟩
    · cases hno

/-! ## When a name means what it was spelled from -/

/-- A name whose first component has another meaning does not mean what it was spelled from. -/
theorem Admissible.denotes?_ne_of_hides (hs : s.Admissible) {inside : List String} {m : Mention}
    (hhides : s.Hides inside m) : s.denotes? inside m.type.scope m.name ≠ some m.entity := by
  intro hdenotes
  obtain ⟨e, hlookup, hne, hwhere⟩ := hhides.lookup?
  cases hscope : m.type.scope with
  | nil =>
    have hentity : m.firstEntity = m.entity := by rw [Mention.firstEntity, hscope]
    rw [Mention.first, Mention.isQualified, hscope] at hlookup
    rw [hscope] at hdenotes
    rw [hentity] at hne
    exact hne (Option.some.inj (hlookup.symm.trans hdenotes))
  | cons c rest =>
    have hfirst : m.firstEntity = .type ⟨[], c⟩ := by rw [Mention.firstEntity, hscope]
    have hname : m.first = c := by rw [Mention.first, hscope]; rfl
    have hhead : e.scope.head? = inside.head? := by
      rcases hwhere with hhead | rfl
      · exact hhead
      · rw [hname, hfirst] at hne
        exact absurd rfl hne
    rw [hname, Mention.isQualified, hscope] at hlookup
    rw [hscope] at hdenotes
    obtain ⟨outer, houter, hdenotes⟩ := Option.bind_eq_some_iff.mp hdenotes
    obtain rfl : e = outer := Option.some.inj (hlookup.symm.trans houter)
    obtain ⟨owner, hfollow, hlast⟩ := Option.bind_eq_some_iff.mp hdenotes
    -- What is reached lies in the outermost class around the body. If it were what is meant, the
    -- name would start with that class and could not be hidden.
    obtain ⟨d, hinside⟩ := hhides.exists_head
    have howner := foldlM_findBehind?_head (hhead.trans hinside) hfollow
    have hreached := findBehind?_head howner hlast
    rw [Mention.entity_scope] at hreached
    exact hs.not_hides hinside hreached hhides

/-- A name of a type or of a helper, as seen from the target namespace, has its meaning inside
classes exactly if none of them gives its first component another one. -/
theorem Admissible.denotes?_eq_some_iff (hs : s.Admissible) {q : Place} (hq : s.Has q)
    (href : q.node.isReference = false) {m : Mention} (hm : m.type = q.type)
    (inside : List String) :
    s.denotes? inside m.type.scope m.name = some m.entity ↔ ¬ s.Hides inside m := by
  constructor
  · intro hdenotes hhides
    exact hs.denotes?_ne_of_hides hhides hdenotes
  · intro hvisible
    refine hs.denotes?_of_lookup? hq href hm (lookupFrom?_of_find? (hs.find?_first hq href hm) ?_)
    intro k e hpos hk hfind
    by_contra hne
    exact hvisible ⟨k, e, hpos, hk, hfind, hne⟩

end Schema

end ConfigForge
