import ConfigForge.Proofs.Run
import Mathlib.Data.List.Nodup

/-!
# The names that a type declares

A type brings its own name and those of its four families of helpers into its scope. The names have
different lengths, except for the two conversions, which are as long as each other: `ToJson` is written
behind the name of the type and `JsonTo` before it. They coincide exactly for the types `Json`,
`JsonToJson`, `JsonToJsonToJson` and so on. Since the conversions stand next to each other, dropping
repeated neighbours drops every repetition.

So the names of a type never collide with each other. Where a type cannot be declared, one of its names
was taken before.

Results:

* `append_toJson_eq_iff`: which names read the same with `ToJson` behind them and `JsonTo` before them.
* `typeNames_eq`: the names of a type, with one conversion or two.
* `nodup_typeNames`: the names of a type differ.
* `exists_declareType_iff`, `declareType_error_taken`: a type can be declared unless one of its names
  was taken before.
* `typeNames_apart`: how many names a type has, which they are, and what they collide with.
-/

namespace ConfigForge

/-! ## Names with coinciding conversions -/

/-- The name `Json` behind so many times `JsonTo`. -/
def jsonBehind (k : Nat) : String :=
  String.join (List.replicate k "JsonTo") ++ "Json"

theorem jsonBehind_succ (k : Nat) : jsonBehind (k + 1) = "JsonTo" ++ jsonBehind k := by
  rw [jsonBehind, List.replicate_succ, String.join_cons, String.append_assoc, jsonBehind]

/-- What `JsonTo` can be cut into so that the parts, exchanged, are `ToJson`. -/
theorem eq_json_of_cut {x rest : List Char} (hfront : "JsonTo".toList = x ++ rest)
    (hback : "ToJson".toList = rest ++ x) : x = "Json".toList := by
  have hcuts : ∀ n : Fin 7, "ToJson".toList = "JsonTo".toList.drop n ++ "JsonTo".toList.take n →
      "JsonTo".toList.take n = "Json".toList := by decide
  have hlength : x.length < 7 := by
    have h := congrArg List.length hfront
    rw [List.length_append] at h
    change 6 = x.length + rest.length at h
    omega
  have hx : x = "JsonTo".toList.take x.length := by rw [hfront, List.take_left]
  have hrest : rest = "JsonTo".toList.drop x.length := by rw [hfront, List.drop_left]
  rw [hx]
  refine hcuts ⟨x.length, hlength⟩ ?_
  rw [← hx, ← hrest, hback]

/-- **Coinciding conversions.** A name with `ToJson` behind it is the name with `JsonTo` before it
exactly if it is `Json` behind some `JsonTo`. -/
theorem append_toJson_eq_iff {type : String} :
    type ++ "ToJson" = "JsonTo" ++ type ↔ ∃ k, type = jsonBehind k := by
  constructor
  · intro h
    -- either the name is part of `JsonTo`, or it starts with it and the rest is as the name
    induction hn : type.length using Nat.strongRecOn generalizing type with
    | ind n ih =>
      have hchars := congrArg String.toList h
      rw [String.toList_append, String.toList_append, List.append_eq_append_iff] at hchars
      rcases hchars with ⟨rest, hfront, hback⟩ | ⟨rest, hfront, hback⟩
      · exact ⟨0, String.toList_inj.mp (eq_json_of_cut hfront hback)⟩
      · obtain ⟨tail, rfl⟩ : ∃ tail : String, tail.toList = rest := ⟨.ofList rest, String.toList_ofList⟩
        have htype : type = "JsonTo" ++ tail := by
          rw [← String.toList_inj, String.toList_append]
          exact hfront
        have htail : tail ++ "ToJson" = "JsonTo" ++ tail := by
          rw [← htype, ← String.toList_inj, String.toList_append]
          exact hback.symm
        have hlength : tail.length < n := by
          rw [← hn, htype, String.length_append]
          change _ < 6 + _
          omega
        obtain ⟨k, hk⟩ := ih _ hlength htail rfl
        exact ⟨k + 1, by rw [htype, hk, jsonBehind_succ]⟩
  · rintro ⟨k, rfl⟩
    induction k with
    | zero => decide
    | succ k ih => rw [jsonBehind_succ, String.append_assoc, ih]

/-! ## The names of a type -/

/-- How much longer than the name of a type the name of a helper is. -/
def Helper.surplus : Helper → Nat
  | .init => 4
  | .validate => 8
  | .toJson | .jsonTo => 6

theorem Helper.length_name (h : Helper) (type : String) :
    (h.name type).length = type.length + h.surplus := by
  cases h <;> rw [Helper.name, String.length_append]
  · exact Nat.add_comm 4 _
  · exact Nat.add_comm 8 _
  · rfl
  · exact Nat.add_comm 6 _

theorem Helper.name_ne (h : Helper) (type : String) : h.name type ≠ type := by
  intro heq
  have hlength := h.length_name type
  rw [heq] at hlength
  cases h <;> simp [surplus] at hlength

theorem Helper.name_ne_of_surplus {h h' : Helper} (hne : h.surplus ≠ h'.surplus) (type : String) :
    h.name type ≠ h'.name type := by
  intro heq
  have hlength := h.length_name type
  rw [heq, h'.length_name] at hlength
  omega

/-- The names of the conversions of a type: one name or two. -/
def conversionNames (type : String) : List String :=
  if Helper.toJson.name type = Helper.jsonTo.name type then [Helper.jsonTo.name type]
  else [Helper.toJson.name type, Helper.jsonTo.name type]

/-- Only the conversions of a type can coincide, and then one of them is dropped. -/
theorem typeNames_eq (type : String) :
    typeNames type =
      [type, Helper.init.name type, Helper.validate.name type] ++ conversionNames type := by
  rw [typeNames, dropAdjacentRepeats, if_neg (Helper.name_ne .init type).symm,
    dropAdjacentRepeats, if_neg (Helper.name_ne_of_surplus (by decide) type),
    dropAdjacentRepeats, if_neg (Helper.name_ne_of_surplus (by decide) type),
    dropAdjacentRepeats, dropAdjacentRepeats]
  rfl

theorem mem_conversionNames {x type : String} (h : x ∈ conversionNames type) :
    x = Helper.toJson.name type ∨ x = Helper.jsonTo.name type := by
  rw [conversionNames] at h
  split at h
  · exact .inr (List.mem_singleton.mp h)
  · simpa using h

theorem nodup_conversionNames (type : String) : (conversionNames type).Nodup := by
  rw [conversionNames]
  split
  · exact List.nodup_singleton _
  · next hne => simpa using hne

/-- **The names of a type differ.** -/
theorem nodup_typeNames (type : String) : (typeNames type).Nodup := by
  have hvalues : [type, Helper.init.name type, Helper.validate.name type].Nodup := by
    have hinit := (Helper.name_ne .init type).symm
    have hvalidate := (Helper.name_ne .validate type).symm
    have hapart : Helper.init.name type ≠ Helper.validate.name type :=
      Helper.name_ne_of_surplus (by decide) type
    simp [hinit, hvalidate, hapart]
  rw [typeNames_eq]
  refine List.nodup_append.mpr ⟨hvalues, nodup_conversionNames type, ?_⟩
  rintro x hx y hy rfl
  simp only [List.mem_cons, List.not_mem_nil, or_false] at hx
  -- the conversions add six characters, and no other name of the type does
  rcases mem_conversionNames hy with rfl | rfl <;> rcases hx with hx | hx | hx
  · exact Helper.name_ne .toJson type hx
  · exact Helper.name_ne_of_surplus (by decide) type hx
  · exact Helper.name_ne_of_surplus (by decide) type hx
  · exact Helper.name_ne .jsonTo type hx
  · exact Helper.name_ne_of_surplus (by decide) type hx
  · exact Helper.name_ne_of_surplus (by decide) type hx

theorem length_typeNames (type : String) :
    (typeNames type).length = if type ++ "ToJson" = "JsonTo" ++ type then 4 else 5 := by
  rw [typeNames_eq, conversionNames]
  by_cases h : type ++ "ToJson" = "JsonTo" ++ type <;> simp [Helper.name, h]

/-! ## Declaring a type -/

section

variable {ctx : Context} {scope : Scope} {outer : List Scope} {type : QualifiedName}

/-- A type can be declared exactly if none of its names was taken before. -/
theorem exists_declareType_iff (hscopes : ctx.scopes = scope :: outer) :
    (∃ ctx', ctx.declareType type = .ok ctx') ↔ ∀ x ∈ typeNames type.name, x ∉ scope.taken := by
  simp only [Context.declareType, Context.declareAll_ok_iff hscopes, Scope.Free,
    nodup_typeNames type.name, true_and, exists_and_left, exists_eq, and_true]

/-- Where a type cannot be declared, one of its names was taken before. -/
theorem declareType_error_taken {e : GenerationError} (hscopes : ctx.scopes = scope :: outer)
    (h : ctx.declareType type = .error e) :
    ∃ x ∈ typeNames type.name, x ∈ scope.taken ∧ e = .collision scope.label x := by
  obtain ⟨front, x, back, hnames, htaken, he⟩ := Context.declareAll_error hscopes h
  have hx : x ∈ typeNames type.name := by
    rw [hnames]
    exact List.mem_append_right _ List.mem_cons_self
  refine ⟨x, hx, ?_, he⟩
  rcases Scope.mem_taken_withNames.mp htaken with hfront | htaken
  · -- the names before it are other names
    have hnodup := nodup_typeNames type.name
    rw [hnames] at hnodup
    exact absurd rfl ((List.nodup_append.mp hnodup).2.2 x hfront x List.mem_cons_self)
  · exact htaken

end

/-- **The names of a type.** A type declares its own name and the names of its helpers, each once.
There are four names if the type is `Json` behind any number of `JsonTo`, and five otherwise. Where a
scope is open, a type can be declared exactly if none of these names was taken before; otherwise a name
that was taken before is reported. -/
theorem typeNames_apart (type : String) :
    (typeNames type).Nodup ∧
    (∀ x, x ∈ typeNames type ↔ x ∈ [type, "Init" ++ type, "Validate" ++ type, type ++ "ToJson",
      "JsonTo" ++ type]) ∧
    ((typeNames type).length = 4 ↔
      ∃ k, type = String.join (List.replicate k "JsonTo") ++ "Json") ∧
    ((typeNames type).length = 5 ↔
      ¬ ∃ k, type = String.join (List.replicate k "JsonTo") ++ "Json") ∧
    ∀ (ctx : Context) (around : List String) (scope : Scope) (outer : List Scope),
      ctx.scopes = scope :: outer →
        ((∃ ctx', ctx.declareType ⟨around, type⟩ = .ok ctx') ↔
          ∀ x ∈ typeNames type, x ∉ scope.taken) ∧
        ∀ e, ctx.declareType ⟨around, type⟩ = .error e →
          ∃ x ∈ typeNames type, x ∈ scope.taken ∧ e = .collision scope.label x := by
  have hlength := length_typeNames type
  refine ⟨nodup_typeNames type, fun x => ?_, ?_, ?_, fun ctx around scope outer hscopes =>
    ⟨exists_declareType_iff hscopes, fun e => declareType_error_taken hscopes⟩⟩
  · rw [typeNames, mem_dropAdjacentRepeats]
    rfl
  · refine Iff.trans ?_ append_toJson_eq_iff
    rw [hlength]
    split <;> simp_all
  · refine Iff.trans ?_ (not_congr append_toJson_eq_iff)
    rw [hlength]
    split <;> simp_all

/-- The type `JsonToJson` has one name for both conversions. It can be declared in an empty scope, but
not after `Json`, whose conversions are called like it. -/
theorem jsonToJson_declared :
    (typeNames "JsonToJson").length = 4 ∧
      (∃ ctx, Context.initial.declareType ⟨[], "JsonToJson"⟩ = .ok ctx) ∧
      ∃ after, Context.initial.declareType ⟨[], "Json"⟩ = .ok after ∧
        ¬ ∃ ctx, after.declareType ⟨[], "JsonToJson"⟩ = .ok ctx := by
  obtain ⟨-, -, hfour, -, hdeclare⟩ := typeNames_apart "JsonToJson"
  refine ⟨hfour.mpr ⟨1, by decide⟩, ?_, ?_⟩
  · exact (hdeclare .initial [] .outermost [] rfl).1.mpr fun x _ hx => by cases hx
  · have hfree : Scope.outermost.Free (typeNames "Json") :=
      ⟨nodup_typeNames "Json", fun x _ hx => by cases hx⟩
    refine ⟨_, (Context.declareAll_ok_iff rfl).mpr ⟨hfree, rfl⟩, fun hok => ?_⟩
    refine (hdeclare _ [] (Scope.outermost.withNames (typeNames "Json")) [] rfl).1.mp hok "JsonToJson"
      (by decide) ?_
    exact Scope.mem_taken_withNames.mpr (.inl (by decide))

end ConfigForge
