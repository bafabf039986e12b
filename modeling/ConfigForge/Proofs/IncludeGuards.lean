import ConfigForge.Output.Layout
import ConfigForge.Proofs.LegalNames
import Mathlib.Logic.Function.Iterate

/-!
# Include guards

A guard is made of the path and the name of a header by force: what is no letter or digit becomes an
underscore, and then pairs of underscores are merged until no pair is left. The text that this loop
works on is a row of stretches, each a run of letters and digits with a gap behind it. One pass
leaves the runs alone and halves the gaps, upwards, so at the end every gap is one underscore wide.

Results:

* `exists_stretches`: a text that ends in a separator is a gap and a row of stretches.
* `mergePairs_guardText`, `squeezeUnderscores_guardText`: what a pass and the loop do to a row of
  stretches.
* `squeezeUnderscores_eq_iterate`: the loop is so many passes, and stops as soon as it may.
* `includeGuard_legal`: the closed form of a guard, and that it is a legal name for a macro.
-/

namespace ConfigForge

/-- The maximal runs of letters and digits of a text, in their order. -/
def alnumRuns (cs : List Char) : List (List Char) :=
  (cs.splitOnP fun c => !c.isAlphanum).filter fun run => !run.isEmpty

example : alnumRuns "/a-B__9.".toList = [['a'], ['B'], ['9']] := by decide

/-- A name that a macro of a program may have: upper case, and not of those that the language keeps
for itself, which start with an underscore or have two of them in a row. -/
structure IsMacroName (cs : List Char) : Prop where
  leads : ∃ c rest, cs = c :: rest ∧ c.isUpper = true
  chars : ∀ c ∈ cs, c.isUpper = true ∨ c.isDigit = true ∨ c = '_'
  no_pair : ¬ ['_', '_'] <:+: cs

/-- The text that a guard is made of. -/
def Options.guardSource (o : Options) : List Char :=
  (o.includePath ++ "_" ++ o.baseName ++ "_H_").toList

/-- The text on which the underscores are merged. -/
def Options.guardStart (o : Options) : List Char :=
  (o.guardSource.dropWhile fun c => !c.isAlphanum).map guardChar

theorem Options.includeGuard_eq (o : Options) :
    o.includeGuard = String.ofList (leadByLetter (squeezeUnderscores o.guardStart)) := rfl

/-! ## The loop -/

theorem hasUnderscorePair_iff (cs : List Char) :
    hasUnderscorePair cs = true ↔ ['_', '_'] <:+: cs := by
  fun_induction hasUnderscorePair cs with
  | case1 => simp
  | case2 c => simp [List.infix_cons_iff]
  | case3 c d rest ih =>
    rw [List.infix_cons_iff, ← ih, List.cons_prefix_cons, List.cons_prefix_cons]
    simp [eq_comm (a := '_')]

theorem squeezeUnderscores_eq (cs : List Char) :
    squeezeUnderscores cs =
      if hasUnderscorePair cs then squeezeUnderscores (mergePairs cs) else cs := by
  rw [squeezeUnderscores]
  split <;> rfl

/-- The loop makes so many passes over the text, as long as there is a pair, and no pass more. -/
theorem squeezeUnderscores_eq_iterate (cs : List Char) :
    ∃ passes, squeezeUnderscores cs = mergePairs^[passes] cs ∧
      hasUnderscorePair (squeezeUnderscores cs) = false ∧
      ∀ j < passes, hasUnderscorePair (mergePairs^[j] cs) = true := by
  fun_induction squeezeUnderscores cs with
  | case1 cs h _ ih =>
    obtain ⟨passes, heq, hnone, hpairs⟩ := ih
    refine ⟨passes + 1, heq, hnone, fun j hj => ?_⟩
    cases j with
    | zero => exact h
    | succ j => exact hpairs j (by omega)
  | case2 cs h => exact ⟨0, rfl, by simpa using h, by simp⟩

/-! ## Rows of stretches -/

/-- A run of letters and digits with the other characters up to the next run. -/
structure Stretch where
  run : List Char
  gap : List Char
  run_ne_nil : run ≠ []
  gap_ne_nil : gap ≠ []
  run_isAlphanum : ∀ c ∈ run, c.isAlphanum = true
  gap_not_isAlphanum : ∀ c ∈ gap, c.isAlphanum = false

/-- The characters of a stretch. -/
def Stretch.text (s : Stretch) : List Char :=
  s.run ++ s.gap

/-- A text that ends in a separator is a row of stretches, with a gap in front. -/
theorem exists_stretches (cs : List Char) {sep : Char} (hsep : sep.isAlphanum = false) :
    ∃ (gap : List Char) (stretches : List Stretch),
      cs ++ [sep] = gap ++ stretches.flatMap Stretch.text ∧ ∀ c ∈ gap, c.isAlphanum = false := by
  induction cs with
  | nil => exact ⟨[sep], [], by simp, by simpa using hsep⟩
  | cons c cs ih =>
    obtain ⟨gap, stretches, heq, hgap⟩ := ih
    by_cases hc : c.isAlphanum = true
    · -- the character starts a run of its own, unless the rest starts with a run that it extends
      cases gap with
      | nil =>
        cases stretches with
        | nil => simp at heq
        | cons s stretches =>
          let extended : Stretch := ⟨c :: s.run, s.gap, by simp, s.gap_ne_nil,
            by simpa [hc] using s.run_isAlphanum, s.gap_not_isAlphanum⟩
          exact ⟨[], extended :: stretches, by simp [heq, Stretch.text, extended], by simp⟩
      | cons d gap =>
        let single : Stretch := ⟨[c], d :: gap, by simp, by simp, by simpa using hc, hgap⟩
        exact ⟨[], single :: stretches, by simp [heq, Stretch.text, single], by simp⟩
    · exact ⟨c :: gap, stretches, by simp [heq], by simpa [hc] using hgap⟩

theorem alnumRuns_gap {gap : List Char} (hgap : ∀ c ∈ gap, c.isAlphanum = false)
    (rest : List Char) : alnumRuns (gap ++ rest) = alnumRuns rest := by
  induction gap with
  | nil => rfl
  | cons c gap ih =>
    obtain ⟨hc, hgap⟩ := List.forall_mem_cons.mp hgap
    rw [← ih hgap, List.cons_append, alnumRuns, List.splitOnP_cons_eq_if_modifyHead]
    simp [hc, alnumRuns]

theorem alnumRuns_stretch (s : Stretch) (rest : List Char) :
    alnumRuns (s.text ++ rest) = s.run :: alnumRuns rest := by
  obtain ⟨sep, gap, hgap⟩ := List.exists_cons_of_ne_nil s.gap_ne_nil
  obtain ⟨hsep, hrest⟩ := List.forall_mem_cons.mp (hgap ▸ s.gap_not_isAlphanum)
  have hsplit := List.splitOnP_append_cons_of_forall_mem
    (p := fun c => !c.isAlphanum) (by simpa using s.run_isAlphanum) sep (by simp [hsep])
    (gap ++ rest)
  have htext : s.text ++ rest = s.run ++ sep :: (gap ++ rest) := by simp [Stretch.text, hgap]
  calc alnumRuns (s.text ++ rest)
      = s.run :: alnumRuns (gap ++ rest) := by
        rw [htext, alnumRuns, hsplit]
        simp [s.run_ne_nil, alnumRuns]
    _ = s.run :: alnumRuns rest := by rw [alnumRuns_gap hrest]

/-- The runs of a row of stretches are those of its members. -/
theorem alnumRuns_stretches (stretches : List Stretch) :
    alnumRuns (stretches.flatMap Stretch.text) = stretches.map Stretch.run := by
  induction stretches with
  | nil => decide
  | cons s stretches ih => rw [List.flatMap_cons, alnumRuns_stretch, ih, List.map_cons]

/-! ## The passes of the loop -/

/-- The text of a row of stretches in a guard, with gaps of the given widths. -/
def guardText (width : Stretch → Nat) (stretches : List Stretch) : List Char :=
  stretches.flatMap fun s => s.run.map Char.toUpper ++ List.replicate (width s) '_'

theorem map_guardChar_text (s : Stretch) :
    s.text.map guardChar = s.run.map Char.toUpper ++ List.replicate s.gap.length '_' := by
  have hrun : s.run.map guardChar = s.run.map Char.toUpper :=
    List.map_congr_left fun c hc => by rw [guardChar, if_pos (s.run_isAlphanum c hc)]
  have hgap : s.gap.map guardChar = List.replicate s.gap.length '_' :=
    List.eq_replicate_iff.mpr ⟨List.length_map _, fun c hc => by
      obtain ⟨d, hd, rfl⟩ := List.mem_map.mp hc
      simp [guardChar, s.gap_not_isAlphanum d hd]⟩
  rw [Stretch.text, List.map_append, hrun, hgap]

theorem map_guardChar_stretches (stretches : List Stretch) :
    (stretches.flatMap Stretch.text).map guardChar =
      guardText (fun s => s.gap.length) stretches := by
  rw [List.map_flatMap, guardText]
  exact congrArg (stretches.flatMap ·) (funext map_guardChar_text)

theorem isUpper_or_isDigit_toUpper {c : Char} (h : c.isAlphanum = true) :
    c.toUpper.isUpper = true ∨ c.toUpper.isDigit = true :=
  ascii_forall
    (P := fun c => c.isAlphanum = true → c.toUpper.isUpper = true ∨ c.toUpper.isDigit = true)
    (by decide) (isAlphanum_toNat_lt h) h

theorem Stretch.underscore_not_mem (s : Stretch) : '_' ∉ s.run.map Char.toUpper := by
  intro hmem
  obtain ⟨c, hc, heq⟩ := List.mem_map.mp hmem
  have halnum := isAlphanum_toUpper (s.run_isAlphanum c hc)
  rw [heq] at halnum
  exact absurd halnum (by decide)

theorem head?_guardText_ne (width : Stretch → Nat) (stretches : List Stretch) :
    (guardText width stretches).head? ≠ some '_' := by
  cases stretches with
  | nil => simp [guardText]
  | cons s stretches =>
    intro hhead
    obtain ⟨c, run, hrun⟩ := List.exists_cons_of_ne_nil s.run_ne_nil
    have hfirst : c.toUpper = '_' := by simpa [guardText, hrun] using hhead
    exact s.underscore_not_mem (by simp [hrun, hfirst])

theorem mergePairs_cons_of_ne {c : Char} (hc : c ≠ '_') (rest : List Char) :
    mergePairs (c :: rest) = c :: mergePairs rest := by
  cases rest with
  | nil => rfl
  | cons d rest => rw [mergePairs, if_neg (by simp [hc])]

theorem mergePairs_word {word : List Char} (hword : '_' ∉ word) (rest : List Char) :
    mergePairs (word ++ rest) = word ++ mergePairs rest := by
  induction word with
  | nil => rfl
  | cons c word ih =>
    obtain ⟨hc, hword⟩ := not_or.mp (List.mem_cons.not.mp hword)
    rw [List.cons_append, mergePairs_cons_of_ne (Ne.symm hc), ih hword, List.cons_append]

theorem mergePairs_underscores {rest : List Char} (hrest : rest.head? ≠ some '_') (k : Nat) :
    mergePairs (List.replicate k '_' ++ rest) =
      List.replicate ((k + 1) / 2) '_' ++ mergePairs rest := by
  induction k using Nat.twoStepInduction with
  | zero => rfl
  | one =>
    cases rest with
    | nil => rfl
    | cons c rest =>
      have hc : c ≠ '_' := by simpa using hrest
      simp [mergePairs, hc]
  | more k ih _ =>
    have hhalf : (k + 2 + 1) / 2 = (k + 1) / 2 + 1 := by omega
    rw [hhalf, List.replicate_succ, List.replicate_succ, List.replicate_succ, List.cons_append,
      List.cons_append, List.cons_append, mergePairs, if_pos ⟨rfl, rfl⟩, ih]

/-- A pass halves the gaps, upwards. -/
theorem mergePairs_guardText (width : Stretch → Nat) (stretches : List Stretch) :
    mergePairs (guardText width stretches) =
      guardText (fun s => (width s + 1) / 2) stretches := by
  induction stretches with
  | nil => rfl
  | cons s stretches ih =>
    have hrest := head?_guardText_ne width stretches
    calc mergePairs (guardText width (s :: stretches))
        = mergePairs (s.run.map Char.toUpper ++
            (List.replicate (width s) '_' ++ guardText width stretches)) := by
          simp [guardText]
      _ = s.run.map Char.toUpper ++ (List.replicate ((width s + 1) / 2) '_' ++
            guardText (fun s => (width s + 1) / 2) stretches) := by
          rw [mergePairs_word s.underscore_not_mem, mergePairs_underscores hrest, ih]
      _ = guardText (fun s => (width s + 1) / 2) (s :: stretches) := by simp [guardText]

/-- Where no pair is left, no gap is wider than one underscore. -/
theorem width_le_one {width : Stretch → Nat} {stretches : List Stretch}
    (h : hasUnderscorePair (guardText width stretches) = false) :
    ∀ s ∈ stretches, width s ≤ 1 := by
  intro s hs
  by_contra hwide
  obtain ⟨front, behind, rfl⟩ := List.append_of_mem hs
  have hgap : ['_', '_'] <:+: List.replicate (width s) '_' := by
    obtain ⟨k, hk⟩ : ∃ k, width s = k + 2 := ⟨width s - 2, by omega⟩
    exact ⟨[], List.replicate k '_', by rw [hk]; rfl⟩
  have hpair : ['_', '_'] <:+: guardText width (front ++ s :: behind) :=
    hgap.trans ⟨guardText width front ++ s.run.map Char.toUpper, guardText width behind,
      by simp [guardText]⟩
  rw [← hasUnderscorePair_iff, h] at hpair
  cases hpair

/-- The loop leaves one underscore in every gap. -/
theorem squeezeUnderscores_guardText {stretches : List Stretch} {width : Stretch → Nat}
    (hwidth : ∀ s, 0 < width s) :
    squeezeUnderscores (guardText width stretches) = guardText (fun _ => 1) stretches := by
  -- along the passes, by induction on the length of the text
  induction hlen : (guardText width stretches).length using Nat.strong_induction_on
    generalizing width with
  | _ len ih =>
    rw [squeezeUnderscores_eq]
    split
    · rename_i h
      have hshort := length_mergePairs_lt h
      rw [mergePairs_guardText] at hshort ⊢
      exact ih _ (hlen ▸ hshort) (fun s => by have := hwidth s; omega) rfl
    · rename_i h
      have hone := width_le_one (by simpa using h)
      refine List.flatMap_congr fun s hs => ?_
      have heq : width s = 1 := by
        have := hwidth s
        have := hone s hs
        omega
      rw [heq]

/-! ## The guard -/

theorem hasUnderscorePair_guardText_one (stretches : List Stretch) :
    hasUnderscorePair (guardText (fun _ => 1) stretches) = false := by
  have hone : ∀ s : Stretch, 0 < (fun _ : Stretch => 1) s := fun _ => Nat.one_pos
  obtain ⟨passes, -, hnone, -⟩ := squeezeUnderscores_eq_iterate (guardText (fun _ => 1) stretches)
  rwa [squeezeUnderscores_guardText hone] at hnone

/-- A guard source is a row of stretches behind a gap, and the row is what the loop starts from. -/
theorem Options.exists_guardStart (o : Options) :
    ∃ s stretches, alnumRuns o.guardSource = (s :: stretches).map Stretch.run ∧
      o.guardStart = guardText (fun s => s.gap.length) (s :: stretches) := by
  have hsource : o.guardSource =
      (o.includePath ++ "_" ++ o.baseName ++ "_H").toList ++ ['_'] := by
    simp [Options.guardSource, String.toList_append]
  obtain ⟨gap, stretches, heq, hgap⟩ :=
    exists_stretches (o.includePath ++ "_" ++ o.baseName ++ "_H").toList
      (show '_'.isAlphanum = false by decide)
  rw [← hsource] at heq
  have hstart : o.guardStart = guardText (fun s => s.gap.length) stretches := by
    have hdrop : (stretches.flatMap Stretch.text).dropWhile (fun c => !c.isAlphanum) =
        stretches.flatMap Stretch.text := by
      cases stretches with
      | nil => rfl
      | cons s stretches =>
        obtain ⟨c, run, hrun⟩ := List.exists_cons_of_ne_nil s.run_ne_nil
        have hc := s.run_isAlphanum c (by simp [hrun])
        simp [Stretch.text, hrun, hc]
    rw [Options.guardStart, heq, List.dropWhile_append_of_pos (by simpa using hgap), hdrop,
      map_guardChar_stretches]
  cases stretches with
  | nil =>
    -- the letter in the ending is in some run
    have hmem : 'H' ∈ o.guardSource := by simp [Options.guardSource, String.toList_append]
    rw [heq, List.flatMap_nil, List.append_nil] at hmem
    exact absurd (hgap 'H' hmem) (by decide)
  | cons s stretches =>
    refine ⟨s, stretches, ?_, hstart⟩
    rw [heq, alnumRuns_gap hgap, alnumRuns_stretches]

/-- A run in upper case. -/
def upperRun (run : List Char) : String :=
  String.ofList (run.map Char.toUpper)

theorem toList_joinWith_append (sep word : String) (words : List String) :
    (Text.joinWith sep (word :: words) ++ sep).toList =
      (word :: words).flatMap fun w => w.toList ++ sep.toList := by
  induction words generalizing word with
  | nil => simp
  | cons next words ih =>
    have hnext : Text.joinWith sep (word :: next :: words) ++ sep =
        word ++ sep ++ (Text.joinWith sep (next :: words) ++ sep) := by
      rw [Text.joinWith, String.append_assoc]
    rw [hnext, String.toList_append, ih, String.toList_append, List.flatMap_cons (x := word)]

theorem toList_joinWith_runs (s : Stretch) (stretches : List Stretch) :
    (Text.joinWith "_" (((s :: stretches).map Stretch.run).map upperRun) ++ "_").toList =
      guardText (fun _ => 1) (s :: stretches) := by
  rw [List.map_cons, List.map_cons, toList_joinWith_append, ← List.map_cons, ← List.map_cons,
    List.map_map, List.flatMap_map]
  exact List.flatMap_congr fun s _ => by simp [upperRun]

/-- The word goes in front of a guard whose first run starts with a digit. -/
theorem leadByLetter_guardText (width : Stretch → Nat) (s : Stretch) (stretches : List Stretch) :
    leadByLetter (guardText width (s :: stretches)) =
      (if s.run.head?.any Char.isDigit then "CONFIG_".toList else []) ++
        guardText width (s :: stretches) := by
  obtain ⟨c, run, hrun⟩ := List.exists_cons_of_ne_nil s.run_ne_nil
  have hdigit := isDigit_toUpper (s.run_isAlphanum c (by simp [hrun]))
  simp only [guardText, List.flatMap_cons, hrun, List.map_cons, List.cons_append, leadByLetter,
    hdigit, List.head?_cons, Option.any_some]
  split <;> rfl

theorem isMacroName_of_chars {c : Char} {rest : List Char}
    (hc : c.isUpper = true ∨ c.isDigit = true)
    (hchars : ∀ d ∈ c :: rest, d.isUpper = true ∨ d.isDigit = true ∨ d = '_')
    (hpair : hasUnderscorePair (c :: rest) = false) : IsMacroName (leadByLetter (c :: rest)) := by
  rw [leadByLetter]
  split
  · rename_i hdigit
    have hne : c ≠ '_' := by
      rintro rfl
      exact absurd hdigit (by decide)
    have hword : "CONFIG_".toList.all
        (fun d => decide (d.isUpper = true ∨ d.isDigit = true ∨ d = '_')) = true := by decide
    refine ⟨⟨'C', _, rfl, by decide⟩, ?_, ?_⟩
    · refine List.forall_mem_append.mpr ⟨fun d hd => ?_, hchars⟩
      exact of_decide_eq_true (List.all_eq_true.mp hword d hd)
    · rw [← hasUnderscorePair_iff]
      simp [hasUnderscorePair, hpair, hne]
  · rename_i hdigit
    refine ⟨⟨c, rest, rfl, hc.resolve_right hdigit⟩, hchars, ?_⟩
    rw [← hasUnderscorePair_iff, hpair]
    exact Bool.false_ne_true

theorem isMacroName_guardText (s : Stretch) (stretches : List Stretch) :
    IsMacroName (leadByLetter (guardText (fun _ => 1) (s :: stretches))) := by
  have hchars : ∀ d ∈ guardText (fun _ => 1) (s :: stretches),
      d.isUpper = true ∨ d.isDigit = true ∨ d = '_' := by
    intro d hd
    obtain ⟨t, -, hd⟩ := List.mem_flatMap.mp hd
    rcases List.mem_append.mp hd with hd | hd
    · obtain ⟨e, he, rfl⟩ := List.mem_map.mp hd
      exact (isUpper_or_isDigit_toUpper (t.run_isAlphanum e he)).imp_right .inl
    · exact .inr (.inr (List.eq_of_mem_replicate hd))
  obtain ⟨c, run, hrun⟩ := List.exists_cons_of_ne_nil s.run_ne_nil
  have hcons : guardText (fun _ => 1) (s :: stretches) = c.toUpper :: (run.map Char.toUpper ++
      '_' :: guardText (fun _ => 1) stretches) := by
    simp [guardText, hrun]
  have hpair := hasUnderscorePair_guardText_one (s :: stretches)
  rw [hcons] at hchars hpair ⊢
  exact isMacroName_of_chars
    (isUpper_or_isDigit_toUpper (s.run_isAlphanum c (by simp [hrun]))) hchars hpair

/-- A guard is found after finitely many passes of the loop. It is made of the runs of letters and
digits in its source, in upper case, with one underscore behind each and a word in front if the
first run starts with a digit. So it is always a legal name for a macro. -/
theorem includeGuard_legal (o : Options) :
    (∃ passes, o.includeGuard = String.ofList (leadByLetter (mergePairs^[passes] o.guardStart)) ∧
      hasUnderscorePair (mergePairs^[passes] o.guardStart) = false ∧
      ∀ j < passes, hasUnderscorePair (mergePairs^[j] o.guardStart) = true) ∧
    (∃ first rest, alnumRuns o.guardSource = first :: rest ∧
      o.includeGuard = (if first.head?.any Char.isDigit then "CONFIG_" else "") ++
        (Text.joinWith "_" ((first :: rest).map upperRun) ++ "_")) ∧
    IsMacroName o.includeGuard.toList := by
  obtain ⟨s, stretches, hruns, hstart⟩ := o.exists_guardStart
  obtain ⟨passes, hpasses, hnone, hpairs⟩ := squeezeUnderscores_eq_iterate o.guardStart
  have hsqueezed : squeezeUnderscores o.guardStart = guardText (fun _ => 1) (s :: stretches) := by
    rw [hstart]
    exact squeezeUnderscores_guardText fun s => List.length_pos_iff.mpr s.gap_ne_nil
  have hchars : o.includeGuard.toList =
      leadByLetter (guardText (fun _ => 1) (s :: stretches)) := by
    rw [o.includeGuard_eq, hsqueezed, String.toList_ofList]
  refine ⟨⟨passes, ?_, ?_, hpairs⟩, ⟨s.run, stretches.map Stretch.run, hruns, ?_⟩, ?_⟩
  · rw [o.includeGuard_eq, hpasses]
  · rw [← hpasses, hnone]
  · apply String.toList_inj.mp
    rw [hchars, leadByLetter_guardText, String.toList_append, ← List.map_cons,
      toList_joinWith_runs]
    split <;> rfl
  · rw [hchars]
    exact isMacroName_guardText s stretches

end ConfigForge
