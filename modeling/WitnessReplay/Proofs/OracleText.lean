import WitnessReplay.Harness.Synthesis
import WitnessReplay.Proofs.FileLookup

/-!
# The oracle that is written

When a harness has been written, its oracle file holds the template of the oracle with one line
replaced.
-/

namespace WitnessReplay.Harness

open Files

variable {body replacement : List Char}

/-- A text is the template with the first line of the given body replaced. The ending of that
line and all other lines are kept. -/
def ReplacesLine (body replacement template result : List Char) : Prop :=
  ∃ before ending after, Text.lines template = before ++ (body ++ ending) :: after ∧
    lineBody (body ++ ending) = body ∧
    (∀ line ∈ before, lineBody line ≠ body) ∧
    result = before.flatten ++ (replacement ++ ending) ++ after.flatten

theorem dropEndWhile_prefix_self (p : Char → Bool) (cs : List Char) :
    Text.dropEndWhile p cs <+: cs := by
  rw [Text.dropEndWhile, ← List.reverse_suffix, List.reverse_reverse]
  exact List.dropWhile_suffix p

theorem lineBody_prefix_self (line : List Char) : lineBody line <+: line :=
  (dropEndWhile_prefix_self _ _).trans (dropEndWhile_prefix_self _ _)

/-- A line with the given body, and no such line in front of it. -/
structure FirstLine (body : List Char) (ls before : List (List Char)) (ending : List Char)
    (after : List (List Char)) :
    Prop where
  split : ls = before ++ (body ++ ending) :: after
  line : lineBody (body ++ ending) = body
  first : ∀ line ∈ before, lineBody line ≠ body

theorem exists_firstLine (body : List Char) (ls : List (List Char)) :
    (∃ before ending after, FirstLine body ls before ending after) ∨
    ∀ line ∈ ls, lineBody line ≠ body := by
  induction ls with
  | nil => exact .inr fun line h => absurd h List.not_mem_nil
  | cons line rest ih =>
    by_cases hbody : lineBody line = body
    · obtain ⟨ending, rfl⟩ : ∃ ending, body ++ ending = line := hbody ▸ lineBody_prefix_self line
      exact .inl ⟨[], ending, rest, rfl, hbody, fun line h => absurd h List.not_mem_nil⟩
    · rcases ih with ⟨before, ending, after, rfl, hline, hfirst⟩ | hnone
      · exact .inl ⟨line :: before, ending, after, rfl, hline,
          List.forall_mem_cons.2 ⟨hbody, hfirst⟩⟩
      · exact .inr (List.forall_mem_cons.2 ⟨hbody, hnone⟩)

theorem foldl_substituteLine_of_copied {found : Bool} {ls : List (List Char)}
    (h : found = true ∨ ∀ line ∈ ls, lineBody line ≠ body) (text : List Char) :
    ls.foldl (substituteLine body replacement) (found, text) = (found, text ++ ls.flatten) := by
  induction ls generalizing text with
  | nil => simp
  | cons line rest ih =>
    have hline : substituteLine body replacement (found, text) line = (found, text ++ line) := by
      unfold substituteLine
      rw [if_neg]
      rcases h with rfl | hnone
      · simp
      · simp [hnone line List.mem_cons_self]
    have hrest : found = true ∨ ∀ line ∈ rest, lineBody line ≠ body :=
      h.imp_right fun hnone line' hline' => hnone line' (List.mem_cons_of_mem line hline')
    rw [List.foldl_cons, hline, ih hrest, List.flatten_cons, List.append_assoc]

theorem foldl_substituteLine_of_first {ls before after : List (List Char)} {ending : List Char}
    (h : FirstLine body ls before ending after) :
    ls.foldl (substituteLine body replacement) (false, []) =
      (true, before.flatten ++ (replacement ++ ending) ++ after.flatten) := by
  have hline (text : List Char) :
      substituteLine body replacement (false, text) (body ++ ending) =
        (true, text ++ replacement ++ ending) := by
    unfold substituteLine
    rw [if_pos (by simp [h.line]), List.drop_left]
  rw [h.split, List.foldl_append, foldl_substituteLine_of_copied (.inr h.first), List.foldl_cons,
    hline,
    foldl_substituteLine_of_copied (.inl rfl), List.nil_append, List.append_assoc before.flatten]

section Substitute

variable {name template placeholder replacement : String} {before after : List (List Char)}
    {ending : List Char}

theorem substitute_of_firstLine
    (h : FirstLine placeholder.toList (Text.lines template.toList) before ending after) :
    substitute name template placeholder replacement =
      .ok (.ofList (before.flatten ++ (replacement.toList ++ ending) ++ after.flatten)) := by
  unfold substitute
  rw [foldl_substituteLine_of_first h]
  rfl

theorem substitute_of_no_line
    (h : ∀ line ∈ Text.lines template.toList, lineBody line ≠ placeholder.toList) :
    substitute name template placeholder replacement =
      .error (.missingPlaceholder name placeholder) := by
  unfold substitute
  rw [foldl_substituteLine_of_copied (.inr h)]
  rfl

theorem replacesLine_of_substitute {result : String}
    (h : substitute name template placeholder replacement = .ok result) :
    ReplacesLine placeholder.toList replacement.toList template.toList result.toList := by
  rcases exists_firstLine placeholder.toList (Text.lines template.toList) with ⟨before, ending,
    after, hfirst⟩ | hnone
  · rw [substitute_of_firstLine hfirst] at h
    cases h
    exact ⟨before, ending, after, hfirst.split, hfirst.line, hfirst.first, String.toList_ofList⟩
  · rw [substitute_of_no_line hnone] at h
    cases h

end Substitute

theorem lookup_of_writeText {path : Path} {text : String} {fs fs' : FileSystem}
    (h : writeText path text fs = (.ok (), fs')) :
    fs'.lookup path = .ok (.file text.toUTF8) := by
  have h' := exceptT_adapt_eq_ok h
  obtain ⟨-, fs₁, -, hwrite⟩ := exceptT_bind_eq_ok_iff.1 h'
  have hok : fs₁.write path text.toUTF8 = .ok fs' := by
    unfold Edit.change at hwrite
    split at hwrite
    · rename_i hfs
      cases hwrite
      exact hfs
    · cases hwrite
  exact FileSystem.lookup_write hok

/-- **What is in the oracle file.** When the harness for some values has been written, the
oracle file holds the template with its placeholder line replaced by the line for the values.
-/
theorem oracle_of_synthesize {directory : Option Path} {language : Language} {workdir : Path}
    {values : List (Option String)} {fs fs' : FileSystem} {paths : HarnessPaths}
    (h : synthesize directory language workdir values fs = (.ok paths, fs')) :
    ∃ original, ∃ oracle : String, template fs directory (oracleFile language) = .ok original ∧
      ReplacesLine (placeholder language).toList (listLine language values).toList original.toList
      oracle.toList ∧
      paths.oracle = workdir.join ⟨(oracleFile language).path⟩ ∧
      fs'.lookup paths.oracle = .ok (.file oracle.toUTF8) := by
  unfold synthesize at h
  obtain ⟨texts, fs₁, htexts, h⟩ := exceptT_bind_eq_ok_iff.1 h
  obtain ⟨-, fs₂, hdriver, h⟩ := exceptT_bind_eq_ok_iff.1 h
  obtain ⟨⟨⟩, fs₃, horacle, h⟩ := exceptT_bind_eq_ok_iff.1 h
  cases h
  obtain ⟨htexts, -⟩ := Prod.mk.inj htexts
  obtain ⟨driver, -, htexts⟩ := bind_eq_ok_iff.1 htexts
  obtain ⟨original, horiginal, htexts⟩ := bind_eq_ok_iff.1 htexts
  obtain ⟨oracle, hsubstitute, htexts⟩ := bind_eq_ok_iff.1 htexts
  cases htexts
  exact ⟨original, oracle, horiginal, replacesLine_of_substitute hsubstitute, rfl,
    lookup_of_writeText horacle⟩

end WitnessReplay.Harness
