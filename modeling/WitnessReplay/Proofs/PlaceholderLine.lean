import WitnessReplay.Proofs.OracleText
import WitnessReplay.Proofs.TextLines

/-!
# The line of a template that is replaced

A template is searched for a line whose body is the placeholder. The body of a line is what is
left without the line feed at its end and the carriage returns in front of that. The first such
line gets another body, and nothing else changes; without such a line there is an error.
-/

namespace WitnessReplay.Harness

open Text List

variable {text body replacement before line ending after : List Char}

/-- What ends the body of a line: carriage returns, and then a line feed unless the text ends
there. -/
def IsLineEnding (ending : List Char) : Prop :=
  ∃ n, ending = List.replicate n '\r' ∨ ending = List.replicate n '\r' ++ ['\n']

/-- A line with the given body and ending, between what stands in front of it and what stands
behind it. -/
structure BodyAt (text body before ending after : List Char) : Prop where
  line : LineAt text before (body ++ ending) after
  ending : IsLineEnding ending
  lineFeed : body.getLast? ≠ some '\n'
  carriageReturn : body.getLast? ≠ some '\r'

/-- The first line with the given body. -/
structure FirstBodyAt (text body before ending after : List Char) :
    Prop extends BodyAt text body before ending after where
  first : ∀ before' ending' after', BodyAt text body before' ending' after' →
    before.length ≤ before'.length

/-! ### The body of a line -/

theorem eq_nil_of_inside {front : List Char}
    (hinside : '\n' ∉ (front ++ '\n' :: after).dropLast) : after = [] := by
  cases after with
  | nil => rfl
  | cons c after =>
    rw [dropLast_append_of_ne_nil (cons_ne_nil _ _), dropLast_cons_cons] at hinside
    exact absurd (mem_append_right _ mem_cons_self) hinside

/-- The body is what stands in front of a line ending and does not end with one itself. -/
theorem lineBody_eq_iff (hinside : '\n' ∉ line.dropLast) :
    lineBody line = body ↔
      ∃ ending, line = body ++ ending ∧ IsLineEnding ending ∧ body.getLast? ≠ some '\n' ∧
        body.getLast? ≠ some '\r' := by
  rw [lineBody, dropEndWhile_eq_iff]
  constructor
  · rintro ⟨returns, hline, hreturns, hbody⟩
    obtain ⟨feeds, rfl, hfeeds, hlast⟩ := dropEndWhile_eq_iff.1 hline
    have hreturns : returns = List.replicate returns.length '\r' :=
      eq_replicate_iff.2 ⟨rfl, by simpa using hreturns⟩
    have hending : IsLineEnding (returns ++ feeds) := by
      refine ⟨returns.length, ?_⟩
      rw [← hreturns]
      cases feeds with
      | nil => exact .inl (append_nil returns)
      | cons c rest =>
        obtain rfl : c = '\n' := by simpa using hfeeds c mem_cons_self
        rw [eq_nil_of_inside hinside]
        exact .inr rfl
    refine ⟨returns ++ feeds, append_assoc .., hending, ?_, ?_⟩
    · intro hfeed
      obtain ⟨front, rfl⟩ := getLast?_eq_some_iff.1 hfeed
      rw [append_assoc, append_assoc] at hinside
      have hnone : returns ++ feeds = [] := eq_nil_of_inside hinside
      rw [(append_eq_nil_iff.1 hnone).1, append_nil] at hlast
      exact absurd (hlast '\n' hfeed) (by decide)
    · intro hreturn
      exact absurd (hbody '\r' hreturn) (by decide)
  · rintro ⟨ending, rfl, ⟨n, hending⟩, hfeed, hreturn⟩
    have hbody : ∀ c ∈ body.getLast?, (c == '\r') = false := by
      intro c hc
      exact beq_false_of_ne fun h => hreturn (h ▸ hc)
    have hlast : ∀ c ∈ (body ++ List.replicate n '\r').getLast?, (c == '\n') = false := by
      intro c hc
      refine beq_false_of_ne fun h => ?_
      cases n with
      | zero =>
        rw [replicate_zero, append_nil] at hc
        exact hfeed (h ▸ hc)
      | succ n =>
        rw [replicate_succ', ← append_assoc, getLast?_concat] at hc
        rw [h] at hc
        exact absurd (Option.some.inj hc) (by decide)
    refine ⟨List.replicate n '\r', ?_, by simp, hbody⟩
    rcases hending with rfl | rfl
    · exact dropEndWhile_eq_iff.2 ⟨[], by simp, by simp, hlast⟩
    · exact dropEndWhile_eq_iff.2 ⟨['\n'], by simp, by simp, hlast⟩

/-! ### The line that is found -/

theorem bodyAt_of_lines {before after : List (List Char)}
    (h : lines text = before ++ line :: after) (hline : lineBody line = body) :
    ∃ ending, line = body ++ ending ∧ BodyAt text body before.flatten ending after.flatten := by
  have hplace := lineAt_of_lines h
  obtain ⟨ending, rfl, hending, hfeed, hreturn⟩ := (lineBody_eq_iff hplace.inside).1 hline
  exact ⟨ending, rfl, hplace, hending, hfeed, hreturn⟩

theorem BodyAt.lineBody_eq (h : BodyAt text body before ending after) :
    lineBody (body ++ ending) = body :=
  (lineBody_eq_iff h.line.inside).2 ⟨ending, rfl, h.ending, h.lineFeed, h.carriageReturn⟩

theorem FirstBodyAt.lineBody_ne (h : FirstBodyAt text body before ending after) :
    ∀ line ∈ lines before, lineBody line ≠ body := by
  intro line hmem hline
  obtain ⟨front, back, hbefore⟩ := append_of_mem hmem
  have hlines : lines text = front ++ line :: (back ++ (body ++ ending) :: lines after) := by
    rw [h.line.lines_eq, hbefore, append_assoc, cons_append]
  obtain ⟨ending', -, hearlier⟩ := bodyAt_of_lines hlines hline
  have hle := h.first _ _ _ hearlier
  have hlength : before.length = front.flatten.length + line.length + back.flatten.length := by
    rw [← flatten_lines before, hbefore]
    simp [Nat.add_assoc]
  have hpos : 0 < line.length := length_pos_iff.2 (lineAt_of_lines hlines).nonempty
  omega

/-- A line with a body is the first one if no line in front of it has the body. -/
theorem firstBodyAt_of_lines {before after : List (List Char)}
    (h : lines text = before ++ (body ++ ending) :: after)
    (hline : lineBody (body ++ ending) = body) (hbefore : ∀ line ∈ before, lineBody line ≠ body) :
    FirstBodyAt text body before.flatten ending after.flatten := by
  obtain ⟨ending', heq, hbody⟩ := bodyAt_of_lines h hline
  obtain rfl := append_cancel_left heq
  refine ⟨hbody, fun before' ending' after' h' => ?_⟩
  rw [← flatten_lines before']
  rcases append_eq_append_iff.1 (h.symm.trans h'.line.lines_eq) with ⟨more, hmore,
    -⟩ | ⟨more, hmore, hrest⟩
  · rw [hmore, flatten_append, length_append]
    exact Nat.le_add_right _ _
  · cases more with
    | nil =>
      rw [append_nil] at hmore
      exact Nat.le_of_eq (congrArg (·.flatten.length) hmore)
    | cons line more =>
      -- The other line would be in front of this one, where no line has the body.
      have hother : body ++ ending' = line := (List.cons.inj hrest).1
      have hmem : line ∈ before := hmore ▸ mem_append_right _ mem_cons_self
      exact absurd (hother ▸ h'.lineBody_eq) (hbefore line hmem)

theorem BodyAt.exists_first (h : BodyAt text body before ending after) :
    ∃ before ending after, FirstBodyAt text body before ending after := by
  have hmem : body ++ ending ∈ lines text := by
    rw [h.line.lines_eq]
    exact mem_append_right _ mem_cons_self
  rcases exists_firstLine body (lines text) with ⟨before, ending, after, hfirst⟩ | hnone
  · exact ⟨_, ending, _, firstBodyAt_of_lines hfirst.split hfirst.line hfirst.first⟩
  · exact absurd h.lineBody_eq (hnone _ hmem)

/-! ### Replacing it -/

section Substitute

variable {name template placeholder replacement : String}

theorem substitute_eq_ok_iff {result : String} :
    substitute name template placeholder replacement = .ok result ↔
      ∃ before ending after, FirstBodyAt template.toList placeholder.toList before ending after ∧
        result.toList = before ++ replacement.toList ++ ending ++ after := by
  constructor
  · intro h
    obtain ⟨before, ending, after, hlines, hline, hbefore, hresult⟩ := replacesLine_of_substitute h
    refine ⟨before.flatten, ending, after.flatten, firstBodyAt_of_lines hlines hline hbefore, ?_⟩
    rw [hresult, ← append_assoc before.flatten]
  · rintro ⟨before, ending, after, hfirst, hresult⟩
    rw [substitute_of_firstLine ⟨hfirst.line.lines_eq, hfirst.lineBody_eq, hfirst.lineBody_ne⟩,
      flatten_lines, flatten_lines, ← append_assoc before, ← hresult, String.ofList_toList]

theorem exists_substitute_eq_ok
    (h : ∃ before ending after, BodyAt template.toList placeholder.toList before ending after) :
    ∃ result, substitute name template placeholder replacement = .ok result := by
  obtain ⟨_, _, _, hbody⟩ := h
  obtain ⟨before, ending, after, hfirst⟩ := hbody.exists_first
  exact ⟨.ofList (before ++ replacement.toList ++ ending ++ after),
    substitute_eq_ok_iff.2 ⟨before, ending, after, hfirst, String.toList_ofList⟩⟩

theorem substitute_eq_error
    (h : ¬ ∃ before ending after, BodyAt template.toList placeholder.toList before ending after) :
    substitute name template placeholder replacement =
      .error (.missingPlaceholder name placeholder) := by
  apply substitute_of_no_line
  intro line hmem hline
  obtain ⟨before, after, hlines⟩ := append_of_mem hmem
  obtain ⟨ending, -, hbody⟩ := bodyAt_of_lines hlines hline
  exact h ⟨_, ending, _, hbody⟩

end Substitute

/-- **The line of a template that is replaced.** Putting a text in place of the placeholder
succeeds exactly if some line of the template has the placeholder as its body. The result is
then the template with the body of the first such line replaced: the ending of that line and
everything else stay as they are. Otherwise the error names the template and the placeholder.
-/
theorem substitute_replaces_first_body (name template placeholder replacement : String) :
    ((∃ result, substitute name template placeholder replacement = .ok result) ↔
        ∃ before ending after, BodyAt template.toList placeholder.toList before ending after) ∧
      (∀ result, substitute name template placeholder replacement = .ok result ↔
        ∃ before ending after, FirstBodyAt template.toList placeholder.toList before ending after ∧
          result.toList = before ++ replacement.toList ++ ending ++ after) ∧
      (substitute name template placeholder replacement =
        .error (.missingPlaceholder name placeholder) ↔
        ¬ ∃ before ending after,
        BodyAt template.toList placeholder.toList before ending after) := by
  refine ⟨⟨?_, exists_substitute_eq_ok⟩, fun _ => substitute_eq_ok_iff, fun herror hbody =>
    ?_, substitute_eq_error⟩
  · rintro ⟨result, h⟩
    obtain ⟨before, ending, after, hfirst, -⟩ := substitute_eq_ok_iff.1 h
    exact ⟨before, ending, after, hfirst.toBodyAt⟩
  · obtain ⟨result, h⟩ : ∃ result, substitute name template placeholder replacement =
      .ok result := exists_substitute_eq_ok hbody
    rw [herror] at h
    cases h

end WitnessReplay.Harness
