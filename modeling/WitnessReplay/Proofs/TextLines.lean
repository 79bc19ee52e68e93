import WitnessReplay.Text.Blank
import WitnessReplay.Text.Lines

/-!
# A text line by line

A text is a line without a line feed, or such a line, a line feed and another text. What is
done to a text line by line is followed along this description.
-/

namespace WitnessReplay.Text

open List

variable {line cs rest : List Char}

/-- What holds of a text without line feeds, and of a line followed by a text of which it
holds, holds of every text. -/
theorem induction_on_lines {motive : List Char → Prop} (last : ∀ line, '\n' ∉ line → motive line)
    (next : ∀ line rest, '\n' ∉ line → motive rest → motive (line ++ '\n' :: rest))
    (cs : List Char) : motive cs := by
  by_cases hmem : '\n' ∈ cs
  · obtain ⟨line, rest, hcs, hline⟩ := eq_append_cons_of_mem hmem
    have hshorter : rest.length < cs.length := by
      rw [hcs, length_append, length_cons]
      omega
    rw [hcs]
    exact next line rest hline (induction_on_lines last next rest)
  · exact last cs hmem
termination_by cs.length

theorem lines_append_cons (hline : '\n' ∉ line) (rest : List Char) :
    lines (line ++ '\n' :: rest) = (line ++ ['\n']) :: lines rest := by
  induction line with
  | nil => simp [lines]
  | cons c line ih =>
    obtain ⟨hc, hline⟩ := not_or.1 (mt mem_cons.2 hline)
    rw [cons_append, lines, if_neg (Ne.symm hc), ih hline]
    rfl

theorem lines_of_notMem (hline : '\n' ∉ line) (hne : line ≠ []) : lines line = [line] := by
  induction line with
  | nil => exact absurd rfl hne
  | cons c line ih =>
    obtain ⟨hc, hline⟩ := not_or.1 (mt mem_cons.2 hline)
    rw [lines, if_neg (Ne.symm hc)]
    cases line with
    | nil => rfl
    | cons d line => rw [ih hline (cons_ne_nil d line)]

theorem notMem_dropLast_of_mem_lines (h : line ∈ lines cs) : '\n' ∉ line.dropLast := by
  induction cs generalizing line with
  | nil => cases h
  | cons c cs ih =>
    unfold lines at h
    split at h
    · rcases mem_cons.1 h with rfl | h
      · simp
      · exact ih h
    · rename_i hc
      split at h
      · cases mem_singleton.1 h
        simp
      · rename_i first others hlines
        rcases mem_cons.1 h with rfl | h
        · have hfirst := ih (hlines ▸ mem_cons_self)
          cases first with
          | nil => simp
          | cons d first => simpa [Ne.symm hc] using hfirst
        · exact ih (hlines ▸ mem_cons_of_mem first h)

/-! ### The place of a line -/

/-- A line of a text between what stands in front of it and what stands behind it. It starts
where the text starts or behind a line feed, it has no line feed except at its end, and only
the last line of a text may lack one. -/
structure LineAt (text before line after : List Char) : Prop where
  eq : text = before ++ line ++ after
  start : before = [] ∨ before.getLast? = some '\n'
  nonempty : line ≠ []
  inside : '\n' ∉ line.dropLast
  stop : line.getLast? = some '\n' ∨ after = []

/-- Behind a line feed, or at the start, a text is cut into lines as if nothing stood in front. -/
theorem lines_append (hstart : cs = [] ∨ cs.getLast? = some '\n') (rest : List Char) :
    lines (cs ++ rest) = lines cs ++ lines rest := by
  induction cs using induction_on_lines with
  | last line hline =>
    rcases hstart with rfl | hlast
    · rfl
    · exact absurd (mem_of_getLast? hlast) hline
  | next line more hline ih =>
    have hmore : more = [] ∨ more.getLast? = some '\n' := by
      rcases hstart with hnil | hlast
      · simp at hnil
      · cases more with
        | nil => exact .inl rfl
        | cons c more =>
          rw [getLast?_append, getLast?_cons_cons, Option.or_of_isSome (by simp)] at hlast
          exact .inr hlast
    rw [append_assoc, cons_append, lines_append_cons hline, lines_append_cons hline,
      ih hmore, cons_append]

theorem LineAt.lines_eq {text before after : List Char} (h : LineAt text before line after) :
    lines text = lines before ++ line :: lines after := by
  have hline : lines (line ++ after) = line :: lines after := by
    obtain ⟨front, c, hconcat⟩ := eq_nil_or_concat line |>.resolve_left h.nonempty
    rw [concat_eq_append] at hconcat
    have hfront : '\n' ∉ front := by
      have hinside := h.inside
      rwa [hconcat, dropLast_concat] at hinside
    by_cases hc : c = '\n'
    · rw [hconcat, hc, append_assoc]
      exact lines_append_cons hfront after
    · have hafter : after = [] := by
        refine h.stop.resolve_left fun hlast => hc ?_
        rw [hconcat, getLast?_concat] at hlast
        exact Option.some.inj hlast
      have hmem : '\n' ∉ line := by
        rw [hconcat, mem_append, mem_singleton]
        exact not_or.2 ⟨hfront, Ne.symm hc⟩
      rw [hafter, append_nil]
      exact lines_of_notMem hmem h.nonempty
  rw [h.eq, append_assoc, lines_append h.start, hline]

theorem lineAt_of_lines {before after : List (List Char)} (h : lines cs = before ++ line :: after) :
    LineAt cs before.flatten line after.flatten := by
  induction cs using induction_on_lines generalizing before with
  | last cs hcs =>
    by_cases hne : cs = []
    · rw [hne] at h
      simp [lines] at h
    · rw [lines_of_notMem hcs hne] at h
      obtain ⟨rfl, rfl, rfl⟩ : before = [] ∧ line = cs ∧ after = [] := by
        cases before with
        | nil =>
          rw [nil_append, List.cons.injEq] at h
          exact ⟨rfl, h.1.symm, h.2.symm⟩
        | cons first before => simp at h
      exact ⟨by simp, .inl rfl, hne, fun hmem => hcs (dropLast_subset _ hmem), .inr rfl⟩
  | next first rest hfirst ih =>
    rw [lines_append_cons hfirst] at h
    cases before with
    | nil =>
      rw [nil_append, List.cons.injEq] at h
      obtain ⟨rfl, rfl⟩ := h
      refine ⟨?_, .inl rfl, by simp, by rwa [dropLast_concat], .inl (getLast?_concat)⟩
      rw [flatten_lines, flatten_nil, nil_append, append_assoc]
      rfl
    | cons second before =>
      rw [cons_append, List.cons.injEq] at h
      obtain ⟨rfl, h⟩ := h
      have hrest := ih h
      refine ⟨?_, .inr ?_, hrest.nonempty, hrest.inside, hrest.stop⟩
      · rw [hrest.eq]
        simp
      · rcases hrest.start with hnil | hlast
        · rw [flatten_cons, hnil, append_nil, getLast?_concat]
        · rw [flatten_cons, getLast?_append, hlast]
          rfl

/-! ### What stands at the end -/

theorem not_of_getLast?_dropEndWhile {p : Char → Bool} {c : Char}
    (h : (dropEndWhile p cs).getLast? = some c) : p c = false := by
  rw [dropEndWhile, getLast?_reverse] at h
  have hnot := head?_dropWhile_not p cs.reverse
  rw [h] at hnot
  exact hnot

/-- What is dropped at the end satisfies the condition, and what is kept does not end with such
a character. -/
theorem dropEndWhile_eq_iff {p : Char → Bool} {kept : List Char} :
    dropEndWhile p cs = kept ↔
      ∃ dropped, cs = kept ++ dropped ∧ (∀ c ∈ dropped, p c = true) ∧
      ∀ c ∈ kept.getLast?, p c = false := by
  constructor
  · rintro rfl
    refine ⟨(cs.reverse.takeWhile p).reverse, ?_, ?_, fun c => not_of_getLast?_dropEndWhile⟩
    · rw [dropEndWhile, ← reverse_append, takeWhile_append_dropWhile, reverse_reverse]
    · intro c hc
      exact all_eq_true.1 all_takeWhile c (mem_reverse.1 hc)
  · rintro ⟨dropped, rfl, hdropped, hkept⟩
    have hstop : kept.reverse.dropWhile p = kept.reverse := by
      rw [← head?_reverse] at hkept
      cases hreverse : kept.reverse with
      | nil => rfl
      | cons c rest =>
        rw [hreverse] at hkept
        exact dropWhile_cons_of_neg (by simp [hkept c rfl])
    rw [dropEndWhile, reverse_append, dropWhile_append_of_pos (by simpa using hdropped),
      hstop, reverse_reverse]

end WitnessReplay.Text
