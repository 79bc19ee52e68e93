import WitnessReplay.Proofs.TokenSequence

/-!
# Files with a script line

A Kotlin file may start with a script line. The rule for it means to end with the line, but
blanks are skipped between its characters as between the parts of any other header, line ends
among them. So nothing is left of such a file, and it is read as if the line had not been there
only if there is nothing to read behind it.
-/

namespace WitnessReplay.Source

open Text

def movedSpan (k : Nat) (span : Span) : Span :=
  ⟨span.start + k, span.stop + k⟩

/-- What an outline is when one line of `k` bytes is put in front of the file. -/
def Outline.belowLine (k : Nat) (o : Outline) : Outline where
  package := o.package
  imports := o.imports.map fun i => { i with line := i.line + 1 }
  calls := o.calls.map fun c => { c with line := c.line + 1, span := movedSpan k c.span }
  functions := o.functions.map fun f =>
    { f with
      line := f.line + 1
      nameSpan := movedSpan k f.nameSpan
      paramsSpan := movedSpan k f.paramsSpan
      firstReturnLine := f.firstReturnLine.map (· + 1) }

theorem Outline.belowLine_eq_empty_iff {k : Nat} {o : Outline} : o.belowLine k = {} ↔ o = {} := by
  obtain ⟨package, imports, calls, functions⟩ := o
  simp [belowLine]

theorem Scan.bind_all {α β : Type} {x : Scanner α} {f : α → Scanner β} {p : Place} {s : List Char}
    {a : α} (h : x p s = some (a, s.length)) :
    (x >>= f) p s = (f a (p.after s) []).map fun (b, m) => (b, s.length + m) := by
  rw [bind_of_some h, List.take_length, List.drop_length]

namespace Kotlin

theorem isBlank_of_blanks_eq_zero {c : Char} {r : List Char}
    (h : Lexicon.kotlin.blanks (c :: r) = 0) :
    isBlank c = false := by
  by_contra hblank
  have hskips : Lexicon.kotlin.Skips [c] r := .blank (Bool.not_eq_false _ ▸ hblank) .nil
  have hpos := Lexicon.blanks_append_of_skips hskips
  rw [List.singleton_append, h, List.length_singleton] at hpos
  omega

/-- Line ends are blanks, so behind skipped blanks no line end is seen, and the next character
is taken. -/
theorem scriptChar_of_blanks_eq_zero {c : Char} {r : List Char}
    (h : Lexicon.kotlin.blanks (c :: r) = 0) (p : Place) :
    scriptChar p (c :: r) = some (c, 1) := by
  have hblank := isBlank_of_blanks_eq_zero h
  have hend : isLineEnd c = false := by
    simp only [isBlank, Bool.or_eq_false_iff] at hblank
    simp [isLineEnd, hblank]
  have hahead : noLineEnd p (c :: r) = some ((), 0) := by simp [noLineEnd, hend]
  have hskip : Header.blanks .kotlin p (c :: r) = some ((), 0) := by rw [Header.blanks, h]
  unfold scriptChar
  rw [Scan.bind_of_zero hahead, Scan.bind_of_zero hskip]
  rfl

theorem scriptChar_nil (p : Place) : scriptChar p [] = none := by
  have hahead : noLineEnd p [] = some ((), 0) := rfl
  have hskip : Header.blanks .kotlin p [] = some ((), 0) := by rw [Header.blanks, Lexicon.blanks]
  unfold scriptChar
  rw [Scan.bind_of_zero hahead, Scan.bind_of_zero hskip]
  rfl

theorem laterScriptChar_of_blanks {gap : List Char} (h : Lexicon.kotlin.blanks gap = gap.length)
    (p : Place) :
    laterScriptChar p gap = none := by
  have hskip : Header.blanks .kotlin p gap = some ((), gap.length) := by rw [Header.blanks, h]
  unfold laterScriptChar
  rw [Scan.bind_all hskip, scriptChar_nil]
  rfl

theorem laterScriptChar_of_append {gap r : List Char} {c : Char}
    (hgap : Lexicon.kotlin.blanks (gap ++ c :: r) = gap.length)
    (h : Lexicon.kotlin.blanks (c :: r) = 0) (p : Place) :
    laterScriptChar p (gap ++ c :: r) = some (c, gap.length + 1) := by
  have hskip : Header.blanks .kotlin p (gap ++ c :: r) = some ((), gap.length) := by
    rw [Header.blanks, hgap]
  unfold laterScriptChar
  rw [bind_append hskip, scriptChar_of_blanks_eq_zero h]
  rfl

/-- Behind characters taken one after another, with the blanks in front of each, only blanks
are left. -/
theorem blanks_behind_many (p : Place) (s : List Char) :
    ∃ taken left, s = taken ++ left ∧ (Scanner.many.go laterScriptChar p s).2 = taken.length ∧
      Lexicon.kotlin.blanks left = left.length := by
  induction hn : s.length using Nat.strong_induction_on generalizing p s with
  | _ n ih =>
    obtain ⟨gap, rest, rfl, hgap, -, hrest⟩ := Lexicon.lawful_kotlin.exists_gap s
    cases rest with
    | nil =>
      rw [List.append_nil] at hgap ⊢
      refine ⟨[], gap, rfl, ?_, hgap⟩
      rw [Scan.many_go_of_none (laterScriptChar_of_blanks hgap p)]
      rfl
    | cons c r =>
      have hnext := laterScriptChar_of_append hgap hrest p
      have htext : gap ++ c :: r = (gap ++ [c]) ++ r := List.append_cons gap c r
      have hlength : gap.length + 1 = (gap ++ [c]).length := by
        rw [List.length_append, List.length_singleton]
      have hshorter : r.length < n := by
        rw [List.length_append, List.length_cons] at hn
        omega
      obtain ⟨taken, left, rfl, hmany, hleft⟩ := ih r.length hshorter (p.after (gap ++ [c])) r rfl
      refine ⟨gap ++ [c] ++ taken, left, ?_, ?_, hleft⟩
      · exact htext.trans (List.append_assoc _ _ _).symm
      · rw [Scan.many_go_of_some hnext (Nat.succ_ne_zero _) (by simp), htext, hlength,
          List.take_left, List.drop_left, hmany, ← List.length_append]

theorem blanks_behind_scriptChars {s : List Char} (h : Lexicon.kotlin.blanks s = 0) (p : Place) :
    ∃ taken left characters, s = taken ++ left ∧ scriptChars p s = some (characters, taken.length) ∧
      Lexicon.kotlin.blanks left = left.length := by
  cases s with
  | nil =>
    refine ⟨[], [], none, rfl, ?_, h⟩
    exact Scan.option_of_none (Scan.bind_of_none (scriptChar_nil p))
  | cons c r =>
    obtain ⟨taken, left, rfl, hmany, hleft⟩ := blanks_behind_many (p.after [c]) r
    refine ⟨c :: taken, left,
      some (c :: (Scanner.many.go laterScriptChar (p.after [c]) (taken ++ left)).1), rfl, ?_, hleft⟩
    have hfirst : scriptChar p ([c] ++ (taken ++ left)) = some (c, [c].length) :=
      scriptChar_of_blanks_eq_zero h p
    have hothers : Scanner.many laterScriptChar (p.after [c]) (taken ++ left) =
        some ((Scanner.many.go laterScriptChar (p.after [c]) (taken ++ left)).1, taken.length) := by
      rw [← hmany]
      rfl
    refine Scan.option_of_some ?_
    refine (bind_append hfirst).trans ?_
    rw [Scan.bind_of_some hothers]
    simp [pure, Nat.add_comm]

/-- Behind the sign of a script line and its characters only blanks are left. -/
theorem scriptLine_of_sign (p : Place) (rest : List Char) :
    ∃ taken left, '#' :: '!' :: rest = taken ++ left ∧
      scriptLine p ('#' :: '!' :: rest) = some ((), taken.length) ∧
        Lexicon.kotlin.blanks left = left.length := by
  obtain ⟨gap, r, rfl, hgap, -, hr⟩ := Lexicon.lawful_kotlin.exists_gap rest
  obtain ⟨taken, left, characters, rfl, htaken, hleft⟩ :=
    blanks_behind_scriptChars hr ((p.after ['#', '!']).after gap)
  have hsign : Scanner.text "#!" p (['#', '!'] ++ (gap ++ (taken ++ left))) =
      some ((), ['#', '!'].length) :=
    text_eq_some_iff.2 ⟨rfl, _, rfl⟩
  have hskip : Header.blanks .kotlin (p.after ['#', '!']) (gap ++ (taken ++ left)) =
      some ((), gap.length) := by
    rw [Header.blanks, hgap]
  refine ⟨'#' :: '!' :: (gap ++ taken), left, by simp, ?_, hleft⟩
  refine (bind_append hsign).trans ?_
  rw [bind_append hskip, bind_append htaken]
  simp [pure]
  omega

theorem header_of_sign (p : Place) (rest : List Char) :
    header p ('#' :: '!' :: rest) = some ((none, []), ('#' :: '!' :: rest).length) := by
  have hblanks : Header.blanks .kotlin p ('#' :: '!' :: rest) = some ((), 0) := by
    rw [Header.blanks, Lexicon.kotlin.blanks_of_startsLeaf ⟨by decide, by decide, by decide⟩]
  obtain ⟨taken, left, htext, hscript, hleft⟩ := scriptLine_of_sign p rest
  have hskip : Header.blanks .kotlin (p.after taken) left = some ((), left.length) := by
    rw [Header.blanks, hleft]
  have hnothing : NoHeader (lexicon .kotlin) [] := noHeader_nil
  have hnone : Lexicon.kotlin.blanks ([] ++ []) = 0 := hnothing.blanks
  have hend : header ((p.after taken).after left) ([] ++ []) = some ((none, []), 0) :=
    header_of_noHeader hnone hnothing _
  -- behind the blanks the other parts meet the end of the text, as in a file with nothing in it
  unfold header at hend ⊢
  rw [List.append_nil, Scan.bind_of_zero (NoHeader.skip (L := .kotlin) hnothing _),
    Scan.bind_of_zero (Scan.option_of_none (scriptLine_eq_none rfl _)),
    Scan.bind_of_zero (NoHeader.skip (L := .kotlin) hnothing _)] at hend
  rw [Scan.bind_of_zero hblanks]
  rw [htext] at hscript ⊢
  rw [bind_append (Scan.option_of_some hscript), Scan.bind_all hskip, hend]
  simp

end Kotlin

theorem parse_of_sign (rest : List Char) (file : String) :
    parse .kotlin (String.ofList ('#' :: '!' :: rest)) file = .ok {} := by
  refine parse_eq_ok_iff.2 ⟨('#' :: '!' :: rest).length, [], ?_, ?_, ?_, ?_⟩
  · rw [String.toList_ofList]
    exact Kotlin.header_of_sign _ rest
  · rw [String.toList_ofList, List.drop_length]
    exact body?_eq_some_iff.2 .nil
  all_goals simp [findings, Kotlin.findings, Kotlin.declarations, Kotlin.nested]

/-- **A script line swallows the file.** Whatever the line is and whatever follows it, the file
is read, to an outline with nothing in it. So the line is passed over, with everything behind
it one line further down, exactly if the rest by itself is read to an outline with nothing in
it. -/
theorem parse_scriptLine (line rest : List Char) (file : String) :
    parse .kotlin (String.ofList ('#' :: '!' :: line ++ '\n' :: rest)) file = .ok {} ∧
      (parse .kotlin (String.ofList ('#' :: '!' :: line ++ '\n' :: rest)) file =
          (parse .kotlin (String.ofList rest) file).map
          (Outline.belowLine (byteLength ('#' :: '!' :: line ++ ['\n']))) ↔
        parse .kotlin (String.ofList rest) file = .ok {}) := by
  have hempty : parse .kotlin (String.ofList ('#' :: '!' :: line ++ '\n' :: rest)) file = .ok {} :=
    parse_of_sign (line ++ '\n' :: rest) file
  refine ⟨hempty, ?_⟩
  rw [hempty]
  cases hrest : parse .kotlin (String.ofList rest) file with
  | error e => simp [Except.map]
  | ok outline => simp [Except.map, eq_comm (a := ({} : Outline)), Outline.belowLine_eq_empty_iff]

theorem parse_callSource : parse .kotlin "f()" "Main.kt" = .ok
    { calls := [⟨"f", none, 1, ⟨0, 1⟩⟩] } := by
  refine parse_eq_ok_iff.2 ⟨0, [.word "f" ⟨0, 1⟩ 1, .group .paren [] ⟨1, 3⟩ 1], ?_, ?_, ?_, ?_⟩
  · with_unfolding_all rfl
  · with_unfolding_all rfl
  all_goals
    simp [findings, Kotlin.findings, Kotlin.declarations, Kotlin.nested, Kotlin.callAt?,
      Kotlin.keywords, Token.word?, Token.isGroup, Token.children?, Token.isWord, Token.line,
      Token.span, qualifierBefore, qualifierText]

/-- A call behind a script line is not found. -/
theorem not_parse_belowLine :
    ¬ ∀ line rest : List Char, (∀ c ∈ line, isLineEnd c = false) → (∀ r, rest ≠ '#' :: '!' :: r) →
      parse .kotlin (String.ofList ('#' :: '!' :: line ++ '\n' :: rest)) "Main.kt" =
        (parse .kotlin (String.ofList rest) "Main.kt").map
          (Outline.belowLine (byteLength ('#' :: '!' :: line ++ ['\n']))) := by
  intro h
  have hline : ∀ c ∈ ['x'], isLineEnd c = false := List.forall_mem_singleton.2 (by decide)
  have hrest : ∀ r, ['f', '(', ')'] ≠ '#' :: '!' :: r := fun r heq => by cases heq
  have hcall := h _ _ hline hrest
  have hsource : String.ofList ['f', '(', ')'] = "f()" := by decide
  rw [List.cons_append, List.cons_append, parse_of_sign, hsource, parse_callSource] at hcall
  cases hcall

end WitnessReplay.Source
