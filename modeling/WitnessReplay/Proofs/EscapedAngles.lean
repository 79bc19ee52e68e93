import WitnessReplay.Proofs.OccurrencePlaces
import WitnessReplay.Proofs.PathParts
import WitnessReplay.Proofs.PatternReplacement
import WitnessReplay.Proofs.TextLines
import WitnessReplay.Witness.Sanitize

/-!
# The pair of angle brackets that is escaped

In each line at most one pair of angle brackets is escaped. It is described here in three ways,
which agree: by splitting the line at the first `("`, at the last `")` and at the brackets in
between; by the places of these texts in the whole line; and by the pattern `("…<…>…")`, whose
matches in the whole text are replaced. Undoing the escapes then gives the same text as undoing
them in the original.
-/

namespace WitnessReplay.Witness

open Text List

variable {line front rest x head inner tail back : List Char} {l g : Nat}

/-! ### The rule by places -/

/-- The places of the brackets to escape: the last closing bracket in front of the last `")`,
and the last opening bracket in front of that, if the latter is behind the first `("`. -/
def anglePair? (line : List Char) : Option (Nat × Nat) := do
  let s ← firstPlace? ['(', '"'] line
  let e ← lastPlace? ['"', ')'] line line.length
  let g ← lastPlace? ['>'] line e
  let l ← lastPlace? ['<'] line g
  if s + 2 ≤ l then some (l, g) else none

def escapeAt (l g : Nat) (line : List Char) : List Char :=
  line.take l ++ "&lt;".toList ++ (line.take g).drop (l + 1) ++ "&gt;".toList ++ line.drop (g + 1)

/-- The line with its pair of brackets escaped, if it has one. -/
def escapeLastPair (line : List Char) : List Char :=
  match anglePair? line with
  | some (l, g) => escapeAt l g line
  | none => line

theorem anglePair?_eq_some_iff :
    anglePair? line = some (l, g) ↔
      ∃ s e, firstPlace? ['(', '"'] line = some s ∧ lastPlace? ['"', ')'] line line.length =
        some e ∧
        lastPlace? ['>'] line e = some g ∧ lastPlace? ['<'] line g = some l ∧ s + 2 ≤ l := by
  constructor
  · intro h
    obtain ⟨s, hs, h⟩ := Option.bind_eq_some_iff.1 h
    obtain ⟨e, he, h⟩ := Option.bind_eq_some_iff.1 h
    obtain ⟨g', hg, h⟩ := Option.bind_eq_some_iff.1 h
    obtain ⟨l', hl, h⟩ := Option.bind_eq_some_iff.1 h
    obtain ⟨hle, h⟩ := Option.ite_none_right_eq_some.1 h
    cases h
    exact ⟨s, e, hs, he, hg, hl, hle⟩
  · rintro ⟨s, e, hs, he, hg, hl, hle⟩
    refine Option.bind_eq_some_iff.2 ⟨s, hs, Option.bind_eq_some_iff.2 ⟨e, he, ?_⟩⟩
    exact Option.bind_eq_some_iff.2 ⟨g, hg, Option.bind_eq_some_iff.2 ⟨l, hl, if_pos hle⟩⟩

theorem escapeAt_append (a b c : List Char) :
    escapeAt a.length (a ++ '<' :: b).length (a ++ '<' :: b ++ '>' :: c) =
      a ++ "&lt;".toList ++ b ++ "&gt;".toList ++ c := by
  have hfront : (a ++ '<' :: b ++ '>' :: c).take a.length = a := by
    rw [append_assoc, take_left]
  have hinner : (a ++ '<' :: b).drop (a.length + 1) = b := by
    rw [drop_length_add_append]
    rfl
  have hback : (a ++ '<' :: b ++ '>' :: c).drop ((a ++ '<' :: b).length + 1) = c := by
    rw [drop_length_add_append]
    rfl
  rw [escapeAt, hfront, take_left, hinner, hback]

/-! ### The rule by splitting -/

/-- How the text behind `("` is cut at the last `")`, at the last `>` in front of it, and at
the last `<` in front of that. -/
structure Cut (x head inner tail back : List Char) : Prop where
  quotes : splitAtLast? ['"', ')'] x = some (head ++ '<' :: inner ++ '>' :: tail, back)
  closing : splitAtLast? ['>'] (head ++ '<' :: inner ++ '>' :: tail) =
    some (head ++ '<' :: inner, tail)
  opening : splitAtLast? ['<'] (head ++ '<' :: inner) = some (head, inner)

theorem Cut.eq (h : Cut x head inner tail back) :
    x = head ++ '<' :: inner ++ '>' :: tail ++ '"' :: ')' :: back := by
  rw [eq_of_splitAtLast? h.quotes, append_assoc]
  rfl

theorem exists_cut {a b c d : List Char} (hx : x = a ++ '<' :: b ++ '>' :: c ++ '"' :: ')' :: d) :
    ∃ head inner tail back, Cut x head inner tail back := by
  have hquotes : x = (a ++ '<' :: b ++ '>' :: c) ++ ['"', ')'] ++ d := by
    rw [hx, append_assoc _ _ d]; rfl
  obtain ⟨c', back, hquotes⟩ := exists_splitAtLast? hquotes
  have hclosing : a ++ '<' :: b ++ '>' :: c ++ c' = (a ++ '<' :: b) ++ ['>'] ++ (c ++ c') := by simp
  obtain ⟨b', tail, hclosing⟩ := exists_splitAtLast? hclosing
  have hopening : a ++ '<' :: b ++ b' = a ++ ['<'] ++ (b ++ b') := by simp
  obtain ⟨a', inner, hopening⟩ := exists_splitAtLast? hopening
  -- Each split text is named by its parts, from the innermost one outwards.
  have hopened : a ++ '<' :: b ++ b' = a ++ a' ++ '<' :: inner := by
    rw [eq_of_splitAtLast? hopening, append_assoc _ _ inner]
    rfl
  have hcontent : a ++ '<' :: b ++ '>' :: c ++ c' = a ++ a' ++ '<' :: inner ++ '>' :: tail := by
    rw [eq_of_splitAtLast? hclosing, hopened, append_assoc _ _ tail]
    rfl
  rw [hcontent] at hquotes hclosing
  rw [hopened] at hclosing hopening
  exact ⟨a ++ a', inner, tail, back, hquotes, hclosing, hopening⟩

theorem escapeAngles?_eq_some_iff {y : List Char} :
    escapeAngles? line = some y ↔
      ∃ front rest head inner tail back, splitAtFirst? ['(', '"'] line = some (front, rest) ∧
        Cut rest head inner tail back ∧
          y = front ++ ['(', '"'] ++ head ++ "&lt;".toList ++ inner ++ "&gt;".toList ++ tail ++
          ['"', ')'] ++ back := by
  constructor
  · intro h
    obtain ⟨⟨front, rest⟩, hfirst, h⟩ := Option.bind_eq_some_iff.1 h
    obtain ⟨⟨argument, back⟩, hquotes, h⟩ := Option.bind_eq_some_iff.1 h
    obtain ⟨⟨opened, tail⟩, hclosing, h⟩ := Option.bind_eq_some_iff.1 h
    obtain ⟨⟨head, inner⟩, hopening, h⟩ := Option.bind_eq_some_iff.1 h
    cases h
    have hargument : argument = opened ++ '>' :: tail := by
      rw [eq_of_splitAtLast? hclosing, append_assoc]
      rfl
    have hopened : opened = head ++ '<' :: inner := by
      rw [eq_of_splitAtLast? hopening, append_assoc]
      rfl
    subst hargument hopened
    exact ⟨front, rest, head, inner, tail, back, hfirst, ⟨hquotes, hclosing, hopening⟩, rfl⟩
  · rintro ⟨front, rest, head, inner, tail, back, hfirst, hcut, rfl⟩
    refine Option.bind_eq_some_iff.2 ⟨_, hfirst, Option.bind_eq_some_iff.2 ⟨_, hcut.quotes, ?_⟩⟩
    exact Option.bind_eq_some_iff.2 ⟨_, hcut.closing,
      Option.bind_eq_some_iff.2 ⟨_, hcut.opening, rfl⟩⟩

theorem escapeAngles?_eq_none (hfirst : splitAtFirst? ['(', '"'] line = some (front, rest))
    (hcut : ¬ ∃ head inner tail back, Cut rest head inner tail back) :
    escapeAngles? line = none := by
  rw [Option.eq_none_iff_forall_ne_some]
  intro y hy
  obtain ⟨front', rest', head, inner, tail, back, hfirst', hcut', -⟩ :=
    escapeAngles?_eq_some_iff.1 hy
  rw [hfirst] at hfirst'
  cases hfirst'
  exact hcut ⟨head, inner, tail, back, hcut'⟩

/-! ### Both rules agree -/

theorem lastPlace?_within_iff {c : Char} {a b d : List Char} {i : Nat} :
    lastPlace? [c] (a ++ (b ++ d)) (a.length + b.length) = some (a.length + i) ↔
      ∃ split, splitAtLast? [c] b = some split ∧ split.1.length = i := by
  rw [lastPlace?_append_iff, lastPlace?_singleton_append c b d (Nat.le_refl _),
    ← length_splitAtLast? (cons_ne_nil c []), Option.map_eq_some_iff]

theorem lastPlace?_quotes_iff {a b : List Char} {i : Nat} :
    lastPlace? ['"', ')'] (a ++ b) (a ++ b).length = some (a.length + i) ↔
      ∃ split, splitAtLast? ['"', ')'] b = some split ∧ split.1.length = i := by
  rw [length_append, lastPlace?_append_iff, ← length_splitAtLast? (cons_ne_nil _ _),
    Option.map_eq_some_iff]

theorem firstPlace?_call_iff {i : Nat} :
    firstPlace? ['(', '"'] line = some i ↔ ∃ split, splitAtFirst? ['(', '"'] line = some split ∧
    split.1.length = i := by
  rw [← length_splitAtFirst? (cons_ne_nil _ _), Option.map_eq_some_iff]

theorem length_call (front : List Char) : (front ++ ['(', '"']).length = front.length + 2 :=
  length_append

theorem anglePair?_of_cut (hfirst : splitAtFirst? ['(', '"'] line = some (front, rest))
    (hcut : Cut rest head inner tail back) :
    anglePair? line = some ((front ++ ['(', '"']).length + head.length,
      (front ++ ['(', '"']).length + (head ++ '<' :: inner).length) := by
  have hline := eq_of_splitAtFirst? hfirst
  have hquotes := (lastPlace?_quotes_iff (a := front ++ ['(', '"'])).2 ⟨_, hcut.quotes, rfl⟩
  have hclosing := (lastPlace?_within_iff (a := front ++ ['(', '"']) (d := '"' :: ')' :: back)).2
    ⟨_, hcut.closing, rfl⟩
  have hopening := (lastPlace?_within_iff (a := front ++ ['(', '"'])
    (d := '>' :: tail ++ '"' :: ')' :: back)).2
    ⟨_, hcut.opening, rfl⟩
  rw [← hline] at hquotes
  rw [← hcut.eq, ← hline] at hclosing
  rw [← append_assoc (head ++ '<' :: inner), ← hcut.eq, ← hline] at hopening
  refine anglePair?_eq_some_iff.2 ⟨_, _, firstPlace?_call_iff.2 ⟨_, hfirst, rfl⟩, hquotes,
    hclosing, hopening, ?_⟩
  rw [length_call]
  exact Nat.le_add_right _ _

theorem exists_cut_of_anglePair? (h : anglePair? line = some (l, g)) :
    ∃ front rest head inner tail back, splitAtFirst? ['(', '"'] line = some (front, rest) ∧
      Cut rest head inner tail back := by
  obtain ⟨s, e, hs, he, hg, hl, hle⟩ := anglePair?_eq_some_iff.1 h
  have hlg := lt_of_lastPlace? hl
  have hge := lt_of_lastPlace? hg
  obtain ⟨⟨front, rest⟩, hfirst, rfl⟩ := firstPlace?_call_iff.1 hs
  rw [← length_call] at hle
  -- All places are behind `("`, so they are places in the rest of the line.
  obtain ⟨l, rfl⟩ := Nat.exists_eq_add_of_le hle
  obtain ⟨g, rfl⟩ := Nat.exists_eq_add_of_le (Nat.le_trans hle (Nat.le_of_lt hlg))
  obtain ⟨e, rfl⟩ := Nat.exists_eq_add_of_le
    (Nat.le_trans hle (Nat.le_of_lt (Nat.lt_trans hlg hge)))
  rw [eq_of_splitAtFirst? hfirst] at he hg hl
  obtain ⟨⟨argument, back⟩, hquotes, rfl⟩ := lastPlace?_quotes_iff.1 he
  have hrest := eq_of_splitAtLast? hquotes
  rw [hrest, List.append_assoc argument] at hg hl
  obtain ⟨⟨opened, tail⟩, hclosing, rfl⟩ := lastPlace?_within_iff.1 hg
  have hargument := eq_of_splitAtLast? hclosing
  rw [hargument, List.append_assoc opened, List.append_assoc opened] at hl
  obtain ⟨⟨head, inner⟩, hopening, -⟩ := lastPlace?_within_iff.1 hl
  have hopened := eq_of_splitAtLast? hopening
  have hcut : rest = head ++ '<' :: inner ++ '>' :: tail ++ '"' :: ')' :: back := by
    rw [hrest, hargument, hopened]
    simp
  obtain ⟨head, inner, tail, back, hcut⟩ := exists_cut hcut
  exact ⟨front, rest, head, inner, tail, back, hfirst, hcut⟩

theorem sanitizeLine_eq (line : List Char) : sanitizeLine line = escapeLastPair line := by
  rw [sanitizeLine, escapeLastPair]
  cases hpair : anglePair? line with
  | none =>
    have hnone : escapeAngles? line = none := by
      rw [Option.eq_none_iff_forall_ne_some]
      intro y hy
      obtain ⟨front, rest, head, inner, tail, back, hfirst, hcut, -⟩ :=
        escapeAngles?_eq_some_iff.1 hy
      rw [anglePair?_of_cut hfirst hcut] at hpair
      cases hpair
    rw [hnone]
    rfl
  | some pair =>
    obtain ⟨l, g⟩ := pair
    obtain ⟨front, rest, head, inner, tail, back, hfirst, hcut⟩ := exists_cut_of_anglePair? hpair
    rw [anglePair?_of_cut hfirst hcut] at hpair
    cases hpair
    rw [escapeAngles?_eq_some_iff.2 ⟨front, rest, head, inner, tail, back, hfirst, hcut, rfl⟩]
    have hline : line = front ++ ['(', '"'] ++ head ++ '<' :: inner ++ '>' ::
        (tail ++ '"' :: ')' :: back) := by
      rw [eq_of_splitAtFirst? hfirst, hcut.eq]
      simp
    show _ = escapeAt _ _ line
    rw [← length_append, ← length_append, ← append_assoc, hline, escapeAt_append]
    simp

/-! ### Line by line -/

theorem escapeAngles?_concat_lineFeed (line : List Char) :
    escapeAngles? (line ++ ['\n']) = (escapeAngles? line).map (· ++ ['\n']) := by
  rw [escapeAngles?, escapeAngles?, splitAtFirst?_concat (by decide) (by decide)]
  rcases splitAtFirst? ['(', '"'] line with - | ⟨front, rest⟩
  · rfl
  simp only [Option.map_some, Option.bind_eq_bind, Option.bind_some]
  rw [splitAtLast?_concat (by decide) (by decide)]
  rcases splitAtLast? ['"', ')'] rest with - | ⟨argument, back⟩
  · rfl
  simp only [Option.map_some, Option.bind_some]
  rcases splitAtLast? ['>'] argument with - | ⟨opened, tail⟩
  · rfl
  simp only [Option.bind_some]
  rcases splitAtLast? ['<'] opened with - | ⟨head, inner⟩
  · rfl
  simp

theorem sanitizeLine_concat_lineFeed (line : List Char) :
    sanitizeLine (line ++ ['\n']) = sanitizeLine line ++ ['\n'] := by
  rw [sanitizeLine, sanitizeLine, escapeAngles?_concat_lineFeed]
  cases escapeAngles? line <;> rfl

theorem lineFeed_notMem_sanitizeLine (hline : '\n' ∉ line) : '\n' ∉ sanitizeLine line := by
  rw [sanitizeLine]
  cases h : escapeAngles? line with
  | none => exact hline
  | some y =>
    obtain ⟨front, rest, head, inner, tail, back, hfirst, hcut, rfl⟩ :=
      escapeAngles?_eq_some_iff.1 h
    rw [eq_of_splitAtFirst? hfirst, hcut.eq] at hline
    simpa using hline

theorem flatMap_sanitizeLine_last (hline : '\n' ∉ line) :
    (lines line).flatMap sanitizeLine = sanitizeLine line := by
  by_cases hne : line = []
  · rw [hne]
    rfl
  · rw [lines_of_notMem hline hne, flatMap_singleton]

theorem flatMap_sanitizeLine_next (hline : '\n' ∉ line) (rest : List Char) :
    (lines (line ++ '\n' :: rest)).flatMap sanitizeLine =
      sanitizeLine line ++ '\n' :: (lines rest).flatMap sanitizeLine := by
  rw [lines_append_cons hline, flatMap_cons, sanitizeLine_concat_lineFeed, append_assoc]
  rfl

theorem splitAt_flatMap_sanitizeLine (s : List Char) :
    splitAt '\n' ((lines s).flatMap sanitizeLine) = (splitAt '\n' s).map escapeLastPair := by
  induction s using induction_on_lines with
  | last line hline =>
    rw [flatMap_sanitizeLine_last hline, splitAt_of_notMem (lineFeed_notMem_sanitizeLine hline),
      splitAt_of_notMem hline, sanitizeLine_eq, map_singleton]
  | next line rest hline ih =>
    rw [flatMap_sanitizeLine_next hline, splitAt_append, splitAt_append, ih,
      splitAt_of_notMem (lineFeed_notMem_sanitizeLine hline), splitAt_of_notMem hline,
      sanitizeLine_eq, map_append, map_singleton]

/-! ### The rule by a pattern -/

def anything : Pattern :=
  .group (.many .notLineFeed)

def angles : Pattern :=
  .text ['(', '"'] ++ anything ++ .text ['<'] ++ anything ++ .text ['>'] ++ anything ++
    .text ['"', ')']

def escapedMatch (texts : List (List Char)) : List Char :=
  ['(', '"'] ++ texts.getD 0 [] ++ "&lt;".toList ++ texts.getD 1 [] ++ "&gt;".toList ++
    texts.getD 2 [] ++ ['"', ')']

theorem notLineFeed_of_notMem (hx : '\n' ∉ x) : ∀ c ∈ x, CharClass.notLineFeed.contains c := by
  intro c hc
  have hne : c ≠ '\n' := fun h => hx (h ▸ hc)
  simpa [CharClass.contains] using hne

theorem match?_quotes (hx : '\n' ∉ x) :
    (anything ++ .text ['"', ')']).match? x =
      (splitAtLast? ['"', ')'] x).map fun split => ⟨[⟨x, '"' :: ')' :: split.2⟩], split.2⟩ := by
  have hrun : (anything ++ .text ['"', ')']).match? (x ++ []) =
      (splitAtLast? ['"', ')'] x).map fun split =>
        Pattern.Match.remember (x ++ []) (['"', ')'] ++ split.2 ++ []) ⟨[], split.2⟩ := by
    apply Pattern.run_group_many_text (f := fun b =>
      (⟨[], b⟩ : Pattern.Match)) (cons_ne_nil _ _) (notLineFeed_of_notMem hx)
    · simp
    · intro a b h
      simp at h
    · intro a b _
      rw [append_nil]
  simpa [Pattern.Match.remember] using hrun

/-- Behind the last `")` the rest of the pattern finds nothing, and in front of it, it finds
the last `>`. -/
theorem match?_closing {argument : List Char} (hx : '\n' ∉ x)
    (hquotes : splitAtLast? ['"', ')'] x = some (argument, back)) :
    (anything ++ .text ['>'] ++ (anything ++ .text ['"', ')'])).match? x =
      (splitAtLast? ['>'] argument).map fun split =>
        ⟨[⟨x, '>' :: split.2 ++ '"' :: ')' :: back⟩,
          ⟨split.2 ++ '"' :: ')' :: back, '"' :: ')' :: back⟩], back⟩ := by
  have hx' : x = argument ++ '"' :: ')' :: back := by
    rw [eq_of_splitAtLast? hquotes, append_assoc]
    rfl
  subst hx'
  apply Pattern.run_group_many_text
    (f := fun b => (⟨[⟨b ++ '"' :: ')' :: back, '"' :: ')' :: back⟩], back⟩ : Pattern.Match))
    (cons_ne_nil _ _)
  · exact notLineFeed_of_notMem fun h => hx (mem_append_left _ h)
  · simp
  · intro a b hb
    have hnone : splitAtLast? ['"', ')'] b = none := by
      apply splitAtLast?_eq_none_of_lt hquotes (a := argument ++ (a ++ ['>']))
      · rw [hb, append_assoc argument]
      · simp
    have hb' : '\n' ∉ b := by
      rw [hb] at hx
      exact fun h => hx (mem_append_right _ (mem_append_right _ h))
    show (anything ++ .text ['"', ')']).match? b = none
    rw [match?_quotes hb', hnone]
    rfl
  · intro a b hb
    have hlater : splitAtLast? ['"', ')'] (b ++ '"' :: ')' :: back) = some (b, back) := by
      rw [hb, append_assoc] at hquotes
      exact splitAtLast?_append_iff.1 hquotes
    have hb' : '\n' ∉ b ++ '"' :: ')' :: back := by
      rw [hb, append_assoc] at hx
      exact fun h => hx (mem_append_right _ h)
    show (anything ++ .text ['"', ')']).match? (b ++ '"' :: ')' :: back) = _
    rw [match?_quotes hb', hlater]
    rfl

theorem eq_of_match?_closing {m : Pattern.Match}
    (h : (anything ++ .text ['>'] ++ (anything ++ .text ['"', ')'])).match? x = some m) :
    ∃ a b c, x = a ++ '>' :: b ++ '"' :: ')' :: c := by
  obtain ⟨t, ht, c, rfl⟩ := Pattern.isSome_match?_iff.1 (Option.isSome_of_eq_some h)
  obtain ⟨_, _, rfl, ⟨a, _, rfl, -, rfl⟩, ⟨b, _, rfl, -, rfl⟩⟩ := ht
  exact ⟨a, b, c, by simp⟩

theorem Cut.eq_append (h : Cut x head inner tail back) :
    x = head ++ '<' :: inner ++ '>' :: (tail ++ '"' :: ')' :: back) := by
  rw [h.eq, append_assoc _ ('>' :: tail)]
  rfl

/-- Behind an opening bracket that is further on than the cut, the rest of the pattern finds
nothing: a closing bracket and a quotation mark there would be later than the last ones. -/
theorem Cut.match?_closing_eq_none {a b : List Char} (h : Cut x head inner tail back)
    (hb : '>' :: (tail ++ '"' :: ')' :: back) = a ++ ['<'] ++ b) :
    (anything ++ .text ['>'] ++ (anything ++ .text ['"', ')'])).match? b = none := by
  rw [Option.eq_none_iff_forall_ne_some]
  intro m hm
  obtain ⟨c, d, e, hb'⟩ := eq_of_match?_closing hm
  have hquotes : x = (head ++ '<' :: inner ++ (a ++ '<' :: c) ++ '>' :: d) ++ ['"', ')'] ++ e := by
    rw [h.eq_append, hb, hb']
    simp
  obtain ⟨rest, back', hlast⟩ := exists_splitAtLast? hquotes
  rw [h.quotes] at hlast
  obtain ⟨hargument, -⟩ := Prod.mk.inj (Option.some.inj hlast)
  have hle : (head ++ '<' :: inner ++ (a ++ '<' :: c)).length ≤ (head ++ '<' :: inner).length := by
    apply length_le_of_splitAtLast? (b := d ++ rest) h.closing
    rw [hargument]
    simp
  simp only [length_append, length_cons] at hle
  omega

/-- Behind any opening bracket in front of the cut, the rest of the pattern finds the closing
bracket of the cut. -/
theorem Cut.match?_closing_eq_some {a b : List Char} (hx : '\n' ∉ x)
    (h : Cut x head inner tail back) (hb : head ++ '<' :: inner = a ++ ['<'] ++ b) :
    (anything ++ .text ['>'] ++ (anything ++ .text ['"', ')'])).match?
    (b ++ '>' :: (tail ++ '"' :: ')' :: back)) =
      some ⟨[⟨b ++ '>' :: (tail ++ '"' :: ')' :: back), '>' :: (tail ++ '"' :: ')' :: back)⟩,
        ⟨tail ++ '"' :: ')' :: back, '"' :: ')' :: back⟩], back⟩ := by
  have hx' := h.eq_append
  have hquotes : splitAtLast? ['"', ')'] (b ++ '>' :: (tail ++ '"' :: ')' :: back)) =
      some (b ++ '>' :: tail, back) := by
    have hlast := h.quotes
    rw [hx', hb, append_assoc _ b, append_assoc _ b] at hlast
    exact splitAtLast?_append_iff.1 hlast
  have hclosing : splitAtLast? ['>'] (b ++ '>' :: tail) = some (b, tail) := by
    have hlast := h.closing
    rw [hb, append_assoc _ b] at hlast
    exact splitAtLast?_append_iff.1 hlast
  have hb' : '\n' ∉ b ++ '>' :: (tail ++ '"' :: ')' :: back) := by
    rw [hx', hb, append_assoc _ b] at hx
    exact fun h => hx (mem_append_right _ h)
  rw [match?_closing hb' hquotes, hclosing]
  rfl

/-- Where the text behind `("` is cut, the pattern matches, and it remembers the parts. -/
theorem exists_match?_of_cut (hx : '\n' ∉ x) (h : Cut x head inner tail back) :
    ∃ m, angles.match? ('(' :: '"' :: x) = some m ∧
      m.groups.map Pattern.Group.text = [head, inner, tail] ∧ m.rest = back := by
  have hopened : ∀ c ∈ head ++ '<' :: inner, CharClass.notLineFeed.contains c := by
    rw [h.eq_append] at hx
    exact notLineFeed_of_notMem fun h => hx (mem_append_left _ h)
  have hrun : angles.match?
      ('(' :: '"' :: (head ++ '<' :: inner ++ '>' :: (tail ++ '"' :: ')' :: back))) =
        (splitAtLast? ['<'] (head ++ '<' :: inner)).map fun split =>
          ⟨[⟨head ++ '<' :: inner ++ '>' :: (tail ++ '"' :: ')' :: back),
            '<' :: split.2 ++ '>' :: (tail ++ '"' :: ')' :: back)⟩,
            ⟨split.2 ++ '>' :: (tail ++ '"' :: ')' :: back), '>' :: (tail ++ '"' :: ')' :: back)⟩,
            ⟨tail ++ '"' :: ')' :: back, '"' :: ')' :: back⟩], back⟩ := by
    apply Pattern.run_group_many_text (f := fun b =>
      (⟨[⟨b ++ '>' :: (tail ++ '"' :: ')' :: back), '>' :: (tail ++ '"' :: ')' :: back)⟩,
        ⟨tail ++ '"' :: ')' :: back, '"' :: ')' :: back⟩], back⟩ : Pattern.Match))
        (cons_ne_nil _ _) hopened
    · simp
    · intro a b hb
      exact h.match?_closing_eq_none hb
    · intro a b hb
      exact h.match?_closing_eq_some hx hb
  rw [h.eq_append, hrun, h.opening]
  refine ⟨_, rfl, ?_, rfl⟩
  simp [Pattern.Group.text]

theorem eq_of_occurs_angles {s : List Char} (h : angles.Occurs s) :
    ∃ p a b c q, s = p ++ '(' :: '"' :: a ++ '<' :: b ++ '>' :: c ++ '"' :: ')' :: q := by
  obtain ⟨t, ht, p, q, rfl⟩ := h
  obtain ⟨_, _, rfl, ⟨_, c, rfl,
    ⟨_, _, rfl, ⟨_, b, rfl, ⟨_, _, rfl, ⟨_, a, rfl, rfl, -⟩, rfl⟩, -⟩, rfl⟩, -⟩, rfl⟩ := ht
  exact ⟨p, a, b, c, q, by simp⟩

theorem match?_angles_eq_none {s : List Char} (h : ['(', '"'].isPrefixOf s = false) :
    angles.match? s = none := by
  show (if ['(', '"'].isPrefixOf s then _ else none) = none
  rw [h]
  rfl

theorem Cut.not_occurs_back (h : Cut x head inner tail back) : ¬ angles.Occurs back := by
  intro hback
  obtain ⟨p, a, b, c, q, hs⟩ := eq_of_occurs_angles hback
  have hle : (head ++ '<' :: inner ++ '>' :: tail ++ '"' :: ')' ::
      (p ++ '(' :: '"' :: a ++ '<' :: b ++ '>' :: c)).length ≤
        (head ++ '<' :: inner ++ '>' :: tail).length := by
    apply length_le_of_splitAtLast? (b := q) h.quotes
    rw [h.eq, hs]
    simp
  simp only [length_append, length_cons] at hle
  omega

theorem exists_cut_of_occurs (h : angles.Occurs ('(' :: '"' :: rest)) :
    ∃ head inner tail back, Cut rest head inner tail back := by
  obtain ⟨p, a, b, c, q, hs⟩ := eq_of_occurs_angles h
  have hlength : 2 ≤ (p ++ '(' :: '"' :: a).length := by
    simp
    omega
  have hrest : rest = (p ++ '(' :: '"' :: a).drop 2 ++ '<' :: b ++ '>' :: c ++ '"' :: ')' :: q := by
    have hdrop := congrArg (List.drop 2) hs
    rwa [append_assoc, append_assoc, drop_append_of_le_length hlength,
      ← append_assoc, ← append_assoc]
      at hdrop
  exact exists_cut hrest

/-- Where the text behind `("` is cut, there is one match, and the text behind it stays as it is. -/
theorem replaceEach_angles_of_cut (hrest : '\n' ∉ rest) (hcut : Cut rest head inner tail back) :
    angles.replaceEach escapedMatch ('(' :: '"' :: rest) =
      escapedMatch [head, inner, tail] ++ back := by
  obtain ⟨m, hm, hgroups, rfl⟩ := exists_match?_of_cut hrest hcut
  have hshorter : m.rest.length < ('(' :: '"' :: rest).length := by
    rw [hcut.eq]
    simp
    omega
  rw [Pattern.replaceEach_of_match hm hshorter, hgroups,
    Pattern.replaceEach_of_not_occurs hcut.not_occurs_back]

theorem replaceEach_angles_line (hline : '\n' ∉ line) :
    angles.replaceEach escapedMatch line = sanitizeLine line := by
  rw [sanitizeLine]
  cases hfirst : splitAtFirst? ['(', '"'] line with
  | none =>
    have hnone : ¬ angles.Occurs line := by
      intro h
      obtain ⟨p, a, b, c, q, hs⟩ := eq_of_occurs_angles h
      exact not_infix_of_splitAtFirst? hfirst ⟨p, a ++ '<' :: b ++ '>' :: c ++ '"' :: ')' :: q, by
        rw [hs]; simp⟩
    rw [Pattern.replaceEach_of_not_occurs hnone, escapeAngles?, hfirst]
    rfl
  | some split =>
    obtain ⟨front, rest⟩ := split
    have hs : line = front ++ '(' :: '"' :: rest := by
      rw [eq_of_splitAtFirst? hfirst, append_assoc]
      rfl
    have hfront : ∀ v, v ≠ [] → v <:+ front → angles.match? (v ++ '(' :: '"' :: rest) = none := by
      intro v hne hv
      have hstart := isPrefixOf_of_splitAtFirst? hfirst hne hv
      rw [append_assoc] at hstart
      exact match?_angles_eq_none hstart
    have hpass : angles.replaceEach escapedMatch line =
        front ++ angles.replaceEach escapedMatch ('(' :: '"' :: rest) := by
      rw [hs]
      exact Pattern.replaceEach_of_forall_none hfront
    rw [hpass]
    by_cases hcut : ∃ head inner tail back, Cut rest head inner tail back
    · obtain ⟨head, inner, tail, back, hcut⟩ := hcut
      have hrest : '\n' ∉ rest := by
        rw [hs] at hline
        exact fun h => hline (mem_append_right _ (mem_cons_of_mem _ (mem_cons_of_mem _ h)))
      rw [replaceEach_angles_of_cut hrest hcut,
        escapeAngles?_eq_some_iff.2 ⟨front, rest, head, inner, tail, back, hfirst, hcut, rfl⟩]
      simp [escapedMatch]
    · rw [Pattern.replaceEach_of_not_occurs (mt exists_cut_of_occurs hcut),
        escapeAngles?_eq_none hfirst hcut, ← hs]
      rfl

theorem replaceEach_angles (s : List Char) : angles.replaceEach escapedMatch s =
    (lines s).flatMap sanitizeLine := by
  induction s using induction_on_lines with
  | last line hline => rw [flatMap_sanitizeLine_last hline, replaceEach_angles_line hline]
  | next line rest hline ih =>
    have hlineFeed : angles.match? ('\n' :: rest) = none := match?_angles_eq_none rfl
    rw [flatMap_sanitizeLine_next hline, Pattern.replaceEach_append rfl,
      replaceEach_angles_line hline, Pattern.replaceEach_of_none hlineFeed, ih]

/-! ### Undoing the escapes -/

def unescapeAngles (s : List Char) : List Char :=
  replaceText "&gt;".toList ['>'] (replaceText "&lt;".toList ['<'] s)

theorem unescapeAngles_lt (a b : List Char) :
    unescapeAngles (a ++ ("&lt;".toList ++ b)) = unescapeAngles (a ++ '<' :: b) := by
  rw [unescapeAngles, replaceText_singleton (by simp) (by decide) (by decide), unescapeAngles]

theorem unescapeAngles_gt (a b : List Char) :
    unescapeAngles (a ++ ("&gt;".toList ++ b)) = unescapeAngles (a ++ '>' :: b) := by
  have hwritten : replaceText "&lt;".toList ['<'] ("&gt;".toList ++ b) =
      "&gt;".toList ++ replaceText "&lt;".toList ['<'] b := by
    show replaceText "&lt;".toList ['<'] ('&' :: 'g' :: 't' :: ';' :: b) = _
    rw [replaceText_cons rfl, replaceText_cons rfl, replaceText_cons rfl, replaceText_cons rfl]
    rfl
  have hplain : replaceText "&lt;".toList ['<'] ('>' :: b) =
      '>' :: replaceText "&lt;".toList ['<'] b := replaceText_cons rfl
  rw [unescapeAngles, unescapeAngles,
    replaceText_append (v := "&gt;".toList ++ b) (by decide) (by simp),
    replaceText_append (v := '>' :: b) (by decide) (by simp), hwritten, hplain,
    replaceText_singleton (by simp) (by decide) (by decide)]

/-- In any surroundings, an escaped line and the line itself are the same once escapes are
undone. -/
theorem unescapeAngles_sanitizeLine (a line b : List Char) :
    unescapeAngles (a ++ (sanitizeLine line ++ b)) = unescapeAngles (a ++ (line ++ b)) := by
  rw [sanitizeLine]
  cases h : escapeAngles? line with
  | none => rfl
  | some y =>
    obtain ⟨front, rest, head, inner, tail, back, hfirst, hcut, rfl⟩ :=
      escapeAngles?_eq_some_iff.1 h
    have hlt := unescapeAngles_lt (a ++ front ++ ['(', '"'] ++ head)
      (inner ++ ("&gt;".toList ++ (tail ++ ['"', ')'] ++ back ++ b)))
    have hgt := unescapeAngles_gt (a ++ front ++ ['(', '"'] ++ head ++ '<' :: inner)
      (tail ++ ['"', ')'] ++ back ++ b)
    rw [eq_of_splitAtFirst? hfirst, hcut.eq]
    simp only [append_assoc, cons_append, nil_append, Option.getD_some] at hlt hgt ⊢
    rw [hlt, hgt]

theorem unescapeAngles_flatMap (a : List Char) (ls : List (List Char)) :
    unescapeAngles (a ++ ls.flatMap sanitizeLine) = unescapeAngles (a ++ ls.flatten) := by
  induction ls generalizing a with
  | nil => rfl
  | cons line ls ih =>
    rw [flatMap_cons, flatten_cons, unescapeAngles_sanitizeLine, ← append_assoc, ih, append_assoc]

/-- **Escaped angle brackets.** A text is escaped by replacing every match of the pattern
`("…<…>…")`. What this does is said line by line: of the brackets in front of the last `")`,
the last closing one and the last opening one in front of that are escaped, if they stand
behind the first `("`, and nothing else is changed. Undoing the escapes gives what it gives in
the original text. -/
theorem sanitize_escapes_last_pair (text : String) :
    (sanitize text).toList = angles.replaceEach escapedMatch text.toList ∧
      splitAt '\n' (sanitize text).toList = (splitAt '\n' text.toList).map escapeLastPair ∧
      unescapeAngles (sanitize text).toList = unescapeAngles text.toList := by
  have hsanitize : (sanitize text).toList = (lines text.toList).flatMap sanitizeLine :=
    String.toList_ofList
  refine ⟨?_, ?_, ?_⟩
  · rw [hsanitize, replaceEach_angles]
  · rw [hsanitize, splitAt_flatMap_sanitizeLine]
  · have hundo := unescapeAngles_flatMap [] (lines text.toList)
    rw [flatten_lines] at hundo
    rw [hsanitize]
    exact hundo

/-- Of two arguments on one line, only the second one is escaped. -/
example : escapeLastPair "s.equals(\"<a>\"), t.equals(\"<b>\")".toList =
    "s.equals(\"<a>\"), t.equals(\"&lt;b&gt;\")".toList := by
  decide

end WitnessReplay.Witness
