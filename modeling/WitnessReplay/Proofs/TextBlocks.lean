import WitnessReplay.Proofs.HeaderReading
import WitnessReplay.Proofs.NestedLiterals

/-!
# Text blocks

Three quotes open a text block if it is closed somewhere behind them. If it is not, they are
read as an empty string and the first quote of another one, which ends on its line: no error is
made of a text block without an end.
-/

namespace WitnessReplay.Source

open Text List

theorem exists_starts_at {language : Language} {source before rest : List Char} {t : Token}
    {front back : List Item}
    (h : (lexicon language).Reads (.start source) source [] (front ++ .leaf t :: back))
    (hsource : source = before ++ rest) (hstart : t.span.start = byteLength before) :
    ∃ text after, rest = text ++ after ∧
      (lexicon language).Starts ((Place.start source).after before) (.leaf t) text after ∧
        (lexicon language).Reads ((Place.start source).after (before ++ text)) after [] back := by
  obtain ⟨before', text, after, hsplit, -, hstarts, hback⟩ := h.exists_at_item
  have hbytes : byteLength before = byteLength before' := by
    have hleaf := hstarts.leaf_eq
    rw [append_nil] at hleaf
    have hplace : (Place.start source).after before' = .between before' (text ++ after) := by
      rw [Place.between, ← hsplit]
    rw [hplace] at hleaf
    rw [← hstart, (leaf_takes (lawful_lexicon language) hleaf).span, Place.spanOf_between,
      Span.behind]
  -- both texts in front of the leaf are as long
  have hbefore : before <+: source := ⟨rest, hsource.symm⟩
  have hbefore' : before' <+: source := ⟨text ++ after, hsplit.symm⟩
  obtain ⟨more, rfl⟩ := prefix_of_byteLength_le hbefore hbefore' hbytes.le
  obtain rfl : more = [] := byteLength_eq_zero (by rw [byteLength_append] at hbytes; omega)
  rw [append_nil] at hsplit hstarts hback
  rw [hsource] at hsplit
  exact ⟨text, after, append_cancel_left hsplit, by rwa [append_nil] at hstarts, hback⟩

namespace Java

/-! ### The inside of a text block -/

def blockMark : List Char :=
  ['"', '"', '"']

/-- The inside of a text block: escaped characters, and characters at which the closing quotes
do not start yet. -/
inductive BlockText : List Char → Prop where
  | nil : BlockText []
  | escape {c : Char} {x : List Char} (h : BlockText x) : BlockText ('\\' :: c :: x)
  | char {c : Char} {x : List Char} (hescape : c ≠ '\\')
      (hopen : ¬blockMark <+: c :: (x ++ blockMark)) (h : BlockText x) :
      BlockText (c :: x)

def inBlockMarks (x : List Char) : List Char :=
  blockMark ++ (x ++ blockMark)

def Unclosed (r : List Char) : Prop :=
  ¬∃ x after, BlockText x ∧ r = x ++ (blockMark ++ after)

variable {x y r after : List Char} {n : Nat}

theorem textBlockTail_other {c : Char} (hescape : c ≠ '\\') (hopen : ¬blockMark <+: c :: r) :
    textBlockTail (c :: r) = (textBlockTail r).map (· + 1) := by
  rw [textBlockTail]
  · rintro r' rfl rfl
    exact hopen ⟨r', rfl⟩
  · rintro d r' rfl
    exact absurd rfl hescape

theorem BlockText.textBlockTail_eq (h : BlockText x) (after : List Char) :
    textBlockTail (x ++ (blockMark ++ after)) = some (x.length + 3) := by
  induction h with
  | nil => rfl
  | escape _ ih =>
    rw [cons_append, cons_append, textBlockTail, ih]
    rfl
  | @char c x hescape hopen _ ih =>
    have hopen' : ¬blockMark <+: c :: (x ++ (blockMark ++ after)) := by
      intro hstart
      refine hopen (prefix_of_prefix_length_le hstart ⟨after, by simp⟩ ?_)
      simp [blockMark]
    rw [cons_append, textBlockTail_other hescape hopen', ih]
    rfl

theorem exists_of_textBlockTail (h : textBlockTail r = some n) :
    ∃ x after, BlockText x ∧ r = x ++ (blockMark ++ after) ∧ n = x.length + 3 := by
  fun_induction textBlockTail r generalizing n with
  | case1 r =>
    cases h
    exact ⟨[], r, .nil, rfl, rfl⟩
  | case2 c r ih =>
    obtain ⟨m, hm, rfl⟩ := Option.map_eq_some_iff.1 h
    obtain ⟨x, after, hx, rfl, rfl⟩ := ih hm
    exact ⟨'\\' :: c :: x, after, .escape hx, rfl, rfl⟩
  | case3 c r hclose hescape ih =>
    obtain ⟨m, hm, rfl⟩ := Option.map_eq_some_iff.1 h
    obtain ⟨x, after, hx, rfl, rfl⟩ := ih hm
    have hc : c ≠ '\\' := by
      rintro rfl
      cases x with
      | nil => exact hescape _ _ rfl rfl
      | cons d x => exact hescape _ _ rfl rfl
    have hopen : ¬blockMark <+: c :: (x ++ blockMark) := by
      rintro ⟨rest, hrest⟩
      obtain ⟨rfl, hquotes⟩ := List.cons.inj hrest
      refine hclose (rest ++ after) rfl ?_
      rw [← append_assoc, ← hquotes]
      rfl
    exact ⟨c :: x, after, .char hc hopen hx, rfl, rfl⟩
  | case4 => cases h

theorem textBlockTail_of_quotes (h : textBlockTail ('"' :: '"' :: r) = none) :
    textBlockTail r = none := by
  by_cases hquote : ∃ r', r = '"' :: r'
  · obtain ⟨r', rfl⟩ := hquote
    cases h
  · have hfirst : ¬blockMark <+: '"' :: '"' :: r := by
      rintro ⟨r', hr⟩
      exact hquote ⟨r', (List.cons.inj (List.cons.inj hr).2).2.symm⟩
    have hsecond : ¬blockMark <+: '"' :: r := by
      rintro ⟨r', hr⟩
      exact hquote ⟨'"' :: r', (List.cons.inj hr).2.symm⟩
    rwa [textBlockTail_other (by decide) hfirst, textBlockTail_other (by decide) hsecond,
      Option.map_eq_none_iff, Option.map_eq_none_iff] at h

theorem Unclosed.textBlockTail_eq (h : Unclosed r) : textBlockTail r = none := by
  cases hr : textBlockTail r with
  | none => rfl
  | some n =>
    obtain ⟨x, after, hx, hsplit, -⟩ := exists_of_textBlockTail hr
    exact absurd ⟨x, after, hx, hsplit⟩ h

theorem unclosed_of_textBlockTail (h : textBlockTail r = none) : Unclosed r := by
  rintro ⟨x, after, hx, rfl⟩
  cases h.symm.trans (hx.textBlockTail_eq after)

/-! ### What is read at three quotes -/

theorem BlockText.literal_eq (h : BlockText x) (after : List Char) :
    (lexicon .java).literal (inBlockMarks x ++ after) = some (inBlockMarks x).length := by
  have htext : inBlockMarks x ++ after = '"' :: '"' :: '"' :: (x ++ (blockMark ++ after)) := by
    simp [inBlockMarks, blockMark]
  have hliteral : literal ('"' :: '"' :: '"' :: (x ++ (blockMark ++ after))) =
      some (x.length + 3 + 3) := by
    rw [literal_quote, string_block, h.textBlockTail_eq]
    rfl
  have hlength : (inBlockMarks x).length = x.length + 3 + 3 := by simp [inBlockMarks, blockMark]
  rw [htext, hlength]
  exact hliteral

theorem Unclosed.literal_first (h : Unclosed r) :
    (lexicon .java).literal (inQuotes [] ++ '"' :: r) = some (inQuotes []).length := by
  have hliteral : literal ('"' :: '"' :: '"' :: r) = some 2 := by
    rw [literal_quote, string_block, h.textBlockTail_eq]
    rfl
  exact hliteral

/-- With the third quote a string on one line starts, also if there are two more quotes. -/
theorem Unclosed.literal_third (h : Unclosed r) : (lexicon .java).literal ('"' :: r) =
    (quotedTail '"' r).map (· + 1) := by
  have hstring : string ('"' :: r) = (quotedTail '"' r).map (· + 1) := by
    by_cases hquotes : ∃ r', r = '"' :: '"' :: r'
    · obtain ⟨r', rfl⟩ := hquotes
      rw [string_block, textBlockTail_of_quotes h.textBlockTail_eq, quotedTail_quote (by decide)]
      rfl
    · exact string_line (not_exists.1 hquotes)
  exact (literal_quote r).trans hstring

theorem literal_of_reads {p : Place} {items : List Item}
    (h : (lexicon .java).Reads p ('"' :: r) [] items) :
    (lexicon .java).literal ('"' :: r) ≠ none := by
  intro hnone
  have hblanks : (lexicon .java).blanks ('"' :: r) = 0 :=
    (lexicon .java).blanks_of_startsLeaf (startsLeaf_of_startsLiteral rfl) _
  have hleaf : (lexicon .java).leaf p ('"' :: r) = none := by
    rw [Lexicon.leaf.eq_def, hnone]
    rfl
  cases items with
  | nil =>
    have hle := le_blanks_of_skips h.skips
    rw [append_nil, hblanks] at hle
    simp at hle
  | cons i items =>
    obtain ⟨gap, text, after, hsplit, hgap, hstarts, -⟩ := h.exists_of_cons
    have hskipped := Lexicon.blanks_of_skips hgap hstarts.blanks_eq
    rw [append_nil] at hskipped
    rw [← hsplit, hblanks] at hskipped
    obtain rfl := length_eq_zero_iff.1 hskipped.symm
    rw [append_nil, Place.after_nil] at hstarts
    rw [nil_append] at hsplit
    cases hstarts with
    | @opening d => cases d <;> cases hsplit
    | @closing d => cases d <;> cases hsplit
    | leaf _ hread =>
      rw [← hsplit, hleaf] at hread
      cases hread

theorem literal_line (hy : QuotedText '"' y) (h : Unclosed (y ++ '"' :: after)) :
    (lexicon .java).literal (inQuotes y ++ after) = some (inQuotes y).length := by
  rw [inQuotes_append, h.literal_third, hy.quotedTail_eq (by decide)]
  simp [inQuotes]

theorem eq_block_of_starts {p : Place} {t : Token} {text : List Char} (hx : BlockText x)
    (h : (lexicon .java).Starts p (.leaf t) text after) {after' : List Char}
    (htext : blockMark ++ (x ++ (blockMark ++ after')) = text ++ after) :
    t = literalAt p (inBlockMarks x) := by
  have hblock := starts_literalAt (hx.literal_eq after') (by simp [inBlockMarks, blockMark]) p
  have hsame : inBlockMarks x ++ after' = text ++ after := by rw [← htext]; simp [inBlockMarks]
  exact (Item.leaf.inj (starts_unique hsame hblock h).2).symm

theorem exists_strings_of_starts {p : Place} {t : Token} {text : List Char} {back : List Item}
    (hopen : Unclosed r)
    (h : (lexicon .java).Starts p (.leaf t) text after) (htext : blockMark ++ r = text ++ after)
    (hback : (lexicon .java).Reads (p.after text) after [] back) :
    ∃ y after' back', QuotedText '"' y ∧ r = y ++ '"' :: after' ∧ t = literalAt p (inQuotes []) ∧
      back = .leaf (literalAt (p.after (inQuotes [])) (inQuotes y)) :: back' := by
  have hempty := starts_literalAt hopen.literal_first (cons_ne_nil _ _) p
  have hsame : inQuotes [] ++ '"' :: r = text ++ after := htext
  obtain ⟨rfl, hitem⟩ := starts_unique hsame hempty h
  obtain rfl := append_cancel_left hsame
  -- the third quote is read as well, so a string starts with it
  have hliteral := literal_of_reads hback
  rw [hopen.literal_third, Ne, Option.map_eq_none_iff] at hliteral
  obtain ⟨n, hn⟩ := Option.ne_none_iff_exists'.1 hliteral
  obtain ⟨y, after', hy, rfl, -⟩ := exists_of_quotedTail hn
  have hline := starts_literalAt (literal_line hy hopen) (cons_ne_nil _ _) (p.after (inQuotes []))
  rw [← inQuotes_append, ← nil_append (inQuotes y ++ after')] at hback
  obtain ⟨back', rfl, -⟩ := (reads_item_iff .nil (by simpa using hline)).1 hback
  exact ⟨y, after', back', hy, rfl, (Item.leaf.inj hitem).symm, rfl⟩

/-- Where the scan of a source is at three quotes that are not closed, it goes on behind two
strings, if these are there. -/
theorem scan_unclosed {opened : List OpenGroup} {tokens : List Token} {p : Place}
    (hopen : Unclosed r) :
    scan .java ⟨opened, tokens, p, blockMark ++ r⟩ = none ↔
      ∀ y after, QuotedText '"' y → r = y ++ '"' :: after →
        scan .java ⟨opened, tokens ++ [literalAt p (inQuotes []),
        literalAt (p.after (inQuotes [])) (inQuotes y)],
          p.after (inQuotes [] ++ inQuotes y), after⟩ = none := by
  have hfirst : scan .java ⟨opened, tokens, p, blockMark ++ r⟩ = _ :=
    scan_literalAt hopen.literal_first (cons_ne_nil _ _) p
  rw [hfirst]
  constructor
  · rintro h y after hy rfl
    rw [← inQuotes_append, scan_literalAt (literal_line hy hopen) (cons_ne_nil _ _),
      ← Place.after_append] at h
    simpa using h
  · intro h
    cases hr : quotedTail '"' r with
    | none =>
      have hliteral := hopen.literal_third
      rw [hr] at hliteral
      exact Scan.Blocked.scan_eq_none (.quote (.inl rfl) hliteral)
    | some n =>
      obtain ⟨y, after, hy, rfl, -⟩ := exists_of_quotedTail hr
      rw [← inQuotes_append, scan_literalAt (literal_line hy hopen) (cons_ne_nil _ _),
        ← Place.after_append]
      simpa using h y after hy rfl

/-- **Three quotes.** Wherever a token of a source that is read starts with three quotes, it is
the text block up to its closing quotes if there are any. If there are none, the token is an
empty string, and the next one is a string that starts with the third quote and ends on its
line. So a source in which a text block is not closed is refused only if no such string starts
there, or for what follows the string. -/
theorem tripleQuotes_of_parse (source file : String) :
    (∀ outline, parse .java source file = .ok outline →
      ∃ tokens, body? .java (.start source.toList) source.toList = some tokens ∧
        ∀ front t back before r, Token.itemsAll tokens = front ++ .leaf t :: back →
          source.toList = before ++ (blockMark ++ r) → t.span.start = byteLength before →
          (∀ x after, BlockText x → r = x ++ (blockMark ++ after) →
            t = literalAt ((Place.start source.toList).after before) (inBlockMarks x)) ∧
          (Unclosed r → ∃ y after back', QuotedText '"' y ∧ r = y ++ '"' :: after ∧
            t = literalAt ((Place.start source.toList).after before) (inQuotes []) ∧
            back = .leaf (literalAt ((Place.start source.toList).after (before ++ inQuotes []))
            (inQuotes y)) :: back')) ∧
    ∀ opened tokens p r,
      Scan.Reaches (lexicon .java) (.start (.start source.toList) source.toList) ⟨opened, tokens,
      p, blockMark ++ r⟩ →
      Unclosed r →
      (parse .java source file = .error ⟨file⟩ ↔
        ∀ y after, QuotedText '"' y → r = y ++ '"' :: after →
          scan .java ⟨opened, tokens ++ [literalAt p (inQuotes []),
          literalAt (p.after (inQuotes [])) (inQuotes y)],
            p.after (inQuotes [] ++ inQuotes y), after⟩ = none) := by
  constructor
  · intro outline houtline
    obtain ⟨tokens, -, htokens, -⟩ := parse_java_eq_ok_iff.1 houtline
    refine ⟨tokens, htokens, fun front t back before r hitems hsource hstart => ?_⟩
    have hreads : (lexicon .java).Reads (.start source.toList) source.toList []
        (Token.itemsAll tokens) := body?_eq_some_iff.1 htokens
    rw [hitems] at hreads
    obtain ⟨text, after, htext, hstarts, hback⟩ := exists_starts_at hreads hsource hstart
    refine ⟨fun x after' hx hr => eq_block_of_starts hx hstarts (hr ▸ htext), fun hopen => ?_⟩
    rw [Place.after_append] at hback
    obtain ⟨y, after', back', hy, hr, ht, hnext⟩ :=
      exists_strings_of_starts hopen hstarts htext hback
    exact ⟨y, after', back', hy, hr, ht, by rwa [Place.after_append]⟩
  · intro opened tokens p r hreach hopen
    rw [parse_java_eq_error_iff, ← scan_unclosed hopen, ← hreach.scan_eq]
    exact iff_of_eq (congrArg (· =
      none) (body?_eq_scan_start .java (.start source.toList) source.toList))

def unclosedFront : List Char :=
  ['c', 'l', 'a', 's', 's', ' ', 'A', ' ', '{', ' ', 'S', 't', 'r', 'i', 'n', 'g', ' ', 's', ' ',
    '=', ' ']

def unclosedRest : List Char :=
  ['a', 'b', 'c', '"', ';', ' ', '}']

def unclosedSource : String :=
  String.ofList (unclosedFront ++ (blockMark ++ unclosedRest))

def unclosedTokens : List Token :=
  [.word "class" ⟨0, 5⟩ 1, .word "A" ⟨6, 7⟩ 1,
   .group .brace [.word "String" ⟨10, 16⟩ 1, .word "s" ⟨17, 18⟩ 1, .symbol '=' ⟨19, 20⟩ 1,
   .literal "\"\"" ⟨21, 23⟩ 1,
     .literal "\"abc\"" ⟨23, 28⟩ 1, .symbol ';' ⟨28, 29⟩ 1] ⟨8, 31⟩ 1]

theorem unclosed_unclosedRest : Unclosed unclosedRest :=
  unclosed_of_textBlockTail rfl

theorem toList_unclosedSource : unclosedSource.toList = unclosedFront ++
    (blockMark ++ unclosedRest) :=
  String.toList_ofList

theorem body?_unclosedSource :
    body? .java (.start unclosedSource.toList) unclosedSource.toList = some unclosedTokens := by
  rw [toList_unclosedSource]
  with_unfolding_all rfl

theorem header_unclosedSource :
    Source.header .java (.start unclosedSource.toList) unclosedSource.toList =
      some ((none, []), 0) := by
  rw [toList_unclosedSource]
  with_unfolding_all rfl

theorem parse_unclosedSource : parse .java unclosedSource "A.java" = .ok ⟨none, [], [], []⟩ := by
  have hfound : findings 0 [] unclosedTokens = ⟨[], []⟩ := by
    simp [unclosedTokens, findings, findingsAt, Token.word?, Token.children?, Delimiter.inner]
    rfl
  refine parse_eq_ok_iff.2 ⟨0, unclosedTokens, header_unclosedSource, body?_unclosedSource, ?_, ?_⟩
  · exact (congrArg Findings.calls hfound).symm
  · exact (congrArg Findings.functions hfound).symm

def unclosedItems : List Item :=
  [.leaf (.word "class" ⟨0, 5⟩ 1), .leaf (.word "A" ⟨6, 7⟩ 1), .opening .brace 8 1,
    .leaf (.word "String" ⟨10, 16⟩ 1),
   .leaf (.word "s" ⟨17, 18⟩ 1), .leaf (.symbol '=' ⟨19, 20⟩ 1)]

theorem itemsAll_unclosedTokens :
    Token.itemsAll unclosedTokens = unclosedItems ++
      [.leaf (literalAt ((Place.start unclosedSource.toList).after unclosedFront) (inQuotes [])),
       .leaf (literalAt ((Place.start unclosedSource.toList).after (unclosedFront ++ inQuotes []))
       (inQuotes ['a', 'b', 'c'])),
       .leaf (.symbol ';' ⟨28, 29⟩ 1), .closing .brace 31] :=
  rfl

/-- The text block without an end is read as an empty string and another one behind it. -/
theorem tripleQuotes_unclosedSource :
    (∃ outline, parse .java unclosedSource "A.java" = .ok outline) ∧ Unclosed unclosedRest ∧
      ∃ y after back, QuotedText '"' y ∧ unclosedRest = y ++ '"' :: after ∧
        Token.itemsAll unclosedTokens = unclosedItems ++
          .leaf (literalAt ((Place.start unclosedSource.toList).after unclosedFront)
          (inQuotes [])) ::
            .leaf (literalAt ((Place.start unclosedSource.toList).after
              (unclosedFront ++ inQuotes [])) (inQuotes y)) :: back := by
  obtain ⟨tokens, htokens, hquotes⟩ :=
    (tripleQuotes_of_parse unclosedSource "A.java").1 _ parse_unclosedSource
  cases body?_unclosedSource.symm.trans htokens
  have hat := hquotes _ _ _ unclosedFront unclosedRest itemsAll_unclosedTokens
    toList_unclosedSource rfl
  obtain ⟨y, after, back, hy, hrest, -, hback⟩ := hat.2 unclosed_unclosedRest
  exact ⟨⟨_, parse_unclosedSource⟩, unclosed_unclosedRest, y, after, back, hy, hrest, by
    rw [itemsAll_unclosedTokens, hback]⟩

/-- A text block without an end is no error: the token at its quotes is an empty string. -/
theorem not_refused_unclosedSource :
    unclosedSource.toList = unclosedFront ++ (blockMark ++ unclosedRest) ∧ Unclosed unclosedRest ∧
      parse .java unclosedSource "A.java" = .ok ⟨none, [], [], []⟩ ∧
      ∃ tokens, body? .java (.start unclosedSource.toList) unclosedSource.toList = some tokens ∧
        Item.leaf (literalAt ((Place.start unclosedSource.toList).after unclosedFront)
        (inQuotes [])) ∈ Token.itemsAll tokens := by
  refine ⟨toList_unclosedSource, unclosed_unclosedRest, parse_unclosedSource, unclosedTokens,
    body?_unclosedSource, ?_⟩
  rw [itemsAll_unclosedTokens]
  exact mem_append_right _ mem_cons_self

end Java

end WitnessReplay.Source
