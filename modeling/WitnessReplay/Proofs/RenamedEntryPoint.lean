import WitnessReplay.Proofs.RenamedText
import WitnessReplay.Proofs.SharedLines

/-!
# A renamed program is read again

The text of a file whose entry point is renamed has the same header, the same calls and the
same functions but for the entry point. This needs two conditions. Where the name is between
backticks, no name and no backtick may stand right in front of them, for the new name has no
backticks and would be one with it. And where the parameter list is replaced, a comment or a
template in front of it must not go on in it: the list is on one line and without comments, or
the text in front of it is read in one way, whatever follows.
-/

namespace WitnessReplay.Benchmark

open Text Source List

/-! ### The text at a span -/

def textBefore (source : String) (span : Span) : List Char :=
  (splitAtByte span.start source.toList).1

def textAt (source : String) (span : Span) : List Char :=
  (splitAtByte span.start (splitAtByte span.stop source.toList).1).2

section Spans

variable {source : String} {a b c : List Char}

theorem textBefore_of_eq (h : source.toList = a ++ (b ++ c)) :
    textBefore source (.behind a b) = a := by
  rw [textBefore, h, Span.behind, splitAtByte_append]

theorem textAt_of_eq (h : source.toList = a ++ (b ++ c)) : textAt source (.behind a b) = b := by
  rw [textAt, h, Span.behind, ← byteLength_append, ← append_assoc, splitAtByte_append,
    splitAtByte_append]

theorem replaceSpan_behind (a b c : List Char) (replacement : String) :
    replaceSpan (a ++ (b ++ c)) (.behind a b) replacement = a ++ (replacement.toList ++ c) := by
  rw [Span.behind, ← byteLength_append, ← append_assoc, replaceSpan_append, append_assoc]

end Spans

/-! ### What is read in front of a replaced part -/

/-- The header `H` and the text `a` behind it are read to `found` and to `items`, in front of
`rest`. -/
structure Opens (H a rest : List Char) (found : Option String × List Import) (items : List Item) :
    Prop where
  header : Kotlin.header (.start (H ++ (a ++ rest))) (H ++ (a ++ rest)) = some (found, H.length)
  reads : Lexicon.kotlin.Reads (.between H (a ++ rest)) a rest items

/-- A text that is read in one way in front of a parenthesis, whatever is behind the parenthesis. -/
def Settled (front : List Char) : Prop :=
  ∃ H a found items, front = H ++ a ∧ ∀ rest, Opens H a ('(' :: rest) found items

section Opens

variable {H a w w' y rest : List Char} {found : Option String × List Import}
    {items back : List Item}

theorem Opens.of_interchangeable {ts : List Token} (h : Opens H a (w ++ y) found items)
    (hborder : Interchangeable a w w')
    (hback : ReadsAs (w ++ y) [] back) (hts : Token.itemsAll ts = items ++ back)
    (hfun : ∃ span line, .leaf (.word "fun" span line) ∈ items) :
    Opens H a (w' ++ y) found items := by
  obtain ⟨us, moved, hus, hmoved, -⟩ :=
    hback.exists_forest hts ((Place.between H (a ++ (w ++ y))).after a)
  have hprecedes : Precedes w w' y (.between H (a ++ (w ++ y))) a :=
    ⟨hborder, items, moved, us, h.reads, hmoved, hus, hfun⟩
  -- both parts are read first with the lines of the old text, and these are the same up to the
  -- replaced part
  constructor
  · have hheader : Kotlin.header (.start (H ++ (a ++ (w ++ y)))) (H ++ a ++ (w ++ y)) =
        some (found, H.length) := by
      rw [append_assoc]
      exact h.header
    have hsame := sure_header.some_eq hheader (by simp) (by rwa [take_left, drop_left])
    have hlines := SameLines.between [] H (a ++ (w ++ y)) (a ++ (w' ++ y))
    rw [Place.between_nil, Place.between_nil] at hlines
    rw [append_assoc] at hsame
    refine dependsOn_header.value hsame ?_
    rwa [take_left]
  · have hsame : Lexicon.kotlin.Reads (.between H (a ++ (w ++ y))) a ([] ++ (w' ++ y)) items :=
      Lexicon.Reads.of_interchangeable (by rwa [append_nil]) h.reads
    exact hsame.of_sameLines (.between H a _ _)

theorem Opens.of_settled (h : Opens H a ('(' :: y) found items) (hsettled : Settled (H ++ a))
    (rest : List Char) :
    Opens H a ('(' :: rest) found items := by
  obtain ⟨H', a', found', items', hsplit, hall⟩ := hsettled
  have hsame := h.header
  rw [← append_assoc, hsplit, append_assoc, (hall y).header] at hsame
  obtain ⟨rfl, hlength⟩ := Prod.mk.inj (Option.some.inj hsame)
  obtain ⟨rfl, rfl⟩ := append_inj hsplit hlength.symm
  have hleft : (lexicon .kotlin).Reads (.between H (a ++ '(' :: y)) a ('(' :: y) items := h.reads
  have hright : (lexicon .kotlin).Reads (.between H (a ++ '(' :: y)) a ('(' :: y) items' :=
    (hall y).reads
  obtain rfl := reads_unique hleft hright
  exact hall rest

end Opens

/-! ### The two replacements -/

/-- The name at a span is between backticks, right behind a character of a name or a backtick. -/
def isGlued (source : String) (span : Span) : Bool :=
  (textAt source span).head? == some '\x60' &&
    (textBefore source span).getLast?.any fun c => isIdentifierContinue c || c == '\x60'

/-- The parameter list at a span is on one line, and there is no comment in it. -/
def isPlainList (source : String) (span : Span) : Bool :=
  (textAt source span).all fun c => c != '\n' && c != '/'

/-- A file whose header is `H`, and in which the parameter list of an entry point, with
`inside` between its parentheses, stands between the texts `b` and `y`. -/
structure MainText (H b inside y : List Char) (found : Option String × List Import)
    (m : Kotlin.MainTokens) (front back : List Item) :
    Prop where
  opens : Opens H b ('(' :: (inside ++ [')']) ++ y) found
    (front ++ [.leaf (.word "main" m.span m.line)])
  listSpan : m.listSpan = .behind (H ++ b) ('(' :: (inside ++ [')']))
  children : ∃ p, Lexicon.kotlin.Reads p inside (Delimiter.paren.closing :: y)
    (Token.itemsAll m.children)
  rest : ReadsAs y [] back

section Replacements

variable {source : String} {H b inside y z rest : List Char} {found : Option String × List Import}
    {front back : List Item}
  {m : Kotlin.MainTokens} {ts : List Token}

theorem itemsAll_tokens (m : Kotlin.MainTokens) : Token.itemsAll m.tokens =
    .leaf (.word "main" m.span m.line) ::
    (Token.group .paren m.children m.listSpan m.listLine).items := by
  simp [Kotlin.MainTokens.tokens, Token.itemsAll, Token.items]

theorem itemsAll_renamedTokens (m : Kotlin.MainTokens) : Token.itemsAll m.renamedTokens =
    .leaf (.word renamedMain m.span m.line) ::
      (Token.group .paren (Kotlin.renamedParams m.children) m.listSpan m.listLine).items := by
  simp [Kotlin.MainTokens.renamedTokens, Token.itemsAll, Token.items]

theorem exists_mainText {s : List Char}
    (hheader : Kotlin.header (.start (H ++ s)) (H ++ s) = some (found, H.length))
    (h : Lexicon.kotlin.Reads (.between H s) s [] (front ++ (Token.itemsAll m.tokens ++ back))) :
    ∃ b inside y, s = b ++ ('(' :: (inside ++ [')']) ++ y) ∧
      MainText H b inside y found m front back := by
  have hitems : front ++ (Token.itemsAll m.tokens ++ back) =
      front ++ [.leaf (.word "main" m.span m.line)] ++
        .opening .paren m.listSpan.start m.listLine ::
        (Token.itemsAll m.children ++ .closing .paren m.listSpan.stop :: back) := by
    simp [itemsAll_tokens, Token.items]
  rw [hitems] at h
  obtain ⟨b, text, behind, rfl, hb, hopening, hbehind⟩ := h.exists_at_item
  obtain ⟨rfl, hstart, -⟩ := hopening.eq_of_opening
  obtain ⟨inside, text, y, rfl, hinside, hclosing, hy⟩ := hbehind.exists_at_item
  obtain ⟨rfl, hstop⟩ := hclosing.eq_of_closing
  have hsplit : [Delimiter.paren.opening] ++ (inside ++ ([Delimiter.paren.closing] ++ y)) =
      '(' :: (inside ++ [')']) ++ y := by
    simp [Delimiter.opening, Delimiter.closing]
  have hspan : m.listSpan =
      .behind (H ++ b) ([Delimiter.paren.opening] ++ (inside ++ [Delimiter.paren.closing])) := by
    show Span.mk m.listSpan.start m.listSpan.stop = _
    rw [hstart, hstop]
    simp [Span.behind, Place.after, Place.offset_between, Nat.add_assoc]
  rw [append_nil, hsplit] at hb
  rw [append_nil] at hinside
  rw [hsplit] at hheader ⊢
  exact ⟨b, inside, y, rfl, ⟨hheader, hb⟩, hspan, ⟨_, hinside⟩, .of_reads hy⟩

/-- The parameter list can be replaced by the new one, if there are no parameters. -/
theorem MainText.exists_params (h : MainText H b inside y found m front back)
    (hfun : ∃ span line, .leaf (.word "fun" span line) ∈ front)
    (hts : Token.itemsAll ts = front ++ (Token.itemsAll m.tokens ++ back))
    (hlist : countParams m.children = 0 → ('\n' ∉ inside ∧ '/' ∉ inside) ∨ Settled (H ++ b)) :
    ∃ params, '(' :: params = (if countParams m.children = 0 then mainParameters.toList else
    '(' :: (inside ++ [')'])) ∧
      Opens H b ('(' :: params ++ y) found (front ++ [.leaf (.word "main" m.span m.line)]) ∧
      ReadsAs ('(' :: params) y
      (Token.group .paren (Kotlin.renamedParams m.children) m.listSpan m.listLine).items := by
  obtain ⟨p, hchildren⟩ := h.children
  have hgroup : ReadsAs ('(' :: (inside ++ [')'])) y
      (Token.group .paren m.children m.listSpan m.listLine).items :=
    ReadsAs.group (.of_reads hchildren) _ _
  by_cases hcount : countParams m.children = 0
  · rw [Kotlin.renamedParams, if_pos hcount, if_pos hcount]
    refine ⟨"args: Array<String>)".toList, rfl, ?_, readsAs_mainParameters y _ _⟩
    obtain ⟨hline, hslash⟩ | hsettled := hlist hcount
    · have hcommas := forall_comma_or_blank (Kotlin.forall_comma_of_countParams hcount) hchildren
        hslash
      have hitems : Token.itemsAll ts = front ++ [.leaf (.word "main" m.span m.line)] ++
          ((Token.group .paren m.children m.listSpan m.listLine).items ++ back) := by
        rw [hts, itemsAll_tokens]
        simp
      obtain ⟨span, line, hmem⟩ := hfun
      exact h.opens.of_interchangeable (interchangeable_params hcommas hline b)
        (.append (by simpa using hgroup) h.rest) hitems
        ⟨span, line, mem_append_left _ hmem⟩
    · exact h.opens.of_settled hsettled _
  · rw [Kotlin.renamedParams, if_neg hcount, if_neg hcount]
    exact ⟨inside ++ [')'], rfl, h.opens, hgroup⟩

/-- Behind blanks and comments, or a parenthesis, a name does not go on. -/
theorem isIdentifierContinue_of_skips {gap : List Char} (h : Lexicon.kotlin.Skips gap ('(' :: z)) :
    ∀ c ∈ (gap ++ '(' :: z).head?, isIdentifierContinue c = false := by
  cases h with
  | nil =>
    rintro c ⟨⟩
    decide
  | blank hc =>
    rintro _ ⟨⟩
    exact isIdentifierContinue_of_isBlank _ hc
  | comment hx =>
    intro c hc
    obtain rfl : '/' = c := by cases hx <;> exact Option.some.inj hc
    decide

theorem Opens.exists_name {span : Span} {line : Nat} (hsource : source.toList = H ++ (b ++ rest))
    (hglued : isGlued source span = false)
    (h : Opens H b ('(' :: z) found (front ++ [.leaf (.word "main" span line)]))
    (hback : ReadsAs ('(' :: z) [] back)
    (hts : Token.itemsAll ts = front ++ .leaf (.word "main" span line) :: back)
    (hfun : ∃ span line, .leaf (.word "fun" span line) ∈ front) :
    ∃ a name gap, b = a ++ (name ++ gap) ∧ span = .behind (H ++ a) name ∧
      Opens H a (renamedMain.toList ++ (gap ++ '(' :: z)) found front ∧
      ReadsAs (renamedMain.toList ++ gap) ('(' :: z) [.leaf (.word renamedMain span line)] := by
  obtain ⟨a, name, gap, rfl, ha, hname, hgap⟩ := h.reads.exists_at_item
  obtain ⟨-, -, hspan⟩ := word_of_starts hname
  rw [append_assoc, Place.after_between, Place.spanOf_between] at hspan
  have hborder : Interchangeable a name renamedMain.toList := by
    refine interchangeable_name (eq_of_starts_main hname) fun hquote c hc => ?_
    have hne : a ≠ [] := by
      obtain ⟨span, line, hmem⟩ := hfun
      have hreads : (lexicon .kotlin).Reads _ a _ front := ha
      exact ne_nil_of_reads hreads hmem
    have hsplit : source.toList = H ++ a ++ (name ++ (gap ++ rest)) := by simpa using hsource
    rw [isGlued, hspan, textAt_of_eq hsplit, textBefore_of_eq hsplit, hquote,
      getLast?_append_of_ne_nil _ hne, hc] at hglued
    simpa using hglued
  have hopens : Opens H a (name ++ (gap ++ '(' :: z)) found front :=
    ⟨by simpa using h.header, by simpa using ha⟩
  have hword : ReadsAs (name ++ (gap ++ '(' :: z)) [] (.leaf (.word "main" span line) :: back) := by
    rw [Place.after_append] at hgap
    have hfirst : ReadsAs (name ++ gap) ('(' :: z) [.leaf (.word "main" span line)] :=
      .of_reads (.item hname hgap)
    rw [← append_assoc]
    exact .append (by simpa using hfirst) hback
  refine ⟨a, name, gap, rfl, hspan, ?_, ?_⟩
  · exact hopens.of_interchangeable hborder hword hts hfun
  · have hplain : PlainName renamedMain :=
      ⟨'p', "olywit_main".toList, rfl, by decide, all_eq_true.1 (by decide)⟩
    exact .name hplain (isIdentifierContinue_of_skips hgap.skips) span line (.of_reads hgap)

theorem MainText.plain_or_settled (h : MainText H b inside y found m front back)
    (hsource : source.toList = H ++ b ++ ('(' :: (inside ++ [')']) ++ y))
    (hlist : isPlainList source m.listSpan = true ∨ Settled (textBefore source m.listSpan)) :
    ('\n' ∉ inside ∧ '/' ∉ inside) ∨ Settled (H ++ b) := by
  rw [h.listSpan, isPlainList, textAt_of_eq hsource, textBefore_of_eq hsource] at hlist
  refine hlist.imp_left fun hplain => ?_
  have hall (c : Char) (hc : c ∈ inside) : c ≠ '\n' ∧ c ≠ '/' := by
    simpa using all_eq_true.1 hplain c (by simp [hc])
  exact ⟨fun hmem => (hall _ hmem).1 rfl, fun hmem => (hall _ hmem).2 rfl⟩

theorem MainText.toList_renameMain {a name gap params : List Char}
    (h : MainText H (a ++ (name ++ gap)) inside y found m front back)
    (hsource : source.toList = H ++ (a ++ (name ++ gap)) ++ ('(' :: (inside ++ [')']) ++ y))
    (hspan : m.span = .behind (H ++ a) name)
    (hparams : params = if countParams m.children = 0 then mainParameters.toList else
    '(' :: (inside ++ [')'])) (post : List Token) :
    (renameMain source (m.function post)).toList =
      H ++ (a ++ (renamedMain.toList ++ (gap ++ (params ++ y)))) := by
  have hfirst : (if countParams m.children = 0 then
      replaceSpan source.toList m.listSpan mainParameters else source.toList) =
        H ++ (a ++ (name ++ gap)) ++ (params ++ y) := by
    rw [hparams]
    split
    · rw [hsource, h.listSpan, replaceSpan_behind]
    · exact hsource
  have hsplit : H ++ (a ++ (name ++ gap)) ++ (params ++ y) =
      H ++ a ++ (name ++ (gap ++ (params ++ y))) := by simp
  have hsecond : (renameMain source (m.function post)).toList =
      replaceSpan (H ++ a ++ (name ++ (gap ++ (params ++ y)))) m.span renamedMain := by
    rw [renameMain, String.toList_ofList, ← hsplit, ← hfirst]
    rfl
  rw [hsecond, hspan, replaceSpan_behind, append_assoc]

/-- In the renamed program, what is in front of the name is read as before, and the rest to the
renamed tokens. -/
theorem MainText.exists_opens (h : MainText H b inside y found m front back)
    (hsource : source.toList = H ++ b ++ ('(' :: (inside ++ [')']) ++ y))
    (hglued : isGlued source m.span = false)
    (hlist : countParams m.children = 0 → isPlainList source m.listSpan = true ∨
    Settled (textBefore source m.listSpan))
    (hforest : ∀ xs, ∃ vs, Token.itemsAll vs = front ++ (Token.itemsAll xs ++ back))
    (hfun : ∃ span line, .leaf (.word "fun" span line) ∈ front) (post : List Token) :
    ∃ a z, (renameMain source (m.function post)).toList = H ++ (a ++ z) ∧ Opens H a z found front ∧
      ReadsAs z [] (Token.itemsAll m.renamedTokens ++ back) := by
  obtain ⟨ts, hts⟩ := hforest m.tokens
  obtain ⟨params, hparams, hopens, hgroup⟩ :=
    h.exists_params hfun hts fun hcount => h.plain_or_settled hsource (hlist hcount)
  have hback := ReadsAs.append (by simpa using hgroup) h.rest
  -- the tokens between the two replacements: the old name, and the new list
  obtain ⟨us, hus⟩ := hforest [.word "main" m.span m.line,
    .group .paren (Kotlin.renamedParams m.children) m.listSpan m.listLine]
  have hitems : Token.itemsAll us = front ++ .leaf (.word "main" m.span m.line) ::
      ((Token.group .paren (Kotlin.renamedParams m.children) m.listSpan m.listLine).items ++
        back) := by
    rw [hus]
    simp [Token.itemsAll, Token.items]
  obtain ⟨a, name, gap, rfl, hspan, hname, hword⟩ :=
    hopens.exists_name (by simpa using hsource) hglued hback hitems hfun
  have hword : ReadsAs (renamedMain.toList ++ gap) ('(' :: params ++ y ++ [])
      [.leaf (.word renamedMain m.span m.line)] := by
    rwa [append_nil]
  have hwhole := hword.append hback
  rw [append_assoc] at hwhole
  refine ⟨a, _, h.toList_renameMain hsource hspan hparams post, hname, ?_⟩
  rw [itemsAll_renamedTokens]
  exact hwhole

/-- A text behind its header is read to the outline of any forest with the same items, but for
the places. -/
theorem Opens.exists_parse {a z : List Char} {items : List Item} {text : String}
    (h : Opens H a z found front) (htext : text.toList = H ++ (a ++ z)) (hz : ReadsAs z [] items)
    (hts : Token.itemsAll ts = front ++ items) (file : String) :
    ∃ outline, parse .kotlin text file = .ok outline ∧ (outline.package, outline.imports) = found ∧
      outline.calls.map Call.unplaced = (Kotlin.findings 0 ts).calls.map Call.unplaced ∧
      outline.functions.map Function.unplaced =
        (Kotlin.findings 0 ts).functions.map Function.unplaced := by
  obtain ⟨us, moved, hus, hmoved, hsame⟩ :=
    hz.exists_forest hts ((Place.between H (a ++ z)).after a)
  have hbody : Lexicon.kotlin.Reads (.between H (a ++ z)) (a ++ z) [] (Token.itemsAll us) := by
    rw [hus]
    exact .append (by simpa using h.reads) hmoved
  have hfindings : (Kotlin.findings 0 us).unplaced = (Kotlin.findings 0 ts).unplaced := by
    rw [← Kotlin.findings_unplaced, hsame, Kotlin.findings_unplaced]
  refine ⟨⟨found.1, found.2, (Kotlin.findings 0 us).calls, (Kotlin.findings 0 us).functions⟩, ?_,
    rfl,
    congrArg Findings.calls hfindings, congrArg Findings.functions hfindings⟩
  refine parse_eq_ok_iff.2 ⟨H.length, us, ?_, ?_, rfl, rfl⟩
  · rw [htext]
    exact h.header
  · rw [htext, take_left, drop_left]
    exact body?_eq_some_iff.2 hbody

end Replacements

theorem filter_isMain_of_unplaced {fs gs : List Function}
    (h : fs.map Function.unplaced = gs.map Function.unplaced)
    (hgs : gs.filter Kotlin.isMain = []) : fs.filter Kotlin.isMain = [] := by
  have hcount (l : List Function) :
      (l.map Function.unplaced).countP Kotlin.isMain = l.countP Kotlin.isMain :=
    countP_map
  rw [← length_eq_zero_iff, ← countP_eq_length_filter] at hgs ⊢
  rw [← hcount, h, hcount, hgs]

/-- **The renamed program.** If a file is read and has one top-level `main`, whose name is not
glued to what is in front of it, and whose parameter list, where it is replaced, is plain or
has a settled text in front of it, then the file with `main` renamed is read too, to the same
package, imports and calls, and to the same functions, but for `main`, which has the new name
and at least one parameter. So there is no top-level `main` any more. -/
theorem exists_parse_renameMain {source file : String} {outline : Outline} {main : Function}
    (hparse : parse .kotlin source file = .ok outline) (hmain : mains outline = [main])
    (hglued : isGlued source main.nameSpan = false)
    (hlist : main.paramCount = 0 → isPlainList source main.paramsSpan = true ∨
    Settled (textBefore source main.paramsSpan)) :
    ∃ after, parse .kotlin (renameMain source main) file = .ok after ∧
      after.package = outline.package ∧
        after.imports = outline.imports ∧
        after.calls.map Call.unplaced = outline.calls.map Call.unplaced ∧
        after.functions.map Function.unplaced =
          outline.functions.map (fun f =>
        (if Kotlin.isMain f then Kotlin.renamed f else f).unplaced) ∧
      mains after = [] := by
  obtain ⟨n, ts, hheader, hbody, hcalls, hfunctions⟩ := parse_eq_ok_iff.1 hparse
  have hfilter : (Kotlin.findings 0 ts).functions.filter Kotlin.isMain = [main] := by
    rw [← hmain, mains, hfunctions]
    rfl
  obtain ⟨hmem, hismain⟩ := mem_filter.1 (hfilter ▸ mem_singleton.2 rfl : main ∈ _)
  obtain ⟨us, hus⟩ := Kotlin.exists_renaming hmem hismain
  obtain ⟨front, back, m, post, rfl, hts, hrenamed, hother, hfun⟩ := hus.exists_items
  have hreads := body?_eq_some_iff.1 hbody
  rw [hts] at hreads
  have hn : n = (source.toList.take n).length := by
    obtain ⟨span, line, hmem⟩ := hfun
    have hne := ne_nil_of_reads hreads (mem_append_left _ hmem)
    exact (length_take_of_le (Nat.le_of_not_le fun hle => hne (drop_eq_nil_of_le hle))).symm
  have hsource := (take_append_drop n source.toList).symm
  generalize source.toList.take n = H at hn hsource hreads
  generalize source.toList.drop n = s at hsource hreads
  rw [hsource, hn] at hheader
  rw [hsource] at hreads
  obtain ⟨b, inside, y, rfl, htext⟩ := exists_mainText hheader hreads
  rw [← append_assoc] at hsource
  obtain ⟨a, z, hnew, hopens, hz⟩ := htext.exists_opens hsource hglued hlist hother hfun post
  obtain ⟨after, hafter, hfound, hcalls', hfunctions'⟩ := hopens.exists_parse hnew hz hrenamed file
  obtain ⟨hsame, hsome⟩ := hus.findings_eq
  have hone : (Kotlin.findings 0 ts).functions.countP Kotlin.isMain = 1 := by
    rw [countP_eq_length_filter, hfilter]
    rfl
  obtain ⟨hmap, hnone⟩ := hsome.eq_map hone
  obtain ⟨hpackage, himports⟩ := Prod.mk.inj hfound
  refine ⟨after, hafter, hpackage, himports, ?_, ?_, filter_isMain_of_unplaced hfunctions' hnone⟩
  · rw [hcalls', hsame, hcalls]
    rfl
  · rw [hfunctions', hmap, hfunctions, map_map]
    rfl

/-- A program whose entry point has a name between backticks and a list of two lines. -/
def quotedSource : String := "fun \x60main\x60(\n) \x7b f() \x7d\n"

def quotedTokens : List Token :=
  [.word "fun" ⟨0, 3⟩ 1, .word "main" ⟨4, 10⟩ 1, .group .paren [] ⟨10, 13⟩ 1,
   .group .brace [.word "f" ⟨16, 17⟩ 2, .group .paren [] ⟨17, 19⟩ 2] ⟨14, 21⟩ 2]

def quotedOutline : Outline where
  calls := [⟨"f", none, 2, ⟨16, 17⟩⟩]
  functions := [⟨"main", 0, 1, ⟨4, 10⟩, ⟨10, 13⟩, 0, none⟩]

theorem parse_quotedSource (file : String) :
    parse .kotlin quotedSource file = .ok quotedOutline := by
  have hdeclared : Kotlin.declared? 0 (quotedTokens.drop 1) =
      some (1, ⟨"main", 0, 1, ⟨4, 10⟩, ⟨10, 13⟩, 0, none⟩) := by decide
  have hfound : findings .kotlin quotedTokens = ⟨quotedOutline.calls, quotedOutline.functions⟩ := by
    rw [quotedTokens, drop_one, tail_cons] at hdeclared
    simp [quotedTokens, findings, Kotlin.findings, Kotlin.declarations, hdeclared, Kotlin.nested,
      Kotlin.callAt?, Kotlin.keywords, Kotlin.declarators, Token.word?, Token.isGroup,
      Token.children?, Token.isWord, Token.isWordIn]
    rfl
  exact parse_of_findings (by with_unfolding_all rfl) hfound file

/-- In front of the list of `quotedSource` there is no comment and no string. -/
theorem settled_quotedSource : Settled "fun \x60main\x60".toList := by
  have hfun : PlainName "fun" := ⟨'f', ['u', 'n'], rfl, by decide, all_eq_true.1 (by decide)⟩
  refine ⟨[], "fun".toList ++ (' ' :: ("\x60main\x60".toList ++ [])), (none, []),
    [.leaf (.word "fun" ⟨0, 3⟩ 1), .leaf (.word "main" ⟨4, 10⟩ 1)], rfl, fun rest => ?_⟩
  have hfirst : (Place.between [] ("fun \x60main\x60".toList ++ '(' :: rest)).line = 1 :=
    Place.line_between _ _
  have hsecond : (Place.between "fun ".toList ("\x60main\x60".toList ++ '(' :: rest)).line = 1 :=
    Place.line_between _ _
  have hword : Lexicon.kotlin.Starts (.between [] ("fun \x60main\x60".toList ++ '(' :: rest))
      (.leaf (.word "fun" ⟨0, 3⟩ 1)) "fun".toList (" \x60main\x60".toList ++ '(' :: rest) := by
    have hstarts := starts_plainName hfun (.between [] ("fun \x60main\x60".toList ++ '(' :: rest))
      (r := " \x60main\x60".toList ++ '(' :: rest) fun c hc => by cases hc; decide
    rwa [hfirst] at hstarts
  have hname : Lexicon.kotlin.Starts (.between "fun ".toList ("\x60main\x60".toList ++ '(' :: rest))
      (.leaf (.word "main" ⟨4, 10⟩ 1)) "\x60main\x60".toList ('(' :: rest) := by
    have hquoted : Lexicon.kotlin.word ("\x60main\x60".toList ++ '(' :: rest) =
        some "\x60main\x60".toList.length := by
      with_unfolding_all rfl
    have hbare : Lexicon.bareName "\x60main\x60".toList = "main" := by decide
    have hstarts := starts_name hquoted
      (.between "fun ".toList ("\x60main\x60".toList ++ '(' :: rest))
    rwa [hbare, hsecond] at hstarts
  have hheader : NoHeader (lexicon .kotlin) ('f' :: ("un \x60main\x60".toList ++ '(' :: rest)) :=
    noHeader_of_head hword.blanks_eq (by decide)
  exact ⟨Kotlin.header_of_noHeader hword.blanks_eq hheader _,
    .item hword (.blank (by decide) (.item hname .nil))⟩

/-- The new name has no backticks, and the list is on one line. -/
theorem exists_parse_renameMain_quoted :
    parse .kotlin quotedSource "Main.kt" = .ok quotedOutline ∧
    ∃ main, mains quotedOutline = [main] ∧
      isGlued quotedSource main.nameSpan = false ∧
      isPlainList quotedSource main.paramsSpan = false ∧
      Settled (textBefore quotedSource main.paramsSpan) ∧
      renameMain quotedSource main = "fun polywit_main(args: Array<String>) \x7b f() \x7d\n" ∧
      ∃ after, parse .kotlin (renameMain quotedSource main) "Main.kt" = .ok after ∧
        after.package = none ∧ after.imports = [] ∧
          after.calls.map Call.unplaced = [⟨"f", none, 0, default⟩] ∧
          after.functions.map Function.unplaced =
            [⟨"polywit_main", 1, 0, default, default, 0, none⟩] ∧ mains after = [] := by
  have hparse := parse_quotedSource "Main.kt"
  refine ⟨hparse, _, rfl, by decide, by decide, settled_quotedSource, by decide, ?_⟩
  exact exists_parse_renameMain hparse rfl (by decide) fun _ => .inr settled_quotedSource

def gluedSource : String := "fun\x60main\x60() \x7b\x7d\n"

def gluedTokens : List Token :=
  [.word "fun" ⟨0, 3⟩ 1, .word "main" ⟨3, 9⟩ 1, .group .paren [] ⟨9, 11⟩ 1,
    .group .brace [] ⟨12, 14⟩ 1]

def gluedMain : Function := ⟨"main", 0, 1, ⟨3, 9⟩, ⟨9, 11⟩, 0, none⟩

theorem parse_gluedSource (file : String) : parse .kotlin gluedSource file = .ok
    { functions := [gluedMain] } := by
  have hdeclared : Kotlin.declared? 0 (gluedTokens.drop 1) = some (1, gluedMain) := by decide
  have hfound : findings .kotlin gluedTokens = ⟨[], [gluedMain]⟩ := by
    rw [gluedTokens, drop_one, tail_cons] at hdeclared
    simp [gluedTokens, findings, Kotlin.findings, Kotlin.declarations, hdeclared, Kotlin.nested,
      Kotlin.callAt?, Kotlin.keywords, Kotlin.declarators, Token.word?, Token.isGroup,
      Token.children?, Token.isWord, Token.isWordIn]
    rfl
  exact parse_of_findings (by with_unfolding_all rfl) hfound file

def joinedSource : String := "funpolywit_main(args: Array<String>) \x7b\x7d\n"

def joinedTokens : List Token :=
  [.word "funpolywit_main" ⟨0, 15⟩ 1,
   .group .paren
    [.word "args" ⟨16, 20⟩ 1, .symbol ':' ⟨20, 21⟩ 1, .word "Array" ⟨22, 27⟩ 1,
    .symbol '<' ⟨27, 28⟩ 1,
     .word "String" ⟨28, 34⟩ 1, .symbol '>' ⟨34, 35⟩ 1] ⟨15, 36⟩ 1,
   .group .brace [] ⟨37, 39⟩ 1]

theorem parse_joinedSource (file : String) :
    parse .kotlin joinedSource file = .ok { calls := [⟨"funpolywit_main", none, 1, ⟨0, 15⟩⟩] } := by
  have hfound : findings .kotlin joinedTokens = ⟨[⟨"funpolywit_main", none, 1, ⟨0, 15⟩⟩], []⟩ := by
    simp [joinedTokens, findings, Kotlin.findings, Kotlin.declarations, Kotlin.nested,
      Kotlin.callAt?, Kotlin.keywords, Kotlin.declarators, Token.word?, Token.isGroup,
      Token.children?, Token.isWord, Token.isWordIn]
    rfl
  exact parse_of_findings (by with_unfolding_all rfl) hfound file

/-- Without its backticks, the name is one word with the `fun` in front of it: the renamed
program has no function, and a call. -/
theorem renameMain_gluedSource :
    parse .kotlin gluedSource "Main.kt" = .ok { functions := [gluedMain] } ∧
      mains { functions := [gluedMain] } = [gluedMain] ∧
      isGlued gluedSource gluedMain.nameSpan = true ∧
      parse .kotlin (renameMain gluedSource gluedMain) "Main.kt" =
        .ok { calls := [⟨"funpolywit_main", none, 1, ⟨0, 15⟩⟩] } := by
  have htext : renameMain gluedSource gluedMain = joinedSource := by decide
  refine ⟨parse_gluedSource "Main.kt", rfl, by decide, ?_⟩
  rw [htext]
  exact parse_joinedSource "Main.kt"

end WitnessReplay.Benchmark
