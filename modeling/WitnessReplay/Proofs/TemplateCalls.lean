import WitnessReplay.Proofs.NestedLiterals
import WitnessReplay.Proofs.SourceOrder
import WitnessReplay.Proofs.UnchangedHeader

/-!
# Calls in templates

A string with its templates is one token, and nothing is looked for in a token. So the calls of
an expression are found if it is the argument of a call, and none of them is found if it is
evaluated in a template of a string that is the argument.
-/

namespace WitnessReplay.Source

open Text Kotlin List

/-! ### The two sources -/

/-- The braces of a text belong together in pairs. -/
inductive BracesMatch : List Char → Prop where
  | nil : BracesMatch []
  | char {c : Char} {x : List Char} (hopen : c ≠ '{') (hclose : c ≠ '}') (h : BracesMatch x) :
      BracesMatch (c :: x)
  | block {y x : List Char} (hy : BracesMatch y) (h : BracesMatch x) :
      BracesMatch ('{' :: (y ++ '}' :: x))

theorem BracesMatch.templateText {x : List Char} (h : BracesMatch x) (hquote : '"' ∉ x)
    (hapostrophe : '\'' ∉ x) : TemplateText x := by
  induction h with
  | nil => exact .nil
  | char hopen hclose _ ih =>
    rw [mem_cons, not_or] at hquote hapostrophe
    exact .char hopen hclose (Ne.symm hquote.1) (Ne.symm hapostrophe.1) (ih hquote.2 hapostrophe.2)
  | block _ _ ihInside ih =>
    simp only [mem_cons, mem_append, not_or] at hquote hapostrophe
    exact .block (ihInside hquote.2.1 hapostrophe.2.1) (ih hquote.2.2.2 hapostrophe.2.2.2)

def callFront : List Char :=
  ['f', 'u', 'n', ' ', 'f', '(', ')', ' ', '{', ' ', 'g', '(']

def callBack : List Char :=
  [')', ' ', '}']

def argumentSource (expression : List Char) : String :=
  String.ofList (callFront ++ (expression ++ callBack))

def templateString (expression : List Char) : List Char :=
  inQuotes ('$' :: '{' :: (expression ++ ['}']))

def templateSource (expression : List Char) : String :=
  argumentSource (templateString expression)

def outerCall : Call :=
  ⟨"g", none, 1, ⟨10, 11⟩⟩

def Call.label (c : Call) : String × Option String :=
  (c.name, c.qualifier)

/-! ### Scans that come to an end -/

/-- What a scan with open groups and with tokens in the innermost one ends in: every open group
is closed, and nothing that has been read is lost. -/
def Completes : List OpenGroup → List Token → List Token → Prop
  | [], tokens, all => ∃ more, all = tokens ++ more
  | g :: outer, tokens, all =>
    ∃ inside stop, Completes outer
      (g.before ++ [.group g.delimiter (tokens ++ inside) ⟨g.place.offset, stop⟩ g.place.line]) all

theorem Completes.of_append {opened : List OpenGroup} {tokens more all : List Token}
    (h : Completes opened (tokens ++ more) all) :
    Completes opened tokens all := by
  cases opened with
  | nil =>
    obtain ⟨rest, rfl⟩ := h
    exact ⟨more ++ rest, by simp⟩
  | cons g outer =>
    obtain ⟨inside, stop, h⟩ := h
    exact ⟨more ++ inside, stop, by simpa using h⟩

theorem Scan.completes_of_step {L : Lexicon} {x y : Scan} {all : List Token}
    (hstep : x.step L = some y)
    (h : Completes y.opened y.tokens all) : Completes x.opened x.tokens all := by
  unfold step at hstep
  split at hstep
  · cases hstep
  · split at hstep
    · cases hstep
      exact h
    · split at hstep
      · cases hstep
        exact h
      · cases hstep
        obtain ⟨inside, stop, h⟩ := h
        exact h.of_append
      · unfold exit? at hstep
        split at hstep
        · cases hstep
        next g outer hopened =>
          split at hstep
          next hd =>
            cases hstep
            subst hd
            rw [hopened]
            exact ⟨[], _, by simpa using h⟩
          · cases hstep
      · obtain ⟨⟨t, n⟩, -, rfl⟩ := Option.map_eq_some_iff.1 hstep
        exact h.of_append

theorem completes_of_scan {language : Language} {x : Scan} {all : List Token}
    (h : scan language x = some all) :
    Completes x.opened x.tokens all := by
  fun_induction scan language x with
  | case1 x y hstep ih => exact Scan.completes_of_step hstep (ih h)
  | case2 x hstep hend =>
    cases h
    rw [Bool.and_eq_true, List.isEmpty_iff, List.isEmpty_iff] at hend
    rw [hend.2]
    exact ⟨[], by simp⟩
  | case3 => cases h

def callPlace (argument : List Char) (offset : Nat) : Place :=
  ⟨.ofText (callFront ++ (argument ++ callBack)), offset⟩

theorem line_callPlace (argument : List Char) {offset : Nat} (h : offset < 13) :
    (callPlace argument offset).line = 1 := by
  have hfront : ∀ k < 13, byteLength (callFront.take k) = k ∧
      (callFront.take k).count '\n' = 0 := by decide
  obtain ⟨hbytes, hlines⟩ := hfront offset h
  have hplace : callPlace argument offset =
      .between (callFront.take offset) (callFront.drop offset ++ (argument ++ callBack)) := by
    rw [Place.between, ← append_assoc, take_append_drop, callPlace, Place.start,
      Place.after, hbytes, Nat.zero_add]
  rw [hplace, Place.line_between]
  exact (congrArg (fun n => (1 + n) % 2 ^ 32) hlines).trans (by decide)

/-- The groups that are open at the argument of the call: its parentheses, and the body of the
function. -/
def callOpened (argument : List Char) : List OpenGroup :=
  [⟨.paren, callPlace argument 11, [.word "g" ⟨10, 11⟩ 1]⟩,
    ⟨.brace, callPlace argument 8,
    [.word "fun" ⟨0, 3⟩ 1, .word "f" ⟨4, 5⟩ 1, .group .paren [] ⟨5, 7⟩ 1]⟩]

def atArgument (argument : List Char) : Scan :=
  ⟨callOpened argument, [], callPlace argument 12, argument ++ callBack⟩

theorem reaches_argument (argument : List Char) :
    Scan.Reaches (lexicon .kotlin)
    (.start (callPlace argument 0) (callFront ++ (argument ++ callBack)))
      (atArgument argument) := by
  have hline (k : Nat) (hk : k < 13) := line_callPlace argument hk
  have hreach : Scan.Reaches (lexicon .kotlin)
      (.start (callPlace argument 0) (callFront ++ (argument ++ callBack)))
        ⟨[⟨.paren, callPlace argument 11, [.word "g" ⟨10, 11⟩ (callPlace argument 10).line]⟩,
          ⟨.brace, callPlace argument 8, [.word "fun" ⟨0, 3⟩ (callPlace argument 0).line,
            .word "f" ⟨4, 5⟩ (callPlace argument 4).line,
            .group .paren [] ⟨5, 7⟩ (callPlace argument 5).line]⟩],
          [], callPlace argument 12, argument ++ callBack⟩ :=
    .step (.step (.step (.step
      (.step (.step (.step (.step (.step (.step .refl rfl) rfl) rfl) rfl) rfl) rfl) rfl) rfl) rfl)
      rfl
  rwa [hline 0 (by decide), hline 4 (by decide), hline 5 (by decide),
    hline 10 (by decide)] at hreach

/-! ### What is found in them -/

section

variable {inside more outer : List Token} {stop stop' : Nat} {file : String} {e : List Char}

/-- The tokens of a source with a call, given those between its parentheses, those behind it in
its block, and those behind the block. -/
def tokensAround (inside more outer : List Token) (stop stop' : Nat) : List Token :=
  .word "fun" ⟨0, 3⟩ 1 :: .word "f" ⟨4, 5⟩ 1 :: .group .paren [] ⟨5, 7⟩ 1 ::
    .group .brace (.word "g" ⟨10, 11⟩ 1 :: .group .paren inside ⟨11, stop⟩ 1 :: more) ⟨8,
      stop'⟩ 1 :: outer

theorem parse_argumentSource (e : List Char) (file : String) :
    parse .kotlin (argumentSource e) file =
      (scan .kotlin (atArgument e)).elim (.error ⟨file⟩) fun tokens =>
        .ok ⟨none, [], (findings .kotlin tokens).calls, (findings .kotlin tokens).functions⟩ := by
  have hblanks : (lexicon .kotlin).blanks (callFront ++ (e ++ callBack)) = 0 :=
    (lexicon .kotlin).blanks_of_startsLeaf (startsLeaf_of_startsWord (by decide)) _
  have hheader : header .kotlin (callPlace e 0) ([] ++ (callFront ++ (e ++ callBack))) =
      some ((none, []), 0) :=
    header_of_noHeader hblanks (noHeader_of_head hblanks (by decide)) _
  rw [nil_append] at hheader
  have hstart : Place.start (callFront ++ (e ++ callBack)) = callPlace e 0 := rfl
  rw [parse, outline?, argumentSource, String.toList_ofList, outlineChars?, hstart, hheader]
  simp only [Option.bind_eq_bind, Option.bind_some, take_zero, drop_zero, Place.after_nil]
  rw [body?_eq_scan_start, (reaches_argument e).scan_eq]
  cases scan .kotlin (atArgument e) <;> rfl

/-- A source that is read has the tokens of its call, and those of the argument between the
parentheses. -/
theorem exists_tokensAround {a : Outline} (h : parse .kotlin (argumentSource e) file = .ok a) :
    ∃ inside more outer stop stop', scan .kotlin (atArgument e) =
      some (tokensAround inside more outer stop stop') ∧
      a.calls = (findings .kotlin (tokensAround inside more outer stop stop')).calls := by
  rw [parse_argumentSource] at h
  cases hscan : scan .kotlin (atArgument e) with
  | none =>
    rw [hscan] at h
    cases h
  | some all =>
    rw [hscan] at h
    cases h
    obtain ⟨inside, stop, more, stop', outer, rfl⟩ := completes_of_scan hscan
    rw [line_callPlace e (by decide), line_callPlace e (by decide)]
    exact ⟨inside, more, outer, stop, stop', rfl, rfl⟩

theorem isLeaf_word (name : String) (span : Span) (line : Nat) :
    (Token.word name span line).IsLeaf := by
  intro d children span' line' h
  cases h

theorem le_of_mem_declarations {depth i : Nat} {tokens : List Token} {entry : Nat × Function}
    (h : entry ∈ declarations depth i tokens) : i ≤ entry.1 := by
  obtain ⟨front, params, line, rest, hindex, -⟩ := eq_append_of_mem_declarations h
  omega

theorem callsOf_name {name : String} {span span' : Span} {depth line line' : Nat}
    (hname : name ∉ keywords) :
    callsOf ⟨depth, [], .word name span line, .group .paren inside span' line' :: more⟩ =
      [⟨name, none, line, span⟩] := by
  have hfun : name ≠ "fun" := by
    rintro rfl
    exact hname (by decide)
  have hdeclared : isDeclared ⟨depth, [], .word name span line,
      .group .paren inside span' line' :: more⟩ = false := by
    refine Bool.eq_false_iff.2 fun hmem => ?_
    obtain ⟨entry, hentry, hindex⟩ := mem_map.1 (contains_iff_mem.1 hmem)
    -- the name is no `fun`, so names are declared behind it only
    have hlater : entry ∈ declarations depth 1 (.group .paren inside span' line' :: more) := by
      simpa [declarations, Token.isWord, Token.word?, hfun] using hentry
    have hle := le_of_mem_declarations hlater
    simp only [length_nil] at hindex
    omega
  rw [callsOf, hdeclared]
  simp [callAt?, Token.word?, hname, Token.isGroup, Token.children?, qualifierBefore,
    qualifierText, Token.line, Token.span]

def leavesBehind (inside more outer : List Token) (stop stop' : Nat) : List LeafAt :=
  leaves 1 [] inside ++ leaves 1 [.group .paren inside ⟨11, stop⟩ 1, .word "g" ⟨10, 11⟩ 1] more ++
    leaves 0 ((tokensAround inside more [] stop stop').reverse) outer

theorem leaves_tokensAround (inside more outer : List Token) (stop stop' : Nat) :
    leaves 0 [] (tokensAround inside more outer stop stop') =
      ⟨0, [], .word "fun" ⟨0, 3⟩ 1, (tokensAround inside more outer stop stop').drop 1⟩ ::
        ⟨0, [.word "fun" ⟨0, 3⟩ 1], .word "f" ⟨4, 5⟩ 1,
          (tokensAround inside more outer stop stop').drop 2⟩ ::
        ⟨1, [], .word "g" ⟨10, 11⟩ 1, .group .paren inside ⟨11, stop⟩ 1 :: more⟩ ::
          leavesBehind inside more outer stop stop' := by
  rw [tokensAround, leaves_of_isLeaf (isLeaf_word _ _ _), leaves_of_isLeaf (isLeaf_word _ _ _),
    leaves, leaves, leaves, leaves_of_isLeaf (isLeaf_word _ _ _), leaves]
  rfl

theorem calls_tokensAround (inside more outer : List Token) (stop stop' : Nat) :
    (findings .kotlin (tokensAround inside more outer stop stop')).calls =
      outerCall :: (leavesBehind inside more outer stop stop').flatMap callsOf := by
  have hcalls : (findings .kotlin (tokensAround inside more outer stop stop')).calls = _ :=
    (Kotlin.findings_foundAt 0 (tokensAround inside more outer stop stop')).calls
  have hfun : callsOf ⟨0, [], .word "fun" ⟨0, 3⟩ 1,
      (tokensAround inside more outer stop stop').drop 1⟩ = [] := by
    rw [callsOf, callAt?]
    split <;> simp [Token.word?, keywords, tokensAround]
  have hf : callsOf ⟨0, [.word "fun" ⟨0, 3⟩ 1], .word "f" ⟨4, 5⟩ 1,
      (tokensAround inside more outer stop stop').drop 2⟩ = [] := by
    rw [callsOf, if_pos]
    simp [isDeclared, tokensAround, declarations, declared?, paramsOf?, Token.isWord, Token.word?,
      Token.isGroup, Token.children?, Token.isSymbol]
  rw [hcalls, leaves_tokensAround, flatMap_cons, flatMap_cons, flatMap_cons, hfun,
    hf, callsOf_name (by decide)]
  rfl

theorem le_of_mem_callsBehind {s : List Char} {start end' : Nat} {c : Call}
    (htiles : Tiles (lexicon .kotlin) s start (tokensAround inside more outer stop stop') end')
    (hc : c ∈ (leavesBehind inside more outer stop stop').flatMap callsOf) :
    outerCall.span.stop ≤ c.span.start := by
  obtain ⟨l, hl, hcl⟩ := mem_flatMap.1 hc
  have horder := (htiles.leaves_inOrder 0 []).2
  rw [leaves_tokensAround] at horder
  rw [span_of_mem_callsOf hcl]
  exact (pairwise_cons.1 (pairwise_cons.1 (pairwise_cons.1 horder).2).2).1 l hl

theorem reaches_end (argument : List Char) (inside : List Token) (q : Place) :
    Scan.Reaches (lexicon .kotlin) ⟨callOpened argument, inside, q, callBack⟩
      ⟨[], tokensAround inside [] [] (q.offset + 1) (q.offset + 3), q.after callBack, []⟩ := by
  have hreach : Scan.Reaches (lexicon .kotlin) ⟨callOpened argument, inside, q, callBack⟩ _ :=
    .step (.step (.step .refl rfl) rfl) rfl
  rwa [line_callPlace argument (by decide), line_callPlace argument (by decide)] at hreach

theorem scan_templateString (h : TemplateText e) :
    ∃ text span stop stop', scan .kotlin (atArgument (templateString e)) =
      some (tokensAround [.literal text span 1] [] [] stop stop') := by
  have hstring : StringText ('$' :: '{' :: (e ++ ['}'])) := .template h .nil
  have hliteral : (lexicon .kotlin).literal (templateString e ++ callBack) =
      some (templateString e).length :=
    hstring.literal_eq fun heq => by cases heq
  have htoken : scan .kotlin (atArgument (templateString e)) = _ :=
    scan_literalAt hliteral (cons_ne_nil _ _) _
  rw [literalAt, line_callPlace _ (by decide)] at htoken
  exact ⟨_, _, _, _, htoken.trans ((reaches_end _ _ _).scan_eq.trans (scan_nil .kotlin _ _))⟩

theorem calls_of_literal (text : String) (span : Span) (stop stop' : Nat) :
    (findings .kotlin (tokensAround [.literal text span 1] [] [] stop stop')).calls =
      [outerCall] := by
  rw [calls_tokensAround]
  simp [leavesBehind, leaves, callsOf, isDeclared, callAt?, Token.word?, declarations, Token.isWord]

/-- Whatever the argument is, the call of `g` is the first one that is found, and the others
stand behind its name. -/
theorem calls_of_argument {a : Outline} (h : parse .kotlin (argumentSource e) file = .ok a) :
    ∃ found, a.calls = outerCall :: found ∧ ∀ c ∈ found, outerCall.span.stop ≤ c.span.start := by
  obtain ⟨inside, more, outer, stop, stop', hscan, hcalls⟩ := exists_tokensAround h
  rw [← (reaches_argument e).scan_eq, ← body?_eq_scan_start] at hscan
  have htiles := body_tiles (n := 0) (lawful_lexicon .kotlin) hscan
  exact ⟨_, hcalls.trans (calls_tokensAround _ _ _ _ _), fun c hc =>
    le_of_mem_callsBehind htiles hc⟩

/-- The source with the template is read, and the call of `g` is its only one. -/
theorem calls_of_template (h : TemplateText e) (file : String) :
    ∃ t, parse .kotlin (templateSource e) file = .ok t ∧ t.calls = [outerCall] := by
  obtain ⟨text, span, stop, stop', hscan⟩ := scan_templateString h
  have ht := parse_argumentSource (templateString e) file
  rw [hscan] at ht
  exact ⟨_, ht, calls_of_literal text span _ _⟩

def innerCall : List Char :=
  ['h', '(', ')']

theorem bracesMatch_innerCall : BracesMatch innerCall :=
  .char (by decide) (by decide) (.char (by decide) (by decide) (.char (by decide) (by decide) .nil))

def innerTokens : List Token :=
  tokensAround [.word "h" ⟨12, 13⟩ 1, .group .paren [] ⟨13, 15⟩ 1] [] [] 16 18

theorem scan_innerCall : scan .kotlin (atArgument innerCall) = some innerTokens := by
  have hinner : Scan.Reaches (lexicon .kotlin) (atArgument innerCall)
      ⟨callOpened innerCall, [.word "h" ⟨12, 13⟩ 1, .group .paren [] ⟨13, 15⟩ 1],
        callPlace innerCall 15, callBack⟩ :=
    .step (.step (.step .refl rfl) rfl) rfl
  exact hinner.scan_eq.trans ((reaches_end _ _ _).scan_eq.trans (scan_nil .kotlin _ _))

theorem calls_innerTokens : (findings .kotlin innerTokens).calls =
    [outerCall, ⟨"h", none, 1, ⟨12, 13⟩⟩] := by
  have hcall : callsOf ⟨1, [], .word "h" ⟨12, 13⟩ 1, [.group .paren [] ⟨13, 15⟩ 1]⟩ =
      [⟨"h", none, 1, ⟨12, 13⟩⟩] :=
    callsOf_name (by decide)
  rw [innerTokens, calls_tokensAround]
  simp [leavesBehind, leaves, hcall]

/-- In a template no call is found. So the calls are those of the source in which the
expression is the argument itself only if there is no call in the expression. -/
theorem calls_in_template (hbraces : BracesMatch e) (hquote : '"' ∉ e) (hapostrophe : '\'' ∉ e)
    (file : String) :
    ∃ t, parse .kotlin (templateSource e) file = .ok t ∧ t.calls = [outerCall] ∧
      ∀ a, parse .kotlin (argumentSource e) file = .ok a →
        ∃ inside, a.calls = outerCall :: inside ∧
          (∀ c ∈ inside, outerCall.span.stop ≤ c.span.start) ∧
            (t.calls.map Call.label = a.calls.map Call.label ↔ inside = []) := by
  obtain ⟨t, ht, htemplate⟩ := calls_of_template (hbraces.templateText hquote hapostrophe) file
  refine ⟨t, ht, htemplate, fun a ha => ?_⟩
  obtain ⟨inside, hcalls, hbehind⟩ := calls_of_argument ha
  refine ⟨inside, hcalls, hbehind, ?_⟩
  rw [hcalls, htemplate]
  simp

/-- Of an expression that is a call nothing is left in the template. -/
theorem calls_in_template_innerCall :
    (BracesMatch innerCall ∧ '"' ∉ innerCall ∧ '\'' ∉ innerCall) ∧
      ∃ t a, parse .kotlin (templateSource innerCall) "F.kt" = .ok t ∧
        parse .kotlin (argumentSource innerCall) "F.kt" = .ok a ∧
          t.calls = [outerCall] ∧ ∃ inside, a.calls = outerCall :: inside ∧ inside ≠ [] ∧
            t.calls.map Call.label ≠ a.calls.map Call.label := by
  have ha := parse_argumentSource innerCall "F.kt"
  rw [scan_innerCall] at ha
  obtain ⟨t, ht, htemplate, hargument⟩ :=
    calls_in_template bracesMatch_innerCall (by decide) (by decide) "F.kt"
  obtain ⟨inside, hinside, -, hiff⟩ := hargument _ ha
  have hne : inside ≠ [] := by
    rintro rfl
    cases hinside.symm.trans calls_innerTokens
  exact ⟨⟨bracesMatch_innerCall, by decide, by decide⟩, t, _, ht, ha, htemplate, inside, hinside,
    hne, mt hiff.1 hne⟩

/-- The call of `h` is found where it is the argument, and no call with its name is found where
it is in the template. -/
theorem not_found_innerCall :
    (BracesMatch innerCall ∧ '"' ∉ innerCall ∧ '\'' ∉ innerCall ∧ '\n' ∉ innerCall) ∧
      ∃ a t, parse .kotlin (argumentSource innerCall) "F.kt" = .ok a ∧
      parse .kotlin (templateSource innerCall) "F.kt" = .ok t ∧
        a.calls = [outerCall, ⟨"h", none, 1, ⟨12, 13⟩⟩] ∧ ∀ c ∈ t.calls, c.label ≠ ("h", none) := by
  have ha := parse_argumentSource innerCall "F.kt"
  rw [scan_innerCall] at ha
  obtain ⟨t, ht, htemplate⟩ :=
    calls_of_template (bracesMatch_innerCall.templateText (by decide) (by decide)) "F.kt"
  refine ⟨⟨bracesMatch_innerCall, by decide, by decide, by decide⟩, _, t, ha, ht,
    calls_innerTokens, fun c hc => ?_⟩
  rw [htemplate, mem_singleton] at hc
  subst hc
  decide

end

end WitnessReplay.Source
