import WitnessReplay.Proofs.LookAhead

/-!
# Strings with templates, and nested comments

A string of Kotlin may hold templates, a template may hold blocks, characters and strings, and
these strings may hold templates again; block comments nest as well. Each is given by a grammar
of its own here, without a word on how it is looked for. The rules take all of what the
grammars derive and nothing behind it, to any depth, so a string is one token and a comment is
none.
-/

namespace WitnessReplay.Source

open Text

/-! ### Literals as tokens -/

def literalAt (p : Place) (text : List Char) : Token :=
  .literal (String.ofList text) (Span.of p text) p.line

/-- A literal that is taken from the start of a text is the item with which the text starts. -/
theorem starts_literalAt {language : Language} {text rest : List Char}
    (h : (lexicon language).literal (text ++ rest) = some text.length)
    (hne : text ≠ []) (p : Place) :
    (lexicon language).Starts p (.leaf (literalAt p text)) text rest := by
  cases text with
  | nil => exact absurd rfl hne
  | cons c r =>
    have hstart := startsLeaf_of_startsLiteral (startsLiteral_of_literal h)
    exact .leaf (Lexicon.blanks_of_startsLeaf _ hstart _) (Lexicon.leaf_of_literal h)

theorem scan_literalAt {language : Language} {opened : List OpenGroup} {tokens : List Token}
    {text rest : List Char} (h : (lexicon language).literal (text ++ rest) = some text.length)
    (hne : text ≠ []) (p : Place) :
    scan language ⟨opened, tokens, p, text ++ rest⟩ =
      scan language ⟨opened, tokens ++ [literalAt p text], p.after text, rest⟩ := by
  have hstarts := starts_literalAt h hne p
  exact scan_token hstarts.blanks_eq (token_of_leaf hstarts.leaf_eq)

/-! ### Literals on one line -/

/-- The inside of a literal on one line between quotes of a kind: characters, and escaped
characters. -/
inductive QuotedText (quote : Char) : List Char → Prop where
  | nil : QuotedText quote []
  | escape {c : Char} {x : List Char} (h : QuotedText quote x) : QuotedText quote ('\\' :: c :: x)
  | char {c : Char} {x : List Char} (hquote : c ≠ quote) (hescape : c ≠ '\\') (hline : c ≠ '\n')
      (h : QuotedText quote x) :
      QuotedText quote (c :: x)

def inQuotes (x : List Char) : List Char :=
  '"' :: (x ++ ['"'])

theorem inQuotes_append (x rest : List Char) : inQuotes x ++ rest = '"' :: (x ++ '"' :: rest) := by
  simp [inQuotes]

theorem QuotedText.quotedTail_eq {quote : Char} {x : List Char} (h : QuotedText quote x)
    (hescape : quote ≠ '\\') (rest : List Char) :
    quotedTail quote (x ++ quote :: rest) = some (x.length + 1) := by
  induction h with
  | nil => exact quotedTail_quote hescape rest
  | @escape c x _ ih =>
    have hstep : quotedTail quote ('\\' :: c :: (x ++ quote :: rest)) =
        (quotedTail quote (x ++ quote :: rest)).map (· + 2) := by
      simp [quotedTail]
    rw [List.cons_append, List.cons_append, hstep, ih]
    rfl
  | char hquote hescape hline _ ih =>
    rw [List.cons_append, quotedTail_other hescape hquote hline, ih]
    rfl

theorem exists_of_quotedTail {quote : Char} {r : List Char} {n : Nat}
    (h : quotedTail quote r = some n) :
    ∃ x after, QuotedText quote x ∧ r = x ++ quote :: after ∧ n = x.length + 1 := by
  fun_induction quotedTail quote r generalizing n with
  | case1 => cases h
  | case2 =>
    cases h
    exact ⟨[], [], .nil, rfl, rfl⟩
  | case3 => cases h
  | case4 d r ih =>
    obtain ⟨m, hm, rfl⟩ := Option.map_eq_some_iff.1 h
    obtain ⟨x, after, hx, rfl, rfl⟩ := ih hm
    exact ⟨'\\' :: d :: x, after, .escape hx, rfl, rfl⟩
  | case5 d r =>
    cases h
    exact ⟨[], d :: r, .nil, rfl, rfl⟩
  | case6 => cases h
  | case7 c d r hescape hquote hline ih =>
    obtain ⟨m, hm, rfl⟩ := Option.map_eq_some_iff.1 h
    obtain ⟨x, after, hx, hsplit, rfl⟩ := ih hm
    exact ⟨c :: x, after, .char hquote hescape hline hx, congrArg (c :: ·) hsplit, rfl⟩

namespace Kotlin

/-! ### The grammars -/

mutual

/-- The inside of a string: characters, escaped characters and templates. A dollar sign in
front of a brace opens a template. -/
inductive StringText : List Char → Prop where
  | nil : StringText []
  | escape {c : Char} {x : List Char} (h : StringText x) : StringText ('\\' :: c :: x)
  | char {c : Char} {x : List Char} (hquote : c ≠ '"') (hescape : c ≠ '\\') (hline : c ≠ '\n')
      (hdollar : c = '$' → x.head? ≠ some '{') (h : StringText x) : StringText (c :: x)
  | template {y x : List Char} (hy : TemplateText y) (h : StringText x) :
      StringText ('$' :: '{' :: (y ++ '}' :: x))

/-- The inside of a template or of a block in it: blocks, strings, characters in quotes, and
other characters. With a quote right behind it, an empty string would be the start of a raw
one. -/
inductive TemplateText : List Char → Prop where
  | nil : TemplateText []
  | block {y x : List Char} (hy : TemplateText y) (h : TemplateText x) :
      TemplateText ('{' :: (y ++ '}' :: x))
  | string {y x : List Char} (hy : StringText y) (hempty : y = [] →
      x.head? ≠ some '"') (h : TemplateText x) :
      TemplateText ('"' :: (y ++ '"' :: x))
  | quoted {y x : List Char} (hy : QuotedText '\'' y) (hne : y ≠ []) (h : TemplateText x) :
      TemplateText ('\'' :: (y ++ '\'' :: x))
  | char {c : Char} {x : List Char} (hopen : c ≠ '{') (hclose : c ≠ '}') (hquote : c ≠ '"')
      (hapostrophe : c ≠ '\'')
      (h : TemplateText x) : TemplateText (c :: x)

end

/-- The inside of a block comment: whole comments, and characters that do not open or close one
together with the next. Behind the last one is the star of the closing mark. -/
inductive CommentText : List Char → Prop where
  | nil : CommentText []
  | char {c : Char} {x : List Char} (hopen : c = '/' →
      (x ++ ['*']).head? ≠ some '*') (hclose : c = '*' → x.head? ≠ some '/')
      (h : CommentText x) : CommentText (c :: x)
  | comment {y x : List Char} (hy : CommentText y) (h : CommentText x) :
      CommentText ('/' :: '*' :: (y ++ '*' :: '/' :: x))

/-! ### What the rules take of them -/

variable {x y rest : List Char}

theorem head?_append_cons (x : List Char) (c : Char) (r : List Char) :
    (x ++ c :: r).head? = (x ++ [c]).head? := by
  cases x <;> rfl

theorem charLiteral_eq (h : QuotedText '\'' x) (hne : x ≠ []) (rest : List Char) :
    charLiteral ('\'' :: (x ++ '\'' :: rest)) = some (x.length + 2) := by
  have hhead : (x ++ '\'' :: rest).head? ≠ some '\'' := by
    cases h with
    | nil => exact absurd rfl hne
    | escape => simp
    | char hquote => simpa using hquote
  rw [charLiteral, if_neg hhead, h.quotedTail_eq (by decide)]
  rfl

theorem templateParts_close (r : List Char) : templateParts ('}' :: r) = 0 := by
  rw [templateParts, if_pos rfl]

/-- A part of a template that has an end of its own is passed over up to its last character. -/
theorem templateParts_part {c last : Char} (hc : c ≠ '}')
    (h : templatePart c (y ++ last :: (x ++ '}' :: rest)) = some (y.length + 1))
    (hbehind : templateParts (x ++ '}' :: rest) = x.length) :
    templateParts (c :: (y ++ last :: x) ++ '}' :: rest) = (c :: (y ++ last :: x)).length := by
  have htext : c :: (y ++ last :: x) ++ '}' :: rest = c :: (y ++ last :: (x ++ '}' :: rest)) := by
    simp
  have hdrop : (y ++ last :: (x ++ '}' :: rest)).drop (y.length + 1) = x ++ '}' :: rest := by simp
  have hparts := templateParts_cons hc (y ++ last :: (x ++ '}' :: rest))
  rw [h, Option.getD_some, Option.elim_some, hdrop, hbehind, Option.map_some] at hparts
  rw [htext, Option.some.inj hparts]
  simp only [List.length_cons, List.length_append]
  omega

theorem templateParts_char {c : Char} (hopen : c ≠ '{') (hclose : c ≠ '}') (hquote : c ≠ '"')
    (hapostrophe : c ≠ '\'') (r : List Char) :
    templateParts (c :: r) = templateParts r + 1 := by
  have hparts := templateParts_cons hclose r
  simp only [templatePart, if_neg hopen, if_neg hquote, if_neg hapostrophe] at hparts
  exact Option.some.inj hparts

theorem templateTail_of_parts (h : templateParts (y ++ '}' :: rest) = y.length) :
    templateTail (y ++ '}' :: rest) = some (y.length + 1) := by
  rw [templateTail_eq, h, List.drop_left]
  rfl

/-- An inside that does not start with a quote is not that of a raw string. -/
theorem StringText.stringTail_eq (h : StringText x) (hempty : x = [] → rest.head? ≠ some '"') :
    stringTail (x ++ '"' :: rest) = plainTail (x ++ '"' :: rest) := by
  refine stringTail_other ?_
  rintro ⟨r, hr⟩
  cases h with
  | nil => exact hempty rfl (by rw [(List.cons.inj hr).2]; rfl)
  | escape => cases (List.cons.inj hr).1
  | char hquote => exact hquote (List.cons.inj hr).1
  | template => cases (List.cons.inj hr).1

mutual

/-- **The inside of a string.** The search for the end of a string ends at the quote behind the
inside. -/
theorem StringText.plainTail_eq {x : List Char} (h : StringText x) (rest : List Char) :
    plainTail (x ++ '"' :: rest) = some (x.length + 1) := by
  match h with
  | .nil => rw [List.nil_append, plainTail]; rfl
  | @StringText.escape c x h =>
    rw [List.cons_append, List.cons_append, plainTail, h.plainTail_eq rest]
    rfl
  | @StringText.char c x hquote hescape hline hdollar h =>
    have htemplate : ¬(c = '$' ∧ (x ++ '"' :: rest).head? = some '{') := by
      rintro ⟨hc, hhead⟩
      cases x with
      | nil => cases hhead
      | cons d x => exact hdollar hc hhead
    rw [List.cons_append, plainTail_other hquote hline hescape htemplate, h.plainTail_eq rest]
    rfl
  | @StringText.template y x hy h =>
    have hbehind : '$' :: '{' :: (y ++ '}' :: x) ++ '"' :: rest =
        '$' :: '{' :: (y ++ '}' :: (x ++ '"' :: rest)) := by simp
    have hdrop : (y ++ '}' :: (x ++ '"' :: rest)).drop (y.length + 1) = x ++ '"' :: rest := by simp
    rw [hbehind, plainTail_template, templateTail_of_parts (hy.templateParts_eq _),
      Option.elim_some, hdrop, h.plainTail_eq rest]
    simp
    omega

/-- **The inside of a template.** Its parts end at the brace behind the inside. -/
theorem TemplateText.templateParts_eq {y : List Char} (h : TemplateText y) (rest : List Char) :
    templateParts (y ++ '}' :: rest) = y.length := by
  match h with
  | .nil => exact templateParts_close rest
  | @TemplateText.block y x hy h =>
    exact templateParts_part (by decide) (templateTail_of_parts (hy.templateParts_eq _))
      (h.templateParts_eq rest)
  | @TemplateText.string y x hy hempty h =>
    have hnext : y = [] → (x ++ '}' :: rest).head? ≠ some '"' := by
      intro hy
      cases x with
      | nil => simp
      | cons d x => exact hempty hy
    exact templateParts_part (by decide) ((hy.stringTail_eq hnext).trans (hy.plainTail_eq _))
      (h.templateParts_eq rest)
  | @TemplateText.quoted y x hy hne h =>
    have hpart : templatePart '\'' (y ++ '\'' :: (x ++ '}' :: rest)) = some (y.length + 1) := by
      simp [templatePart, charLiteral_eq hy hne]
    exact templateParts_part (by decide) hpart (h.templateParts_eq rest)
  | @TemplateText.char c x hopen hclose hquote hapostrophe h =>
    rw [List.cons_append, templateParts_char hopen hclose hquote hapostrophe,
      h.templateParts_eq rest]
    rfl

end

theorem CommentText.commentTail_eq (h : CommentText x) (rest : List Char) :
    commentTail (x ++ '*' :: '/' :: rest) = some (x.length + 2) := by
  induction h generalizing rest with
  | nil => rw [List.nil_append, commentTail]; rfl
  | @char c x hopen hclose _ ih =>
    have hopen' : ¬(c = '/' ∧ (x ++ '*' :: '/' :: rest).head? = some '*') := by
      rintro ⟨hc, hhead⟩
      exact hopen hc (by rwa [head?_append_cons] at hhead)
    have hclose' : ¬(c = '*' ∧ (x ++ '*' :: '/' :: rest).head? = some '/') := by
      rintro ⟨hc, hhead⟩
      cases x with
      | nil => cases hhead
      | cons d x => exact hclose hc hhead
    rw [List.cons_append, commentTail_other hclose' hopen', ih]
    rfl
  | @comment y x _ _ ihInner ih =>
    have hbehind : '/' :: '*' :: (y ++ '*' :: '/' :: x) ++ '*' :: '/' :: rest =
        '/' :: '*' :: (y ++ '*' :: '/' :: (x ++ '*' :: '/' :: rest)) := by simp
    have hdrop : (y ++ '*' :: '/' :: (x ++ '*' :: '/' :: rest)).drop (y.length + 2) =
        x ++ '*' :: '/' :: rest := by simp
    rw [hbehind, commentTail_open, ihInner, Option.elim_some, hdrop, ih]
    simp
    omega

/-! ### What is left of them in the tokens -/

def inMarks (x : List Char) : List Char :=
  '/' :: '*' :: (x ++ ['*', '/'])

theorem StringText.literal_eq (h : StringText x) (hempty : x = [] → rest.head? ≠ some '"') :
    literal (inQuotes x ++ rest) = some (inQuotes x).length := by
  rw [inQuotes_append, literal_quote, string, h.stringTail_eq hempty, h.plainTail_eq]
  simp [inQuotes]

theorem CommentText.skips (h : CommentText x) (rest : List Char) :
    Lexicon.kotlin.Skips (inMarks x) rest := by
  rw [← List.append_nil (inMarks x)]
  exact .comment (.block (h.commentTail_eq rest)) .nil

end Kotlin

open Kotlin

/-- **Strings and comments to any depth.** The rule for strings on one line takes exactly the
string, whatever follows. So does the rule for literals if no quote is right behind an empty
string: a string with all its templates is one token. Likewise a comment with all the comments
in it is skipped as one. -/
theorem forest_of_nested_texts (rest : List Char) (p : Place) :
    (∀ x, StringText x →
      (plainTail (x ++ '"' :: rest)).map (· + 1) = some (inQuotes x).length ∧
      ((x = [] → rest.head? ≠ some '"') →
        Lexicon.kotlin.literal (inQuotes x ++ rest) = some (inQuotes x).length ∧
        Lexicon.kotlin.forest p (inQuotes x ++ rest) =
          (.literal (String.ofList (inQuotes x)) (Span.of p (inQuotes x)) p.line ::
              (Lexicon.kotlin.forest (p.after (inQuotes x)) rest).1,
            (inQuotes x).length + (Lexicon.kotlin.forest (p.after (inQuotes x)) rest).2))) ∧
    ∀ x, CommentText x →
      (Lexicon.kotlin.commentTail (x ++ '*' :: '/' :: rest)).map (· + 2) = some (inMarks x).length ∧
      Lexicon.kotlin.blanks (inMarks x ++ rest) = (inMarks x).length + Lexicon.kotlin.blanks rest ∧
      (Lexicon.kotlin.forest p (inMarks x ++ rest)).1 =
        (Lexicon.kotlin.forest (p.after (inMarks x)) rest).1 := by
  constructor
  · intro x hx
    refine ⟨by rw [hx.plainTail_eq]; simp [inQuotes], fun hempty => ?_⟩
    have hliteral : (lexicon .kotlin).literal (inQuotes x ++ rest) = some (inQuotes x).length :=
      hx.literal_eq hempty
    have hstarts := starts_literalAt hliteral (List.cons_ne_nil _ _) p
    exact ⟨hliteral, Lexicon.forest_of_token hstarts.blanks_eq (token_of_leaf hstarts.leaf_eq)
      (List.cons_ne_nil _ _)⟩
  · intro x hx
    have htail : Lexicon.kotlin.commentTail (x ++ '*' :: '/' :: rest) = some (x.length + 2) :=
      hx.commentTail_eq rest
    refine ⟨by rw [htail]; simp [inMarks], ?_, forest_skips .kotlin (hx.skips rest) p⟩
    exact Lexicon.blanks_append_of_skips (hx.skips rest)

/-- The inside of a string with a template, in which there are a block with a brace as a
character and a string with a template of its own. -/
def nestedString : List Char :=
  ['a', '$', '{', '{', '\'', '}', '\'', '}', '"', '$', '{', '"', '/', '*', '"', '}', '"', '}']

def nestedComment : List Char :=
  ['{', '/', '*', '"', '*', '/', '\'']

theorem stringText_nestedString : StringText nestedString := by
  have hcharacter : TemplateText ['\'', '}', '\''] :=
    .quoted (y := ['}']) (.char (by decide) (by decide) (by decide) .nil) (by decide) .nil
  have hmark : StringText ['/', '*'] :=
    .char (by decide) (by decide) (by decide) (by decide)
      (.char (by decide) (by decide) (by decide) (by decide) .nil)
  have hinner : StringText ['$', '{', '"', '/', '*', '"', '}'] :=
    .template (y := ['"', '/', '*', '"']) (.string hmark (by decide) .nil) .nil
  have hparts : TemplateText ['{', '\'', '}', '\'', '}', '"', '$', '{', '"', '/', '*', '"', '}',
      '"'] :=
    .block hcharacter (.string hinner (by decide) .nil)
  exact .char (by decide) (by decide) (by decide) (by decide) (.template hparts .nil)

theorem commentText_nestedComment : CommentText nestedComment := by
  have hquote : CommentText ['"'] := .char (by decide) (by decide) .nil
  exact .char (by decide) (by decide) (.comment hquote (.char (by decide) (by decide) .nil))

theorem forest_of_nestedString :
    StringText nestedString ∧ CommentText nestedComment ∧
      Lexicon.kotlin.literal (inQuotes nestedString ++ ['"']) = some 20 ∧
      Lexicon.kotlin.blanks (inMarks nestedComment ++ ['}']) = 11 := by
  have hstring := (forest_of_nested_texts ['"'] (.start [])).1 nestedString stringText_nestedString
  have hcomment := (forest_of_nested_texts ['}'] (.start [])).2 nestedComment
    commentText_nestedComment
  have hblanks : Lexicon.kotlin.blanks ['}'] = 0 :=
    Lexicon.kotlin.blanks_of_startsLeaf (Delimiter.startsLeaf_closing .brace) _
  refine ⟨stringText_nestedString, commentText_nestedComment, (hstring.2 (by decide)).1, ?_⟩
  rw [hcomment.2.1, hblanks]
  rfl

end WitnessReplay.Source
