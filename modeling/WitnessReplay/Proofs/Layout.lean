import WitnessReplay.Proofs.Headers
import WitnessReplay.Proofs.LexicalContext
import WitnessReplay.Proofs.Placement

/-!
# Layout

Tokens may be written with any blanks and comments between them. `Layout` relates a forest to
the texts that write it so, and reading such a text gives the forest back: comments and layout
neither add nor drop, split or merge a token. A leaf need only be one in front of a single
blank, except that the strings of Kotlin, which hold templates, and its comments, which nest,
have to end where they end whatever follows them.
-/

namespace WitnessReplay.Source

open Text List

variable {language : Language} {gap text after : List Char}

def IsBlockComment : Language → List Char → Prop
  | .java, x => Java.commentTail (x ++ ['*', '/']) = some (x.length + 2)
  | .kotlin, x => ∀ rest, Kotlin.commentTail (x ++ '*' :: '/' :: rest) = some (x.length + 2)

/-- Any mix of blanks and complete comments; a line comment has its line end with it. -/
inductive Trivia (language : Language) : List Char → Prop where
  | nil : Trivia language []
  | blank {c : Char} {gap : List Char} (hc : isBlank c = true) (h : Trivia language gap) :
      Trivia language (c :: gap)
  | line {x gap : List Char} {e : Char} (hx : ∀ c ∈ x, isLineEnd c = false)
      (he : isLineEnd e = true)
      (h : Trivia language gap) : Trivia language ('/' :: '/' :: x ++ e :: gap)
  | block {x gap : List Char} (hx : IsBlockComment language x) (h : Trivia language gap) :
      Trivia language ('/' :: '*' :: x ++ ['*', '/'] ++ gap)

/-- What stands between two tokens: a blank, and then any mix of blanks and comments. -/
def Separator (language : Language) (sep : List Char) : Prop :=
  ∃ b gap, sep = b :: gap ∧ isBlank b = true ∧ Trivia language gap

/-- A token that is no group, with its text: in front of a blank its rule takes the whole text,
and the rules in front of that one take nothing. No literal starts like a name, so for a word
this need not be said. -/
inductive Leaf (language : Language) : Token → List Char → Prop where
  | literal {text : List Char} {span : Span} {line : Nat}
      (h : Alone (lexicon language).literal text)
      (hstring : language = .kotlin → text.head? = some '"' →
        Whole (lexicon language).literal text) :
      Leaf language (.literal (String.ofList text) span line) text
  | word {text : List Char} {span : Span} {line : Nat} (h : Alone (lexicon language).word text) :
      Leaf language (.word (Lexicon.bareName text) span line) text
  | symbol {c b : Char} {span : Span} {line : Nat} (hc : isBlank c = false) (hb : isBlank b = true)
      (hliteral : (lexicon language).literal [c, b] = none)
      (hword : (lexicon language).word [c, b] = none)
      (hsymbol : symbol [c, b] = some 1) (hquote : language = .kotlin → c ≠ '\x60') :
      Leaf language (.symbol c span line) [c]

/-- A text writes a forest. Behind a leaf stands a separator, where `last` is set also the end
of the text; around the delimiters of a group there may be any blanks and comments. The
positions in the forest are of no account. -/
inductive Layout (language : Language) : Bool → List Token → List Char → Prop where
  | nil {last : Bool} : Layout language last [] []
  | leaf {last : Bool} {t : Token} {ts : List Token} {text sep s : List Char}
      (ht : Leaf language t text)
      (hsep : Separator language sep ∨ last = true ∧ sep = [] ∧ ts = [])
      (hts : Layout language last ts s) :
      Layout language last (t :: ts) (text ++ (sep ++ s))
  | group {last : Bool} {d : Delimiter} {children ts : List Token} {gap inside gap' s : List Char}
      {span : Span} {line : Nat}
      (hgap : Trivia language gap) (hchildren : Layout language false children inside)
      (hgap' : Trivia language gap')
      (hts : Layout language last ts s) :
      Layout language last (.group d children span line :: ts)
        (d.opening :: (gap ++ (inside ++ d.closing :: (gap' ++ s))))

theorem isBlank_of_isLineEnd {e : Char} (he : isLineEnd e = true) : isBlank e = true := by
  simp only [isLineEnd, Bool.or_eq_true, beq_iff_eq] at he
  rcases he with rfl | rfl <;> decide

theorem IsBlockComment.commentTail {x : List Char} (hx : IsBlockComment language x)
    (rest : List Char) :
    (lexicon language).commentTail (x ++ '*' :: '/' :: rest) = some (x.length + 2) := by
  cases language
  · exact Java.comment_whole hx rest
  · exact hx rest

theorem Trivia.skips (h : Trivia language gap) (rest : List Char) :
    (lexicon language).Skips gap rest := by
  induction h with
  | nil => exact .nil
  | blank hc _ ih => exact .blank hc ih
  | line hx he _ ih =>
    exact .comment (.line hx (by simpa using he)) (.blank (isBlank_of_isLineEnd he) ih)
  | block hx _ ih => exact .comment (.block (hx.commentTail _)) ih

theorem Separator.trivia {sep : List Char} (h : Separator language sep) : Trivia language sep := by
  obtain ⟨b, gap, rfl, hb, hgap⟩ := h
  exact .blank hb hgap

theorem Lexicon.blanks_of_startsLeaf (L : Lexicon) {c : Char} (hc : StartsLeaf c)
    (r : List Char) : L.blanks (c :: r) = 0 := by
  rw [blanks.eq_def]
  simp [hc.blank, hc.slash]

theorem Lexicon.blanks_slash (L : Lexicon) (hafter : SetOff after) :
    L.blanks ('/' :: after) = 0 := by
  have hslash := hafter.head_ne (c := '/') (by decide)
  have hstar := hafter.head_ne (c := '*') (by decide)
  rw [blanks.eq_def]
  cases after with
  | nil => rfl
  | cons c r => simp_all [isBlank]

namespace Lexicon

variable {L : Lexicon} {p : Place}

theorem leaf_of_literal (h : L.literal (text ++ after) = some text.length) :
    L.leaf p (text ++ after) =
      some (.literal (String.ofList text) (Span.of p text) p.line, text.length) := by
  rw [leaf.eq_def, h]
  simp only [take_left]

theorem leaf_of_word (hliteral : L.literal (text ++ after) = none)
    (h : L.word (text ++ after) = some text.length) :
    L.leaf p (text ++ after) =
      some (.word (bareName text) (Span.of p text) p.line, text.length) := by
  rw [leaf.eq_def, hliteral, h]
  simp only [take_left]

theorem leaf_of_symbol {c : Char} (hliteral : L.literal (c :: after) = none)
    (hword : L.word (c :: after) = none) (h : symbol (c :: after) = some 1) :
    L.leaf p (c :: after) = some (.symbol c (Span.of p [c]) p.line, 1) := by
  rw [leaf.eq_def, hliteral, hword, h]
  rfl

end Lexicon

theorem symbol_of_setOff {c b : Char} (h : symbol [c, b] = some 1) (hafter : SetOff after) :
    symbol (c :: after) = some 1 := by
  have hstar := hafter.head_ne (c := '*') (by decide)
  unfold symbol at h ⊢
  grind

theorem ofOpening?_of_symbol {c : Char} {r : List Char} {n : Nat} (h : symbol (c :: r) = some n) :
    Delimiter.ofOpening? c = none := by
  cases hd : Delimiter.ofOpening? c with
  | none => rfl
  | some d =>
    obtain rfl := Delimiter.ofOpening?_eq_some_iff.1 hd
    cases d <;> cases h

theorem startsLiteral_of_symbol {c : Char} {r : List Char} {n : Nat} (h : symbol (c :: r) = some n)
    (hdigit : c.isDigit = false) : startsLiteral c = false := by
  have hq : c ≠ '"' := by
    rintro rfl
    cases h
  have ha : c ≠ '\'' := by
    rintro rfl
    cases h
  simp [startsLiteral, hq, ha, hdigit]

theorem literal_whole (h : Alone (lexicon language).literal text)
    (hstring : language = .kotlin → text.head? = some '"' → Whole (lexicon language).literal text) :
    Whole (lexicon language).literal text := by
  cases language
  · exact Java.literal_whole h
  · exact Kotlin.literal_whole h (hstring rfl)

theorem word_whole (h : Alone (lexicon language).word text) :
    Whole (lexicon language).word text := by
  cases language
  · exact Java.word_whole h
  · exact Kotlin.word_whole h

theorem Leaf.reads {t : Token} (h : Leaf language t text) (hafter : SetOff after) (p : Place) :
    text ≠ [] ∧ (lexicon language).blanks (text ++ after) = 0 ∧
      ∃ t', (lexicon language).token p (text ++ after) = some (t', text.length) ∧
        t'.unplaced = t.unplaced := by
  cases h with
  | literal h hstring =>
    have hread := literal_whole h hstring after hafter
    have hpos := ((lawful_lexicon language).literal hread).1
    cases text with
    | nil => cases hpos
    | cons c r =>
      have hstart := startsLeaf_of_startsLiteral (startsLiteral_of_literal hread)
      refine ⟨by simp, Lexicon.blanks_of_startsLeaf _ hstart _,
        .literal _ (Span.of p (c :: r)) p.line, ?_, rfl⟩
      exact (Lexicon.token_of_not_opening hstart.opening).trans (Lexicon.leaf_of_literal hread)
  | word h =>
    have hread := word_whole h after hafter
    have hpos := ((lawful_lexicon language).word hread).1
    cases text with
    | nil => cases hpos
    | cons c r =>
      have hword := startsWord_of_word hread
      have hstart := startsLeaf_of_startsWord hword
      have hliteral := literal_eq_none language (startsLiteral_of_startsWord hword) (r ++ after)
      refine ⟨by simp, Lexicon.blanks_of_startsLeaf _ hstart _,
        .word _ (Span.of p (c :: r)) p.line, ?_, rfl⟩
      exact (Lexicon.token_of_not_opening hstart.opening).trans
        (Lexicon.leaf_of_word hliteral hread)
  | @symbol c b _ _ hc hb hliteral hword hsymbol hquote =>
    have hread := symbol_of_setOff hsymbol hafter
    have hopening := ofOpening?_of_symbol hread
    have hnotLiteral := startsLiteral_of_symbol hread (isDigit_of_literal_eq_none hliteral)
    have hleaf := Lexicon.leaf_of_symbol (p := p) (literal_eq_none language hnotLiteral after)
      (word_eq_none hquote hword after) hread
    refine ⟨by simp, ?_, _, (Lexicon.token_of_not_opening hopening).trans hleaf, rfl⟩
    by_cases hslash : c = '/'
    · subst hslash
      exact Lexicon.blanks_slash _ hafter
    · exact Lexicon.blanks_of_startsLeaf _ ⟨hc, hslash, hopening⟩ _

/-- A text at which a forest ends: none, or a closing delimiter. -/
def Closes (after : List Char) : Prop :=
  ∀ c ∈ after.head?, ∃ d : Delimiter, c = d.closing

theorem Delimiter.startsLeaf_closing (d : Delimiter) : StartsLeaf d.closing := by
  cases d <;> exact ⟨by decide, by decide, by decide⟩

theorem leaf_closing (d : Delimiter) (p : Place) (r : List Char) :
    (lexicon language).leaf p (d.closing :: r) = none := by
  have hliteral : (lexicon language).literal (d.closing :: r) = none :=
    literal_eq_none language (by cases d <;> decide) r
  have hword : (lexicon language).word (d.closing :: r) = none := by
    cases hread : (lexicon language).word (d.closing :: r) with
    | none => rfl
    | some n => exact absurd (startsWord_of_word hread) (by cases d <;> decide)
  have hsymbol : symbol (d.closing :: r) = none := by
    cases d <;> rfl
  rw [Lexicon.leaf.eq_def, hliteral, hword, hsymbol]

theorem Closes.reads (h : Closes after) (language : Language) (p : Place) :
    (lexicon language).blanks after = 0 ∧ (lexicon language).token p after = none := by
  cases after with
  | nil => exact ⟨by rw [Lexicon.blanks], by rw [Lexicon.token]⟩
  | cons c r =>
    obtain ⟨d, rfl⟩ := h c rfl
    refine ⟨Lexicon.blanks_of_startsLeaf _ d.startsLeaf_closing r, ?_⟩
    rw [Lexicon.token_of_not_opening d.startsLeaf_closing.opening, leaf_closing]

theorem Delimiter.blanks_opening (d : Delimiter) (L : Lexicon) (r : List Char) :
    L.blanks (d.opening :: r) = 0 := by
  cases d <;> (rw [Lexicon.blanks.eq_def]; simp [opening, isBlank])

theorem Lexicon.token_group {L : Lexicon} {p : Place} {d : Delimiter} {read : List Token}
    {front back rest : List Char}
    (hforest : L.forest (p.after [d.opening]) (front ++ back ++ d.closing :: rest) =
      (read, front.length))
    (hback : L.blanks (back ++ d.closing :: rest) = back.length) :
    ∃ span, L.token p (d.opening :: (front ++ back) ++ [d.closing] ++ rest) =
      some (.group d read span p.line, (d.opening :: (front ++ back) ++ [d.closing]).length) := by
  have htext : d.opening :: (front ++ back) ++ [d.closing] ++ rest =
      d.opening :: (front ++ back ++ d.closing :: rest) := by
    simp
  have hlength : (d.opening :: (front ++ back) ++ [d.closing]).length =
      (front ++ back).length + 2 := by
    simp
    omega
  rw [htext, hlength]
  refine ⟨_, Lexicon.token_opening_eq_some_iff.2 ⟨read, front.length, (front ++ back).length,
    hforest, ?_, ?_, rfl, rfl⟩⟩
  · rw [append_assoc, drop_left, hback, length_append]
  · rw [drop_left]
    rfl

theorem setOff_of_layout {last : Bool} {ts : List Token} {sep s : List Char}
    (hsep : Separator language sep ∨ last = true ∧ sep = [] ∧ ts = [])
    (hts : Layout language last ts s)
    (hlast : last = true → after = []) : SetOff (sep ++ (s ++ after)) ∧ Trivia language sep := by
  rcases hsep with hsep | ⟨rfl, rfl, rfl⟩
  · refine ⟨?_, hsep.trivia⟩
    obtain ⟨b, rest, rfl, hb, -⟩ := hsep
    intro c hc
    cases hc
    exact hb
  · cases hts
    refine ⟨?_, .nil⟩
    rw [hlast rfl]
    intro c hc
    cases hc

theorem forest_of_layout {last : Bool} {ts : List Token} {s : List Char}
    (h : Layout language last ts s) (hgap : Trivia language gap) (hafter : Closes after)
    (hlast : last = true → after = []) (p : Place) :
    ∃ read front back, gap ++ s = front ++ back ∧
      (lexicon language).forest p (gap ++ (s ++ after)) = (read, front.length) ∧
        read.map Token.unplaced = ts.map Token.unplaced ∧
        (lexicon language).blanks (back ++ after) = back.length := by
  induction h generalizing gap after p with
  | nil =>
    obtain ⟨hblanks, htoken⟩ := hafter.reads language (p.after gap)
    have hskip := Lexicon.blanks_of_skips (hgap.skips after) hblanks
    exact ⟨[], [], gap, by simp, Lexicon.forest_of_none hskip htoken, rfl, hskip⟩
  | @leaf last t ts text sep s ht hsep hts ih =>
    have hset := setOff_of_layout hsep hts hlast
    obtain ⟨hne, hblanks, t', htoken, ht'⟩ := ht.reads hset.1 (p.after gap)
    -- the separator behind the leaf is what is skipped in front of the rest
    have hskip := Lexicon.blanks_of_skips (hgap.skips _) hblanks
    obtain ⟨read, front, back, hsplit, hforest, hread, hback⟩ :=
      ih hset.2 hafter hlast (p.after (gap ++ text))
    refine ⟨t' :: read, gap ++ text ++ front, back, ?_, ?_, ?_, hback⟩
    · rw [append_assoc _ front, ← hsplit, append_assoc]
    · rw [append_assoc text, append_assoc sep, Lexicon.forest_of_some hskip htoken hne, hforest]
      simp only [length_append]
    · rw [map_cons, map_cons, ht', hread]
  | @group last d children ts gap₁ inside gap₂ s span line hgap₁ hchildren hgap₂ hts ihChildren
      ih =>
    -- the forest inside ends at the closing delimiter, whatever stands behind the group
    have hcloses : Closes (d.closing :: (gap₂ ++ (s ++ after))) := by
      intro c hc
      cases hc
      exact ⟨d, rfl⟩
    obtain ⟨inner, front₁, back₁, hsplit₁, hforest₁, hinner, hback₁⟩ :=
      ihChildren hgap₁ hcloses (by simp) ((p.after gap).after [d.opening])
    rw [← append_assoc, hsplit₁] at hforest₁
    obtain ⟨span', htoken⟩ := Lexicon.token_group hforest₁ hback₁
    obtain ⟨read, front, back, hsplit, hforest, hread, hback⟩ :=
      ih hgap₂ hafter hlast (p.after (gap ++ (d.opening :: (front₁ ++ back₁) ++ [d.closing])))
    have hskip := Lexicon.blanks_of_skips (hgap.skips _) (d.blanks_opening (lexicon language)
      (front₁ ++ back₁ ++ [d.closing] ++ (gap₂ ++ (s ++ after))))
    have hwhole : gap₁ ++ (inside ++ d.closing :: (gap₂ ++ s)) =
        front₁ ++ back₁ ++ [d.closing] ++ (gap₂ ++ s) := by
      rw [← append_assoc, hsplit₁]
      simp
    rw [hwhole]
    refine ⟨.group d inner span' (p.after gap).line :: read,
      gap ++ (d.opening :: (front₁ ++ back₁) ++ [d.closing]) ++ front,
      back, ?_, ?_, ?_, hback⟩
    · rw [hsplit]
      simp
    · have hforest' := Lexicon.forest_of_some hskip htoken (by simp)
      rw [hforest] at hforest'
      rw [← cons_append, append_assoc _ _ after, append_assoc gap₂]
      refine hforest'.trans ?_
      simp only [length_append]
    · simp [hinner, hread]

def startsName : Language → Char → Bool
  | .java, c => Text.isIdentifierStart c || c == '_' || c == '$'
  | .kotlin, c => Text.isIdentifierStart c || c == '_'

theorem word_of_nameChars {c : Char} {x r : List Char} (hc : startsName language c = true)
    (hx : ∀ c ∈ x, (lexicon language).isNameChar c = true)
    (hr : ∀ c ∈ r.head?, (lexicon language).isNameChar c = false) :
    (lexicon language).word (c :: (x ++ r)) = some (x.length + 1) := by
  have htake : (x ++ r).takeWhile (lexicon language).isNameChar = x := by
    rw [takeWhile_append_of_pos hx]
    cases r with
    | nil => simp
    | cons d r => rw [takeWhile_cons_of_neg (by simp [hr d rfl]), append_nil]
  cases language with
  | java =>
    simp only [startsName] at hc
    simp only [lexicon, Lexicon.java, Java.word, hc, if_true] at htake ⊢
    rw [htake]
  | kotlin =>
    have hquote : c ≠ '\x60' := by
      rintro rfl
      exact absurd hc (by decide)
    simp only [startsName] at hc
    simp only [lexicon, Lexicon.kotlin, Kotlin.word_plain hquote, hc, if_true] at htake ⊢
    rw [htake]

def headerWords : List String :=
  ["package", "import"]

theorem word_of_headerWord {w : String} (hw : w ∈ headerWords) {r : List Char}
    (hr : ∀ c ∈ r.head?, (lexicon language).isNameChar c = false) :
    (lexicon language).word (w.toList ++ r) = some w.toList.length := by
  simp only [headerWords, mem_cons, not_mem_nil, or_false] at hw
  rcases hw with rfl | rfl
  · exact word_of_nameChars (c := 'p') (x := ['a', 'c', 'k', 'a', 'g', 'e'])
      (by cases language <;> decide)
      (all_eq_true.1 (by cases language <;> decide)) hr
  · exact word_of_nameChars (c := 'i') (x := ['m', 'p', 'o', 'r', 't'])
      (by cases language <;> decide)
      (all_eq_true.1 (by cases language <;> decide)) hr

theorem keyword_eq_none {L : Lexicon} {w : String} {s : List Char} (p : Place)
    (h : ∀ r, s = w.toList ++ r → ¬ ∀ c ∈ r.head?, L.isNameChar c = false) :
    Header.keyword L w p s = none := by
  rw [Header.keyword, if_neg]
  intro hkeyword
  rw [Bool.and_eq_true, List.isPrefixOf_iff_prefix] at hkeyword
  obtain ⟨⟨r, rfl⟩, hr⟩ := hkeyword
  refine h r rfl fun c hc => ?_
  rw [← String.length_toList, drop_left] at hr
  rw [Option.mem_def.1 hc] at hr
  simpa using hr

/-- A token with which a header would go on: one of these words, or the sign of an annotation. -/
def StartsHeader (t : Token) : Prop :=
  (∃ w ∈ headerWords, t.isWord w = true) ∨ t.isSymbol '@' = true

theorem noHeader_of {s : List Char} (hblanks : (lexicon language).blanks s = 0)
    (hat : s.head? ≠ some '@')
    (hscript : ∀ r, s ≠ '#' :: '!' :: r)
    (hword : ∀ w ∈ headerWords, ∀ r, s = w.toList ++ r →
    ¬ ∀ c ∈ r.head?, (lexicon language).isNameChar c = false) :
    NoHeader (lexicon language) s := by
  refine ⟨hblanks, hat, ?_, fun p => keyword_eq_none p (hword _ (by decide)), fun p =>
    keyword_eq_none p (hword _ (by decide))⟩
  by_contra h
  rw [Bool.not_eq_false, List.isPrefixOf_iff_prefix] at h
  obtain ⟨r, rfl⟩ := h
  exact hscript r rfl

theorem headerWord_cons {w : String} (hw : w ∈ headerWords) :
    ∃ c d x, w.toList = c :: d :: x ∧ (c = 'p' ∨ c = 'i') ∧ isBlank d = false := by
  simp only [headerWords, mem_cons, not_mem_nil, or_false] at hw
  rcases hw with rfl | rfl
  · exact ⟨'p', 'a', _, rfl, .inl rfl, by decide⟩
  · exact ⟨'i', 'm', _, rfl, .inr rfl, by decide⟩

theorem noHeader_of_head {c : Char} {r : List Char}
    (hblanks : (lexicon language).blanks (c :: r) = 0)
    (hc : c ∉ ['@', '#', 'p', 'i']) : NoHeader (lexicon language) (c :: r) := by
  simp only [mem_cons, not_mem_nil, or_false, not_or] at hc
  refine noHeader_of hblanks (by simpa using hc.1) (fun r' heq => ?_) fun w hw r' heq => ?_
  · exact absurd (List.cons.inj heq).1 hc.2.1
  · obtain ⟨c', d, x, hcons, hc', -⟩ := headerWord_cons hw
    rw [hcons] at heq
    obtain rfl : c = c' := (List.cons.inj heq).1
    rcases hc' with rfl | rfl
    · exact absurd rfl hc.2.2.1
    · exact absurd rfl hc.2.2.2

theorem noHeader_of_opening (d : Delimiter) (r : List Char) :
    NoHeader (lexicon language) (d.opening :: r) :=
  noHeader_of_head (d.blanks_opening _ r) (by cases d <;> decide)

theorem noHeader_nil : NoHeader (lexicon language) [] := by
  refine noHeader_of (by rw [Lexicon.blanks]) (by simp) (fun r heq => by
    cases heq) fun w hw r heq => ?_
  obtain ⟨c, d, x, hcons, -⟩ := headerWord_cons hw
  rw [hcons] at heq
  cases heq

theorem noHeader_of_leaf {t : Token} (ht : Leaf language t text) (hafter : SetOff after)
    (hfirst : ¬ StartsHeader t) :
    NoHeader (lexicon language) (text ++ after) := by
  obtain ⟨hne, hblanks, -⟩ := ht.reads hafter (.start [])
  obtain ⟨c, x, rfl⟩ := exists_cons_of_ne_nil hne
  cases ht with
  | literal h hstring =>
    have hstart := startsLiteral_of_literal (literal_whole h hstring after hafter)
    refine noHeader_of_head hblanks fun hmem => ?_
    simp only [mem_cons, not_mem_nil, or_false] at hmem
    rcases hmem with rfl | rfl | rfl | rfl <;> cases hstart
  | word h =>
    have hread := word_whole h after hafter
    have hstart := startsWord_of_word hread
    refine noHeader_of hblanks ?_ (fun r heq => ?_) fun w hw r heq hr => ?_
    · intro hat
      cases hat
      exact absurd hstart (by decide)
    · obtain rfl : c = '#' := (List.cons.inj heq).1
      exact absurd hstart (by decide)
    · -- the word would be taken as far as the header's word goes, so it would be that word
      rw [heq, word_of_headerWord hw hr, Option.some.injEq] at hread
      have htext : c :: x = w.toList := (append_inj heq hread.symm).1
      have hbare : ∀ w ∈ headerWords, Lexicon.bareName w.toList = w := by decide
      refine hfirst (.inl ⟨w, hw, ?_⟩)
      rw [htext, hbare w hw]
      simp [Token.isWord, Token.word?]
  | symbol hc hb hliteral hword hsymbol hquote =>
    refine noHeader_of hblanks ?_ (fun r heq => ?_) fun w hw r heq _ => ?_
    · intro hat
      cases hat
      exact hfirst (.inr rfl)
    · obtain rfl : after = '!' :: r := (List.cons.inj heq).2
      exact hafter.head_ne (c := '!') (by decide) rfl
    · obtain ⟨c', d, x, hcons, -, hd⟩ := headerWord_cons hw
      rw [hcons] at heq
      obtain rfl : after = d :: (x ++ r) := (List.cons.inj heq).2
      exact hafter.head_ne hd rfl

theorem noHeader_of_layout {ts : List Token} {s : List Char} (h : Layout language true ts s)
    (hfirst : ∀ t ∈ ts.head?, ¬ StartsHeader t) : NoHeader (lexicon language) s := by
  cases h with
  | nil => exact noHeader_nil
  | leaf ht hsep hts =>
    have hset := (setOff_of_layout hsep hts fun _ => rfl).1
    rw [append_nil] at hset
    exact noHeader_of_leaf ht hset (hfirst _ rfl)
  | group => exact noHeader_of_opening _ _

/-- A forest may be written with any blanks and comments between its tokens: reading such a
text gives the forest, apart from positions, and with it the same calls and declarations. -/
theorem parse_layout {ts : List Token} {s : List Char} (file : String) (hgap : Trivia language gap)
    (h : Layout language true ts s) (hfirst : ∀ t ∈ ts.head?, ¬ StartsHeader t) :
    ∃ outline read, parse language (String.ofList (gap ++ s)) file = .ok outline ∧
      outline.package = none ∧ outline.imports = [] ∧
      body? (lexicon language) ((Place.start (gap ++ s)).after gap) s = some read ∧
      read.map Token.unplaced = ts.map Token.unplaced ∧
      outline.calls.map Call.unplaced = (findings language ts).calls.map Call.unplaced ∧
      outline.functions.map Function.unplaced =
        (findings language ts).functions.map Function.unplaced := by
  have hheader := noHeader_of_layout h hfirst
  have hskip := Lexicon.blanks_of_skips (hgap.skips s) hheader.blanks
  have hend : Closes [] := fun c hc => by cases hc
  obtain ⟨read, front, back, hsplit, hforest, hread, hback⟩ :=
    forest_of_layout h .nil hend (fun _ => rfl) ((Place.start (gap ++ s)).after gap)
  rw [nil_append] at hsplit
  rw [nil_append, append_nil] at hforest
  rw [append_nil] at hback
  have hbody : body? (lexicon language) ((Place.start (gap ++ s)).after gap) s = some read := by
    rw [body?, hforest]
    simp only []
    rw [hsplit, drop_left, if_pos hback]
  have hfound : (findings language read).unplaced = (findings language ts).unplaced := by
    rw [← findings_unplaced, ← findings_unplaced, hread]
  refine ⟨⟨none, [], (findings language read).calls, (findings language read).functions⟩, read,
    ?_, rfl, rfl, hbody, hread,
    congrArg Findings.calls hfound, congrArg Findings.functions hfound⟩
  refine parse_eq_ok_iff.2 ⟨gap.length, read, ?_, ?_, rfl, rfl⟩
  · rw [String.toList_ofList]
    exact header_of_noHeader hskip hheader _
  · rw [String.toList_ofList, take_left, drop_left]
    exact hbody

def callTokens : List Token :=
  [.word "f" default 0, .group .paren [.literal "\"a\"" default 0] default 0, .symbol ';' default 0]

theorem whole_quoted_a : Whole Kotlin.literal ['"', 'a', '"'] := by
  intro after hafter
  simp [Kotlin.literal, Kotlin.string, Kotlin.stringTail, Kotlin.plainTail]

theorem isBlockComment_x : IsBlockComment .kotlin [' ', 'x', ' '] := by
  intro rest
  simp [Kotlin.commentTail]

theorem layout_callTokens : Layout .kotlin true callTokens "f /* x */ (// y\n\"a\" );".toList := by
  have hf : Alone (lexicon .kotlin).word ['f'] := ⟨' ', by decide, by decide⟩
  have hname : Leaf .kotlin (.word "f" default 0) ['f'] := .word hf
  have hstring : Leaf .kotlin (.literal "\"a\"" default 0) ['"', 'a', '"'] :=
    .literal ⟨' ', by decide, whole_quoted_a _ (setOff_singleton (by decide))⟩ fun _ _ =>
      whole_quoted_a
  have hend : Leaf .kotlin (.symbol ';' default 0) [';'] :=
    .symbol (b := ' ') (by decide) (by decide) (by decide) (by decide) (by decide) (by simp)
  have hcomment : Separator .kotlin
      (' ' :: ('/' :: '*' :: [' ', 'x', ' '] ++ ['*', '/'] ++ [' '])) :=
    ⟨' ', _, rfl, by decide, .block isBlockComment_x (.blank (by decide) .nil)⟩
  have hline : Trivia .kotlin ('/' :: '/' :: [' ', 'y'] ++ ['\n']) :=
    .line (by simp [isLineEnd]) (by decide) .nil
  have hblank : Separator .kotlin [' '] := ⟨' ', [], rfl, by decide, .nil⟩
  exact .leaf hname (.inl hcomment)
    (.group hline (.leaf hstring (.inl hblank) .nil) .nil (.leaf hend (.inr ⟨rfl, rfl, rfl⟩) .nil))

theorem parse_layout_callTokens :
    ∃ outline, parse .kotlin (String.ofList "f /* x */ (// y\n\"a\" );".toList) "Main.kt" =
      .ok outline ∧
      outline.calls.map Call.unplaced = (findings .kotlin callTokens).calls.map Call.unplaced := by
  have hfirst : ∀ t ∈ callTokens.head?, ¬ StartsHeader t := by
    intro t ht
    cases ht
    rintro (⟨w, hw, h⟩ | h)
    · have hname : "f" = w := by simpa [Token.isWord, Token.word?] using h
      exact absurd hw (by rw [← hname]; decide)
    · cases h
  obtain ⟨outline, read, hparse, -, -, -, -, hcalls, -⟩ :=
    parse_layout "Main.kt" .nil layout_callTokens hfirst
  exact ⟨outline, hparse, hcalls⟩

def templateTokens : List Token :=
  [.literal "\"$\x7b\"" default 0, .word "g" default 0, .group .paren [] default 0,
    .literal "\"\x7d\"" default 0]

/-- A string that holds the opening of a template ends by itself in front of a blank, but not
where a closing brace in another string follows: the two strings and the call between them
become one literal. So does a comment that holds the opening of another one end by itself, but
not where a closing mark follows. -/
theorem not_parse_layout_of_alone :
    (Alone Kotlin.literal "\"$\x7b\"".toList ∧ Alone Kotlin.word "g".toList ∧
    Alone Kotlin.literal "\"\x7d\"".toList ∧
      (findings .kotlin templateTokens).calls.map (·.name) = ["g"] ∧
      parse .kotlin "\"$\x7b\" g ( ) \"\x7d\" " "Main" = .ok {}) ∧
    Kotlin.commentTail " /*/".toList = some 4 ∧ Alone Kotlin.literal "\"*/\"".toList ∧
      parse .kotlin "f ( ) /* /*/ \"*/\" " "Main" = .error ⟨"Main"⟩ := by
  refine ⟨⟨⟨' ', by decide, ?_⟩, ⟨' ', by decide, ?_⟩, ⟨' ', by decide, ?_⟩, ?_, ?_⟩, ?_,
    ⟨' ', by decide, ?_⟩, ?_⟩
  · with_unfolding_all rfl
  · with_unfolding_all rfl
  · with_unfolding_all rfl
  · simp [templateTokens, findings, Kotlin.findings, Kotlin.declarations, Kotlin.nested,
      Kotlin.callAt?, Kotlin.keywords, Kotlin.declarators, Token.word?, Token.isGroup,
      Token.children?, Token.isSymbol, Token.isWord, Token.isWordIn]
  · refine parse_eq_ok_iff.2 ⟨0, [.literal "\"$\x7b\" g ( ) \"\x7d\"" ⟨0, 14⟩ 1], ?_, ?_, ?_, ?_⟩
    · with_unfolding_all rfl
    · with_unfolding_all rfl
    · simp [findings, Kotlin.findings, Kotlin.declarations, Kotlin.nested, Kotlin.callAt?,
        Token.word?, Token.isWord]
    · simp [findings, Kotlin.findings, Kotlin.declarations, Kotlin.nested, Kotlin.callAt?,
        Token.word?, Token.isWord]
  · with_unfolding_all rfl
  · with_unfolding_all rfl
  · with_unfolding_all rfl

end WitnessReplay.Source
