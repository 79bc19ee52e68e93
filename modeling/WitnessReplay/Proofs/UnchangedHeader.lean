import WitnessReplay.Proofs.ScriptLine
import WitnessReplay.Proofs.SteadyScanners

/-!
# Headers in front of a replaced part

The header of a Kotlin file ends where nothing follows that belongs to a header. If a part of
the body is replaced, the header ends at the same place, since each rule for a part of a header
is steady.
-/

namespace WitnessReplay.Source

open Text List

section Parts

variable {w w' y : List Char}

theorem firm_blanks : Firm w w' y (Header.blanks .kotlin) := by
  have hback {p : Place} {a : List Char} {v : Unit} {n : Nat}
      (h : Header.blanks .kotlin p (a ++ (w ++ y)) = some (v, n))
        (hn : n ≤ a.length) (hafter : Precedes w w' y (p.after (a.take n)) (a.drop n)) :
          Precedes w w' y p a := by
    obtain ⟨gap, rest, hsplit, hlength, hskips⟩ :=
      Lexicon.lawful_kotlin.skips_blanks (a ++ (w ++ y))
    obtain rfl : n = gap.length := (Prod.mk.inj (Option.some.inj h)).2.symm.trans hlength
    obtain ⟨r, rfl, rfl⟩ := exists_of_append_eq hsplit hn
    rw [take_left, drop_left] at hafter
    exact hafter.append [] (.of_skips hskips p)
  refine ⟨⟨hback, fun {p a v n} h hn hafter => ?_, fun _ h => ?_⟩, fun {p a v n} ha h => ?_⟩
  · obtain ⟨gap, r, rfl, -, -, hblanks⟩ := (hback h hn hafter).exists_blanks
    rw [← h, Header.blanks, Header.blanks, hblanks w (.inl rfl), hblanks w' (.inr rfl)]
  · cases h
  · obtain ⟨gap, r, rfl, hr, -, hblanks⟩ := ha.exists_blanks
    obtain ⟨-, rfl⟩ := Prod.mk.inj (Option.some.inj h)
    rw [hblanks w (.inl rfl), take_left, drop_left]
    exact ⟨by simp, hr⟩

/-- The marks in headers and in types: characters that are a token by themselves, whatever
follows. -/
def marks : List Char :=
  ['.', ':', ';', '*', '@', '#', '<', '>']

theorem starts_mark {c : Char} (hc : c ∈ marks) (p : Place) (r : List Char) :
    Lexicon.kotlin.Starts p (.leaf (.symbol c (Span.of p [c]) p.line)) [c] r := by
  have hfirst : isBlank c = false ∧ c ≠ '/' ∧ Delimiter.ofOpening? c = none ∧
      startsLiteral c = false ∧ startsWord c = false ∧
        (Delimiter.isDelimiter c || c == '"' || c == '\'') = false := by
    simp only [marks, mem_cons, not_mem_nil, or_false] at hc
    rcases hc with rfl | rfl | rfl | rfl | rfl | rfl | rfl | rfl <;> decide
  obtain ⟨hblank, hslash, hopening, hliteral, hword, hsymbol⟩ := hfirst
  have hnone : (lexicon .kotlin).word (c :: r) = none := by
    by_contra hsome
    obtain ⟨n, hn⟩ := Option.ne_none_iff_exists'.1 hsome
    cases hword.symm.trans (startsWord_of_word hn)
  refine .leaf (Lexicon.kotlin.blanks_of_startsLeaf ⟨hblank, hslash, hopening⟩ r)
    (Lexicon.leaf_of_symbol ?_ hnone ?_)
  · exact literal_eq_none .kotlin hliteral r
  · rw [symbol_cons, if_neg fun h => hslash h.1, hsymbol]
    rfl

theorem firm_text {t : String} {c : Char} (ht : t.toList = [c]) (hc : c ∈ marks) :
    Firm w w' y (Scanner.text t) := by
  have hsome {p : Place} {s : List Char} {v : Unit} {n : Nat}
      (h : Scanner.text t p s = some (v, n)) : n = 1 ∧ ∃ r, s = [c] ++ r := by
    rw [text_eq_some_iff, ht] at h
    exact h
  have hsame {p : Place} {a : List Char} (ha : a ≠ []) : Scanner.text t p (a ++ (w' ++ y)) =
      Scanner.text t p (a ++ (w ++ y)) := by
    obtain ⟨d, r, rfl⟩ := exists_cons_of_ne_nil ha
    rw [Scanner.text, Scanner.text, ht]
    rfl
  refine ⟨⟨fun {p a v n} h hn hafter => ?_, fun {p a v n} h hn hafter => ?_, fun {p a} ha h =>
    ?_⟩, fun {p a v n} ha h => ?_⟩
  · obtain ⟨rfl, r, hr⟩ := hsome h
    obtain ⟨r, rfl, rfl⟩ := exists_of_append_eq hr hn
    exact hafter.leaf_append (starts_mark hc p _)
  · obtain ⟨rfl, -⟩ := hsome h
    rwa [hsame (ne_nil_of_length_pos hn)]
  · rwa [hsame ha.ne_nil]
  · obtain ⟨rfl, r, hr⟩ := hsome h
    obtain ⟨r, rfl, -, hr⟩ := ha.exists_of_starts (.inl rfl) hr (starts_mark hc p r) rfl
    exact ⟨by simp, hr⟩

def PlainName (k : String) : Prop :=
  ∃ c x, k.toList = c :: x ∧ isIdentifierStart c = true ∧ ∀ d ∈ x, isIdentifierContinue d = true

theorem starts_plainName {k : String} (hk : PlainName k) (p : Place) {r : List Char}
    (hr : ∀ c ∈ r.head?, isIdentifierContinue c = false) :
    Lexicon.kotlin.Starts p (.leaf (.word k (Span.of p k.toList) p.line)) k.toList r := by
  obtain ⟨c, x, hcons, hstart, hname⟩ := hk
  have hquote : '\x60' ∉ k.toList := by
    rw [hcons]
    intro hmem
    obtain rfl | hmem := mem_cons.1 hmem
    · exact absurd hstart (by decide)
    · exact absurd (hname _ hmem) (by decide)
  have hbare : Lexicon.bareName (c :: x) = k := by
    rw [← hcons, bareName_of_encloses (.plain hquote), String.ofList_toList]
  have hplain : startsName .kotlin c = true := by rw [startsName, hstart, Bool.true_or]
  have hword : (lexicon .kotlin).word (c :: (x ++ r)) = some (x.length + 1) :=
    word_of_nameChars hplain hname hr
  have hfirst := startsWord_of_word hword
  have hliteral : (lexicon .kotlin).literal (c :: (x ++ r)) = none :=
    literal_eq_none .kotlin (startsLiteral_of_startsWord hfirst) _
  rw [hcons]
  refine .leaf (Lexicon.kotlin.blanks_of_startsLeaf (startsLeaf_of_startsWord hfirst) _) ?_
  rw [Lexicon.leaf_of_word hliteral hword, hbare]

def headerKeywords : List String :=
  ["package", "import", "as", "file"]

theorem plainName_of_mem {k : String} (hk : k ∈ headerKeywords) : PlainName k := by
  simp only [headerKeywords, mem_cons, not_mem_nil, or_false] at hk
  rcases hk with rfl | rfl | rfl | rfl <;> exact ⟨_, _, rfl, by decide, all_eq_true.1 (by decide)⟩

theorem firm_keyword {k : String} (hk : k ∈ headerKeywords) :
    Firm w w' y (Header.keyword .kotlin k) := by
  have hfun (p : Place) : (Token.word k (Span.of p k.toList) p.line).isWord "fun" = false := by
    simp only [headerKeywords, mem_cons, not_mem_nil, or_false] at hk
    rcases hk with rfl | rfl | rfl | rfl <;> rfl
  -- where something of `a` is behind the word, this is what ends it
  have hsame {r v v' : List Char} (hr : r ≠ []) (h : ∀ c ∈ (r ++ v).head?,
      isIdentifierContinue c = false) :
        ∀ c ∈ (r ++ v').head?, isIdentifierContinue c = false := by
    obtain ⟨d, r, rfl⟩ := exists_cons_of_ne_nil hr
    exact h
  refine ⟨⟨fun {p a v n} h hn hafter => ?_, fun {p a v n} h hn hafter => ?_, fun {p a} ha h =>
    ?_⟩, fun {p a v n} ha h => ?_⟩
  · obtain ⟨rfl, r, hsplit, hr⟩ := keyword_eq_some_iff.1 h
    obtain ⟨r, rfl, rfl⟩ := exists_of_append_eq hsplit hn
    rw [take_left, drop_left] at hafter
    exact hafter.leaf_append (starts_plainName (plainName_of_mem hk) p hr)
  · obtain ⟨rfl, r, hsplit, hr⟩ := keyword_eq_some_iff.1 h
    obtain ⟨r, rfl, rfl⟩ := exists_of_append_eq hsplit hn
    rw [drop_left] at hafter
    exact keyword_eq_some_iff.2 ⟨rfl, r ++ (w' ++ y), by simp, hsame hafter.ne_nil hr⟩
  · by_contra hsome
    obtain ⟨⟨v, n⟩, hn⟩ := Option.ne_none_iff_exists'.1 hsome
    obtain ⟨rfl, r, hsplit, hr⟩ := keyword_eq_some_iff.1 hn
    obtain ⟨r, rfl, rfl, hafter⟩ :=
      ha.exists_of_starts (.inr rfl) hsplit (starts_plainName (plainName_of_mem hk) p hr) (hfun p)
    have hkeyword : Header.keyword .kotlin k p (k.toList ++ r ++ (w ++ y)) =
        some ((), k.toList.length) :=
      keyword_eq_some_iff.2 ⟨rfl, r ++ (w ++ y), by simp, hsame hafter.ne_nil hr⟩
    cases h.symm.trans hkeyword
  · obtain ⟨rfl, r, hsplit, hr⟩ := keyword_eq_some_iff.1 h
    obtain ⟨r, rfl, -, hafter⟩ :=
      ha.exists_of_starts (.inl rfl) hsplit (starts_plainName (plainName_of_mem hk) p hr) (hfun p)
    rw [take_left, drop_left]
    exact ⟨by simp, hafter⟩

theorem starts_name {text r : List Char} (h : Lexicon.kotlin.word (text ++ r) = some text.length)
    (p : Place) :
    Lexicon.kotlin.Starts p (.leaf (.word (Lexicon.bareName text) (Span.of p text) p.line)) text
    r := by
  obtain ⟨c, x, rfl⟩ := exists_cons_of_ne_nil (ne_nil_of_length_pos (Kotlin.encloses_word h).1)
  have hword : (lexicon .kotlin).word (c :: (x ++ r)) = some (x.length + 1) := h
  have hfirst := startsWord_of_word hword
  have hliteral : (lexicon .kotlin).literal (c :: (x ++ r)) = none :=
    literal_eq_none .kotlin (startsLiteral_of_startsWord hfirst) _
  exact .leaf (Lexicon.kotlin.blanks_of_startsLeaf (startsLeaf_of_startsWord hfirst) _)
    (Lexicon.leaf_of_word hliteral h)

theorem steady_name : Steady w w' y (Header.name .kotlin) := by
  have hback {p : Place} {a : List Char} {v : String} {n : Nat}
      (h : Header.name .kotlin p (a ++ (w ++ y)) = some (v, n))
        (hn : n ≤ a.length) (hafter : Precedes w w' y (p.after (a.take n)) (a.drop n)) :
          Precedes w w' y p a := by
    obtain ⟨hword, -⟩ := name_eq_some_iff.1 h
    rw [← take_append_drop n a] at hword ⊢
    refine hafter.leaf_append (starts_name ?_ p)
    rwa [length_take_of_le hn, ← append_assoc]
  have hkeeps {p : Place} {a : List Char} (ha : Precedes w w' y p a) :
      Keeps Lexicon.kotlin.word a (w ++ y) (w' ++ y) := by
    obtain ⟨c, r, rfl⟩ := exists_cons_of_ne_nil ha.ne_nil
    exact Kotlin.keeps_word ha.border y
  refine ⟨hback, fun {p a v n} h hn hafter => ?_, fun {p a} ha h => ?_⟩
  · obtain ⟨hword, rfl⟩ := name_eq_some_iff.1 h
    refine name_eq_some_iff.2 ⟨(hkeeps (hback h hn hafter)).some_eq hn hword, ?_⟩
    rw [take_append_of_le_length hn, take_append_of_le_length hn]
  · rw [Header.name, Option.map_eq_none_iff] at h ⊢
    exact (hkeeps ha).none_eq h

/-- What a group in a header is: delimiters with a forest between them. -/
theorem exists_of_group {d : Delimiter} {p : Place} {s : List Char} {t : Token} {n : Nat}
    (h : Header.group .kotlin d p s = some (t, n)) :
    ∃ inside after children, s = d.opening :: (inside ++ d.closing :: after) ∧
      n = inside.length + 2 ∧
        t = .group d children (Span.of p (d.opening :: (inside ++ [d.closing]))) p.line ∧
        Lexicon.kotlin.Reads (p.after [d.opening]) inside (d.closing :: after)
      (Token.itemsAll children) := by
  obtain ⟨htoken, hgroup⟩ := group_eq_some_iff.1 h
  cases s with
  | nil => simp [Lexicon.token] at htoken
  | cons c r =>
    cases hc : Delimiter.ofOpening? c with
    | none =>
      rw [Lexicon.token_of_not_opening hc] at htoken
      cases t with
      | group => cases items_of_leaf htoken
      | _ => cases hgroup
    | some d' =>
      obtain rfl := Delimiter.ofOpening?_eq_some_iff.1 hc
      have hkotlin : (lexicon .kotlin).token p (d'.opening :: r) = some (t, n) := htoken
      obtain ⟨inside, after, children, rfl, rfl, rfl, hreads⟩ :=
        exists_inside ((reads_tokens .kotlin).2 _ r) hkotlin
      obtain rfl : d' = d := by simpa [Token.isGroup, Token.children?] using hgroup
      exact ⟨inside, after, children, rfl, rfl, rfl, hreads⟩

theorem group_of_reads {d : Delimiter} {p : Place} {inside after : List Char}
    {children : List Token}
    (h : Lexicon.kotlin.Reads (p.after [d.opening]) inside (d.closing :: after)
    (Token.itemsAll children)) :
    Header.group .kotlin d p (d.opening :: (inside ++ d.closing :: after)) =
      some (.group d children (Span.of p (d.opening :: (inside ++ [d.closing]))) p.line,
      inside.length + 2) := by
  have hreads : (lexicon .kotlin).Reads (p.after [d.opening]) inside (d.closing :: after)
      (Token.itemsAll children) := h
  exact group_eq_some_iff.2
    ⟨token_of_forestOf (forest_of_reads children (.closing d after) hreads), by
    simp [Token.isGroup, Token.children?]⟩

theorem Precedes.group_ne_none {d : Delimiter} {p : Place} {b : List Char}
    (h : Precedes w w' y p (d.opening :: b)) :
    Header.group .kotlin d p (d.opening :: b ++ (w ++ y)) ≠ none := by
  obtain ⟨front, back, ts, hfront, hback, hts, span, line, hfun⟩ := h.reads
  cases front with
  | nil => cases hfun
  | cons i front =>
    obtain ⟨gap, text, r, hsplit, hgap, hstarts, hr⟩ := hfront.exists_of_cons
    have hwhole : d.opening :: b ++ (w ++ y) = gap ++ (text ++ (r ++ (w ++ y))) := by
      rw [hsplit]; simp
    have hblanks := Lexicon.blanks_of_skips hgap hstarts.blanks_eq
    rw [← hwhole, cons_append, d.blanks_opening] at hblanks
    obtain rfl := length_eq_zero_iff.1 hblanks.symm
    have hopening : (lexicon .kotlin).Starts p (.opening d p.offset p.line) [d.opening]
        (b ++ (w ++ y)) := .opening
    have hfirst : (lexicon .kotlin).Starts p i text (r ++ (w ++ y)) := by
      rwa [Place.after_nil] at hstarts
    obtain ⟨rfl, rfl⟩ := starts_unique (by simpa using hwhole) hopening hfirst
    obtain rfl : b = r := by simpa using hsplit
    rw [cons_append] at hts
    obtain ⟨children, stop, rest, -, hmore⟩ := Token.itemsAll_eq_opening_cons hts
    have hbehind : (lexicon .kotlin).Reads (p.after [d.opening]) (b ++ (w ++ y)) []
        (front ++ back) := by
      refine Lexicon.Reads.append ?_ ?_
      · rw [append_nil]
        exact hr
      · rw [← Place.after_append]
        exact hback
    rw [← hmore] at hbehind
    obtain ⟨inside, after, hinside, htoken, -⟩ := token_of_reads (forest_of_reads children) hbehind
    rw [append_nil] at htoken
    have hgroup : Header.group .kotlin d p (d.opening :: (b ++ (w ++ y))) = some (_, _) :=
      group_eq_some_iff.2 ⟨htoken, by simp [Token.isGroup, Token.children?]⟩
    rw [cons_append, hgroup]
    exact Option.some_ne_none _

theorem steady_group (d : Delimiter) : Steady w w' y (Header.group .kotlin d) := by
  have hinside {p : Place} {a : List Char} {t : Token} {n : Nat}
      (h : Header.group .kotlin d p (a ++ (w ++ y)) = some (t, n))
        (hn : n ≤ a.length) : ∃ inside r children, a = d.opening :: (inside ++ [d.closing]) ++ r ∧
          n = inside.length + 2 ∧
          t = .group d children (Span.of p (d.opening :: (inside ++ [d.closing]))) p.line ∧
          Lexicon.kotlin.Reads (p.after [d.opening]) inside (d.closing :: (r ++ (w ++ y)))
          (Token.itemsAll children) := by
    obtain ⟨inside, after, children, hsplit, rfl, rfl, hreads⟩ := exists_of_group h
    have htext : a ++ (w ++ y) = d.opening :: (inside ++ [d.closing]) ++ after := by
      simpa using hsplit
    obtain ⟨r, rfl, rfl⟩ :=
      exists_of_append_eq htext (by
        simp only [length_cons, length_append, length_nil]
        omega)
    exact ⟨inside, r, children, rfl, rfl, rfl, hreads⟩
  have hback {p : Place} {a : List Char} {t : Token} {n : Nat}
      (h : Header.group .kotlin d p (a ++ (w ++ y)) = some (t, n))
        (hn : n ≤ a.length) (hafter : Precedes w w' y (p.after (a.take n)) (a.drop n)) :
          Precedes w w' y p a := by
    obtain ⟨inside, r, children, rfl, rfl, rfl, hreads⟩ := hinside h hn
    have hlength : inside.length + 2 = (d.opening :: (inside ++ [d.closing])).length := by simp
    rw [hlength, take_left, drop_left] at hafter
    refine hafter.append [.group d children (Span.of p (d.opening :: (inside ++ [d.closing])))
      p.line] ?_
    rw [Token.itemsAll_singleton]
    exact reads_group hreads
  refine ⟨hback, fun {p a t n} h hn hafter => ?_, fun {p a} ha h => ?_⟩
  · have ha := hback h hn hafter
    obtain ⟨inside, r, children, rfl, rfl, rfl, hreads⟩ := hinside h hn
    have hborder : Interchangeable (inside ++ (d.closing :: r)) w w' := by
      refine Interchangeable.of_append (x := [d.opening]) ?_
      simpa using ha.border
    have hreads' := Lexicon.Reads.of_interchangeable (b := d.closing :: r) hborder hreads
    simpa using group_of_reads hreads'
  · by_contra hsome
    obtain ⟨⟨t, n⟩, hn⟩ := Option.ne_none_iff_exists'.1 hsome
    obtain ⟨inside, after, children, hsplit, -⟩ := exists_of_group hn
    obtain ⟨c, b, rfl⟩ := exists_cons_of_ne_nil ha.ne_nil
    obtain rfl := (List.cons.inj hsplit).1
    exact ha.group_ne_none h

theorem steady_scriptLine : Steady w w' y Kotlin.scriptLine := by
  have hlong {p : Place} {a : List Char} {v : Unit} {n : Nat}
      (h : Kotlin.scriptLine p (a ++ (w ++ y)) = some (v, n))
        (hn : n ≤ a.length) (hafter : Precedes w w' y (p.after (a.take n)) (a.drop n)) : False := by
    by_cases hstarts : ['#', '!'].isPrefixOf (a ++ (w ++ y)) = true
    · obtain ⟨rest, hrest⟩ := List.isPrefixOf_iff_prefix.1 hstarts
      obtain ⟨taken, left, htext, hscript, hleft⟩ := Kotlin.scriptLine_of_sign p rest
      rw [← hrest] at h
      obtain ⟨-, rfl⟩ := Prod.mk.inj (Option.some.inj (h.symm.trans hscript))
      -- the blanks behind the line do not go beyond `a`, in which a token follows them
      obtain ⟨r, rfl, rfl⟩ := exists_of_append_eq (hrest.symm.trans htext) hn
      rw [take_left, drop_left] at hafter
      obtain ⟨gap, r, rfl, hr, -, hblanks⟩ := hafter.exists_blanks
      have hpos := length_pos_iff.2 hr.ne_nil
      rw [hblanks w (.inl rfl)] at hleft
      simp only [length_append] at hleft
      omega
    · rw [Kotlin.scriptLine_eq_none (Bool.eq_false_iff.2 hstarts)] at h
      cases h
  refine ⟨fun h hn hafter => (hlong h hn hafter).elim, fun h hn hafter =>
    (hlong h hn hafter).elim, fun {p a} ha h => ?_⟩
  by_cases hstarts : ['#', '!'].isPrefixOf (a ++ (w' ++ y)) = true
  · obtain ⟨rest, hrest⟩ := List.isPrefixOf_iff_prefix.1 hstarts
    -- both characters of the sign are in `a`
    have hsign : a ++ (w' ++ y) = ['#'] ++ '!' :: rest := hrest.symm
    obtain ⟨b, rfl, hb, hbehind⟩ :=
      ha.exists_of_starts (.inr rfl) hsign (starts_mark (by decide) p _) rfl
    obtain ⟨c, b, rfl⟩ := exists_cons_of_ne_nil hbehind.ne_nil
    obtain rfl := (List.cons.inj hb).1
    obtain ⟨taken, left, -, hscript, -⟩ := Kotlin.scriptLine_of_sign p (b ++ (w ++ y))
    cases h.symm.trans hscript
  · exact Kotlin.scriptLine_eq_none (Bool.eq_false_iff.2 hstarts) p

theorem firm_here : Firm w w' y Scanner.here := by
  refine ⟨⟨fun h _ hafter => ?_, fun h _ _ => ?_, fun _ h => ?_⟩, fun ha h => ?_⟩
  · cases h
    simpa using hafter
  · cases h
    rfl
  · cases h
  · cases h
    exact ⟨Nat.zero_le _, by simpa using ha⟩

theorem sure_blanks : Sure w w' y (Header.blanks .kotlin) :=
  ⟨firm_blanks.toSteady, fun _ _ h => by cases h⟩

/-- The sign of an annotation and the word behind it may be taken one after the other, if what
follows does not go on with the word. -/
theorem text_bind_eq {α : Type} {g : Scanner α}
    (hg : ∀ p r, (∃ c ∈ r.head?, isIdentifierContinue c = true) → g p r = none) :
    (do Scanner.text "@file"; g) = (do Scanner.text "@"; Header.keyword .kotlin "file"; g) := by
  funext p s
  by_cases hsign : ∃ r, s = "@".toList ++ r
  · obtain ⟨r, rfl⟩ := hsign
    rw [bind_append (x := Scanner.text "@") (u := ()) (text_eq_some_iff.2 ⟨rfl, r, rfl⟩)]
    by_cases hfile : ∃ r', r = "file".toList ++ r'
    · obtain ⟨r, rfl⟩ := hfile
      have hwhole : Scanner.text "@file" p ("@file".toList ++ r) =
          some ((), "@file".toList.length) := text_eq_some_iff.2 ⟨rfl, r, rfl⟩
      have hleft := bind_append (f := fun _ => g) hwhole
      by_cases hname : ∃ c ∈ r.head?, isIdentifierContinue c = true
      · have hkeyword :
            Header.keyword .kotlin "file" (p.after "@".toList) ("file".toList ++ r) = none := by
          refine keyword_eq_none _ fun r' hr' hend => ?_
          obtain ⟨c, hc, hc'⟩ := hname
          rw [← append_cancel_left hr'] at hend
          cases (hend c hc).symm.trans hc'
        rw [hg _ _ hname] at hleft
        rw [Scan.bind_of_none hkeyword]
        exact hleft
      · have hends : ∀ c ∈ r.head?, isIdentifierContinue c = false := by simpa using hname
        have hkeyword : Header.keyword .kotlin "file" (p.after "@".toList) ("file".toList ++ r) =
            some ((), "file".toList.length) :=
          keyword_eq_some_iff.2 ⟨rfl, r, rfl, hends⟩
        rw [bind_append hkeyword, Option.map_map, ← Place.after_append]
        refine hleft.trans (congrArg (Option.map · _) ?_)
        funext ⟨v, m⟩
        have hlength : 5 + m = 1 + (4 + m) := by omega
        exact congrArg (v, ·) hlength
    · rw [Scan.bind_of_none (text_eq_none fun r' hr' => hfile ⟨r', append_cancel_left hr'⟩),
        Scan.bind_of_none (keyword_eq_none _ fun r' hr' => absurd ⟨r', hr'⟩ hfile)]
      rfl
  · rw [Scan.bind_of_none (text_eq_none fun r hr => hsign ⟨"file".toList ++ r, hr⟩),
      Scan.bind_of_none (text_eq_none fun r hr => hsign ⟨r, hr⟩)]

theorem fileAnnotation_eq : Kotlin.fileAnnotation = (do
    Scanner.text "@"
    Header.keyword .kotlin "file"
    Header.blanks .kotlin
    Scanner.text ":"
    Header.blanks .kotlin
    Scanner.either
      (do
        let _ ← Header.group .kotlin .bracket)
      (do
        let _ ← Header.qualifiedName .kotlin
        let _ ← Scanner.option do
          Header.blanks .kotlin
          Header.group .kotlin .paren)) := by
  refine text_bind_eq fun p r ⟨c, hc, hname⟩ => ?_
  obtain ⟨r, rfl⟩ := head?_eq_some_iff.1 hc
  have hblank : isBlank c = false := by
    by_contra hblank
    cases hname.symm.trans (isIdentifierContinue_of_isBlank c (by simpa using hblank))
  have hother (d : Char) (hd : isIdentifierContinue d = false) : c ≠ d := by
    rintro rfl
    cases hname.symm.trans hd
  have hblanks : Header.blanks .kotlin p (c :: r) = some ((), 0) := by
    rw [Header.blanks, blanks_eq_zero_iff.2 ⟨hblank, fun hslash =>
      absurd hslash (hother '/' (by decide))⟩]
  rw [Scan.bind_of_zero hblanks, Scan.bind_of_none]
  exact text_eq_none fun r' hr' => hother ':' (by decide) (List.cons.inj hr').1

theorem steady_qualifiedName : Steady w w' y (Header.qualifiedName .kotlin) :=
  steady_name.bind_sure fun _ =>
    Sure.bind (Steady.many (firm_blanks.bind_steady fun _ => (firm_text rfl (by decide)).bind_steady
    fun _ => firm_blanks.bind_steady fun _ => steady_name)) fun _ => .pure _

theorem steady_fileAnnotation : Steady w w' y Kotlin.fileAnnotation := by
  rw [fileAnnotation_eq]
  refine (firm_text rfl (by decide)).bind_steady fun _ =>
    (firm_keyword (by decide)).bind_steady fun _ => firm_blanks.bind_steady
    fun _ => (firm_text rfl (by decide)).bind_steady fun _ => firm_blanks.bind_steady fun _ =>
      Steady.either ?_ ?_
  · exact (steady_group .bracket).bind_sure fun _ => .pure _
  · exact steady_qualifiedName.bind_sure fun _ =>
      (Steady.option (firm_blanks.bind_steady fun _ => steady_group .paren)).bind
      fun _ => .pure _

theorem steady_packageHeader : Steady w w' y Kotlin.packageHeader :=
  (firm_keyword (by decide)).bind_steady fun _ => firm_blanks.bind_steady fun _ =>
    steady_qualifiedName.bind_sure fun _ =>
    sure_blanks.bind fun _ => (Steady.option (firm_text rfl (by decide)).toSteady).bind fun _ =>
      .pure _

theorem steady_importAlias : Steady w w' y Kotlin.importAlias :=
  (firm_keyword (by decide)).bind_steady fun _ => firm_blanks.bind_steady fun _ => steady_name

theorem steady_wildcard : Steady w w' y (Header.wildcard .kotlin) :=
  (firm_text rfl (by decide)).bind_steady fun _ => firm_blanks.bind_steady fun _ =>
    (firm_text rfl (by decide)).toSteady

theorem steady_importHeader : Steady w w' y Kotlin.importHeader := by
  refine firm_here.bind_steady fun _ => (firm_keyword (by decide)).bind_steady fun _ =>
    firm_blanks.bind_steady fun _ =>
    steady_qualifiedName.bind_sure fun path => sure_blanks.bind fun _ =>
      (steady_wildcard.option.bind fun _ => .pure _).bind
    fun everything => ?_
  have hend {α : Type} (v : α) : Sure w w' y (do
      Header.blanks .kotlin
      let _ ← Scanner.option (Scanner.text ";")
      return v) :=
    sure_blanks.bind fun _ => (Steady.option (firm_text rfl (by decide)).toSteady).bind fun _ =>
      .pure _
  cases everything with
  | false => exact steady_importAlias.option.bind fun _ => hend _
  | true => exact (Sure.pure none).bind fun _ => hend _

theorem sure_header : Sure w w' y Kotlin.header := by
  refine sure_blanks.bind fun _ => steady_scriptLine.option.bind fun _ => sure_blanks.bind fun _ =>
    (Steady.many (Steady.bind_sure steady_fileAnnotation fun _ => sure_blanks)).bind fun _ =>
    steady_packageHeader.option.bind fun _ => sure_blanks.bind fun _ =>
    (Steady.many (steady_importHeader.bind_sure fun _ => sure_blanks.bind fun _ =>
      .pure _)).bind fun _ => .pure _

end Parts

end WitnessReplay.Source
