import WitnessReplay.Proofs.LexicalRules

/-!
# Lexical rules in front of a blank

Whether a rule takes the whole of a token's text may depend on what follows the text. For
words, numbers, characters and the strings and comments of Java it does not, as long as a blank
follows: what the rule does in front of one blank it does in front of every text that starts
with a blank, and at the end of the source. Strings with templates and comments that nest have
no such property.
-/

namespace WitnessReplay.Source

open List

/-- What stands behind a token that is set off from the next one: nothing, or a text that
starts with a blank. -/
def SetOff (after : List Char) : Prop :=
  ∀ c ∈ after.head?, isBlank c = true

def Alone (rule : List Char → Option Nat) (text : List Char) : Prop :=
  ∃ b, isBlank b = true ∧ rule (text ++ [b]) = some text.length

def Whole (rule : List Char → Option Nat) (text : List Char) : Prop :=
  ∀ after, SetOff after → rule (text ++ after) = some text.length

variable {text after : List Char}

theorem setOff_singleton {b : Char} (hb : isBlank b = true) : SetOff [b] := by
  intro c hc
  cases hc
  exact hb

theorem isBlank_iff {c : Char} :
    isBlank c = true ↔ c = ' ' ∨ c = '\t' ∨ c = '\r' ∨ c = '\n' ∨ c = '\x0c' ∨ c = '\ufeff' := by
  simp [isBlank, or_assoc]

theorem isIdentifierContinue_of_isBlank (b : Char) (hb : isBlank b = true) :
    Text.isIdentifierContinue b = false := by
  rcases isBlank_iff.1 hb with rfl | rfl | rfl | rfl | rfl | rfl <;> decide +kernel

theorem isIdentifierStart_of_isBlank (b : Char) (hb : isBlank b = true) :
    Text.isIdentifierStart b = false := by
  have hcontinue := isIdentifierContinue_of_isBlank b hb
  simp only [Text.isIdentifierContinue, Text.isPlainContinue, Bool.or_eq_false_iff] at hcontinue
  obtain ⟨⟨hplain, hadded⟩, -⟩ := hcontinue
  rw [Text.isIdentifierStart]
  split at hplain <;> rename_i hascii
  · rw [if_pos hascii]
    exact (Bool.or_eq_false_iff.1 (Bool.or_eq_false_iff.1 hplain).1).1
  · rw [if_neg hascii, (Bool.or_eq_false_iff.1 hplain).1, hadded]
    rfl

theorem SetOff.head_ne (h : SetOff after) {c : Char} (hc : isBlank c = false) :
    after.head? ≠ some c := by
  intro hhead
  rw [h c hhead] at hc
  cases hc

theorem takeWhile_append_of_setOff {p : Char → Bool} (hp : ∀ c, isBlank c = true → p c = false)
    (htext : ∀ c ∈ text, p c = true)
    (hafter : SetOff after) : (text ++ after).takeWhile p = text := by
  rw [takeWhile_append_of_pos htext]
  cases after with
  | nil => simp
  | cons c after => rw [takeWhile_cons_of_neg (by simp [hp c (hafter c rfl)]), append_nil]

theorem all_of_length_takeWhile {p : Char → Bool} {rest : List Char}
    (h : ((text ++ rest).takeWhile p).length = text.length) : ∀ c ∈ text, p c = true := by
  have hstarts : (text ++ rest).takeWhile p = text := by
    rw [prefix_iff_eq_take.1 (List.takeWhile_prefix p), h, take_left]
  intro c hc
  rw [← hstarts] at hc
  exact mem_takeWhile_imp hc

theorem quotedTail_append {quote : Char} (hquote : quote ≠ '\\') {s : List Char} {n : Nat}
    (h : quotedTail quote s = some n)
    (rest : List Char) : quotedTail quote (s.take n ++ rest) = some n := by
  have hclosed (r : List Char) : quotedTail quote (quote :: r) = some 1 := by
    cases r with
    | nil => simp [quotedTail]
    | cons d r => simp [quotedTail, hquote]
  fun_induction quotedTail quote s generalizing n with
  | case1 => cases h
  | case2 =>
    cases h
    exact hclosed rest
  | case3 => cases h
  | case4 d r ih =>
    obtain ⟨m, hm, rfl⟩ := Option.map_eq_some_iff.1 h
    simp [quotedTail, ih hm]
  | case5 d r hc =>
    cases h
    exact hclosed rest
  | case6 => cases h
  | case7 c d r hc hq hn ih =>
    obtain ⟨m, hm, rfl⟩ := Option.map_eq_some_iff.1 h
    obtain ⟨k, rfl⟩ := Nat.exists_eq_add_of_lt (quotedTail_bounds hm).1
    have hrest := ih hm
    simp only [Nat.zero_add, take_succ_cons, cons_append] at hrest ⊢
    simp [quotedTail, hc, hq, hn, hrest]

theorem quotedTail_whole {quote : Char} (hquote : quote ≠ '\\') {u : List Char}
    (h : quotedTail quote (text ++ u) = some text.length) (rest : List Char) :
    quotedTail quote (text ++ rest) = some text.length := by
  have happend := quotedTail_append hquote h rest
  rwa [take_left] at happend

theorem charLiteral_whole (h : Alone charLiteral text) : Whole charLiteral text := by
  obtain ⟨b, hb, h⟩ := h
  intro after _
  match text, h with
  | [], h =>
    rcases isBlank_iff.1 hb with rfl | rfl | rfl | rfl | rfl | rfl <;> cases h
  | c :: r, h =>
    by_cases hc : c = '\''
    · subst hc
      simp only [charLiteral, cons_append] at h ⊢
      split at h
      · cases h
      · rename_i hhead
        obtain ⟨m, hm, hlength⟩ := Option.map_eq_some_iff.1 h
        obtain rfl : m = r.length := by simpa using hlength
        cases r with
        | nil => exact absurd (quotedTail_bounds hm).1 (Nat.lt_irrefl 0)
        | cons d r =>
          rw [if_neg (by simpa using hhead), quotedTail_whole (by decide) hm after]
          rfl
    · simp [charLiteral, hc] at h

theorem isAlphanum_of_isBlank {b : Char} (hb : isBlank b = true) :
    b.isAlphanum = false ∧ b.isDigit = false ∧ b ≠ '_' ∧ b ≠ '.' := by
  rcases isBlank_iff.1 hb with rfl | rfl | rfl | rfl | rfl | rfl <;> decide

theorem numberTail_of_setOff (hafter : SetOff after) : numberTail after = 0 := by
  match after, hafter with
  | [], _ => rfl
  | [b], hafter =>
    obtain ⟨halnum, -, hunder, -⟩ := isAlphanum_of_isBlank (hafter b rfl)
    simp [numberTail, halnum, hunder]
  | b :: d :: r, hafter =>
    obtain ⟨halnum, -, hunder, hpoint⟩ := isAlphanum_of_isBlank (hafter b rfl)
    simp [numberTail, halnum, hunder, hpoint]

theorem numberTail_whole {b : Char} (hb : isBlank b = true) (hafter : SetOff after) :
    ∀ text : List Char, numberTail (text ++ [b]) = text.length →
      numberTail (text ++ after) = text.length
  | [], _ => numberTail_of_setOff hafter
  | [c], h => by
    have hblank := isAlphanum_of_isBlank hb
    have hb0 := numberTail_of_setOff (setOff_singleton hb)
    have ha0 := numberTail_of_setOff hafter
    cases after with
    | nil => grind [numberTail]
    | cons d r => grind [numberTail]
  | c :: d :: r, h => by
    have hnext := numberTail_whole hb hafter (d :: r)
    have hbehind := numberTail_whole hb hafter r
    grind [numberTail]

theorem number_whole (h : Alone number text) : Whole number text := by
  obtain ⟨b, hb, h⟩ := h
  intro after hafter
  cases text with
  | nil => simp [number, (isAlphanum_of_isBlank hb).2.1] at h
  | cons c r =>
    simp only [number, cons_append] at h ⊢
    split at h
    · rename_i hc
      rw [if_pos hc, numberTail_whole hb hafter r (by simpa using h)]
      rfl
    · cases h

/-- A rule that agrees with another one on texts that start with a character inherits this from
it. -/
theorem whole_of_eq {rule rule' : List Char → Option Nat} {c : Char} {r : List Char}
    (heq : ∀ s, rule (c :: s) = rule' (c :: s))
    (hwhole : Alone rule' (c :: r) → Whole rule' (c :: r))
    (h : Alone rule (c :: r)) : Whole rule (c :: r) := by
  obtain ⟨b, hb, h⟩ := h
  intro after hafter
  rw [cons_append, heq] at h ⊢
  exact hwhole ⟨b, hb, h⟩ after hafter

namespace Java

theorem literal_quote (r : List Char) : literal ('"' :: r) = string ('"' :: r) := by
  simp [literal, charLiteral, number]

theorem literal_apostrophe (r : List Char) : literal ('\'' :: r) = charLiteral ('\'' :: r) := by
  simp [literal, string, number]

theorem literal_other {c : Char} (hq : c ≠ '"') (ha : c ≠ '\'') (r : List Char) :
    literal (c :: r) = number (c :: r) := by
  simp [literal, string, charLiteral, hq, ha]

theorem textBlockTail_three_le {s : List Char} {n : Nat} (h : textBlockTail s = some n) :
    3 ≤ n := by
  fun_induction textBlockTail s generalizing n with
  | case1 =>
    cases h
    exact Nat.le_refl 3
  | case2 c r ih =>
    obtain ⟨m, hm, rfl⟩ := Option.map_eq_some_iff.1 h
    have := ih hm
    omega
  | case3 c r _ _ ih =>
    obtain ⟨m, hm, rfl⟩ := Option.map_eq_some_iff.1 h
    have := ih hm
    omega
  | case4 => cases h

theorem textBlockTail_append {s : List Char} {n : Nat} (h : textBlockTail s = some n)
    (rest : List Char) :
    textBlockTail (s.take n ++ rest) = some n := by
  fun_induction textBlockTail s generalizing n with
  | case1 =>
    cases h
    rfl
  | case2 c r ih =>
    obtain ⟨m, hm, rfl⟩ := Option.map_eq_some_iff.1 h
    simp [textBlockTail, ih hm]
  | case3 c r hclose hescape ih =>
    -- the three characters that close the block are in front of `rest`, so the same case
    -- applies there
    obtain ⟨m, hm, rfl⟩ := Option.map_eq_some_iff.1 h
    obtain ⟨k, rfl⟩ := Nat.exists_eq_add_of_le (textBlockTail_three_le hm)
    have hrest := ih hm
    match r, hm with
    | [], hm => cases hm
    | [d], hm => simp [textBlockTail] at hm
    | d :: e :: r, hm =>
      rw [Nat.add_comm 3 k] at hrest ⊢
      simp only [take_succ_cons, cons_append] at hrest ⊢
      rw [textBlockTail, hrest]
      · rfl
      · intro t hc ht
        simp only [List.cons.injEq] at ht
        exact hclose r hc (by rw [ht.1, ht.2.1])
      · intro d' r' hc heq
        exact hescape d (e :: r) hc rfl
  | case4 => cases h

theorem string_block (r : List Char) :
    string ('"' :: '"' :: '"' :: r) = some (((textBlockTail r).map (· + 3)).getD 2) := by
  cases h : textBlockTail r <;> simp [string, h, quotedTail]

theorem string_line {r : List Char} (hr : ∀ r', r ≠ '"' :: '"' :: r') :
    string ('"' :: r) = (quotedTail '"' r).map (· + 1) := by
  unfold string
  split
  · rename_i heq
    cases heq
    split
    · exact absurd rfl (hr _)
    · rfl
  · rename_i hne
    exact absurd rfl (hne r)

theorem quotes_append {r : List Char} (hr : ∀ r', r ≠ '"' :: '"' :: r') (hafter : SetOff after) :
    ∀ r', r ++ after ≠ '"' :: '"' :: r' := by
  have hquote := hafter.head_ne (c := '"') (by decide)
  intro r' heq
  match r, hr with
  | [], _ => exact hquote (by rw [← nil_append after, heq]; rfl)
  | [d], _ =>
    rw [singleton_append, List.cons.injEq] at heq
    exact hquote (by rw [heq.2]; rfl)
  | d :: e :: r, hr =>
    simp only [cons_append, List.cons.injEq] at heq
    exact hr r (by rw [heq.1, heq.2.1])

theorem string_whole (h : Alone string text) : Whole string text := by
  obtain ⟨b, hb, h⟩ := h
  intro after hafter
  match text, h with
  | [], h =>
    rcases isBlank_iff.1 hb with rfl | rfl | rfl | rfl | rfl | rfl <;> cases h
  | c :: r, h =>
    by_cases hc : c = '"'
    · subst hc
      rw [cons_append] at h ⊢
      by_cases hblock : ∃ r', r = '"' :: '"' :: r'
      · obtain ⟨r', rfl⟩ := hblock
        rw [cons_append, cons_append, string_block] at h ⊢
        cases htail : textBlockTail (r' ++ [b]) with
        | none => simp [htail] at h
        | some n =>
          obtain rfl : n = r'.length := by simpa [htail] using h
          have hwhole := textBlockTail_append htail after
          rw [take_left] at hwhole
          rw [hwhole]
          rfl
      · have hline : ∀ r', r ≠ '"' :: '"' :: r' := not_exists.1 hblock
        rw [string_line (quotes_append hline (setOff_singleton hb))] at h
        rw [string_line (quotes_append hline hafter)]
        obtain ⟨m, hm, hlength⟩ := Option.map_eq_some_iff.1 h
        obtain rfl : m = r.length := by simpa using hlength
        rw [quotedTail_whole (by decide) hm after]
        rfl
    · simp [string, hc] at h

theorem literal_whole (h : Alone literal text) : Whole literal text := by
  cases text with
  | nil =>
    obtain ⟨b, hb, h⟩ := h
    rcases isBlank_iff.1 hb with rfl | rfl | rfl | rfl | rfl | rfl <;> cases h
  | cons c r =>
    by_cases hq : c = '"'
    · subst hq
      exact whole_of_eq literal_quote string_whole h
    · by_cases ha : c = '\''
      · subst ha
        exact whole_of_eq literal_apostrophe charLiteral_whole h
      · exact whole_of_eq (literal_other hq ha) number_whole h

theorem isNameChar_of_isBlank (b : Char) (hb : isBlank b = true) : isNameChar b = false := by
  rw [isNameChar, isIdentifierContinue_of_isBlank b hb]
  rcases isBlank_iff.1 hb with rfl | rfl | rfl | rfl | rfl | rfl <;> decide

theorem word_whole (h : Alone word text) : Whole word text := by
  obtain ⟨b, hb, h⟩ := h
  intro after hafter
  cases text with
  | nil =>
    have hstart := isIdentifierStart_of_isBlank b hb
    rcases isBlank_iff.1 hb with rfl | rfl | rfl | rfl | rfl | rfl <;> simp [word, hstart] at h
  | cons c r =>
    simp only [word, cons_append] at h ⊢
    split at h
    · rename_i hc
      have hr := all_of_length_takeWhile (by simpa using h)
      rw [if_pos hc, takeWhile_append_of_setOff isNameChar_of_isBlank hr hafter]
      rfl
    · cases h

theorem commentTail_append {s : List Char} {n : Nat} (h : commentTail s = some n)
    (rest : List Char) :
    commentTail (s.take n ++ rest) = some n := by
  fun_induction commentTail s generalizing n with
  | case1 =>
    cases h
    rfl
  | case2 c r hclose ih =>
    obtain ⟨m, hm, rfl⟩ := Option.map_eq_some_iff.1 h
    have hrest := ih hm
    obtain ⟨x, rest', -, rfl⟩ := commentTail_closes hm
    cases r with
    | nil => cases hm
    | cons d r =>
      simp only [take_succ_cons, cons_append] at hrest ⊢
      rw [commentTail, hrest]
      · rfl
      · intro t hc ht
        simp only [List.cons.injEq] at ht
        exact hclose r hc (by rw [ht.1])
  | case3 => cases h

theorem comment_whole {x : List Char} (h : commentTail (x ++ ['*', '/']) = some (x.length + 2))
    (rest : List Char) :
    commentTail (x ++ '*' :: '/' :: rest) = some (x.length + 2) := by
  have happend := commentTail_append h rest
  rwa [take_of_length_le (by simp), append_assoc] at happend

end Java

namespace Kotlin

theorem literal_quote (r : List Char) : literal ('"' :: r) = string ('"' :: r) := by
  simp [literal, charLiteral, number]

theorem literal_apostrophe (r : List Char) : literal ('\'' :: r) = charLiteral ('\'' :: r) := by
  simp [literal, string, number]

theorem literal_other {c : Char} (hq : c ≠ '"') (ha : c ≠ '\'') (r : List Char) :
    literal (c :: r) = number (c :: r) := by
  simp [literal, string, charLiteral, hq, ha]

theorem literal_whole (h : Alone literal text)
    (hstring : text.head? = some '"' → Whole literal text) :
    Whole literal text := by
  cases text with
  | nil =>
    obtain ⟨b, hb, h⟩ := h
    rcases isBlank_iff.1 hb with rfl | rfl | rfl | rfl | rfl | rfl <;> cases h
  | cons c r =>
    by_cases hq : c = '"'
    · subst hq
      exact hstring rfl
    · by_cases ha : c = '\''
      · subst ha
        exact whole_of_eq literal_apostrophe charLiteral_whole h
      · exact whole_of_eq (literal_other hq ha) number_whole h

theorem word_plain {c : Char} (hc : c ≠ '\x60') (r : List Char) :
    word (c :: r) = if Text.isIdentifierStart c || c == '_' then
      some ((r.takeWhile Text.isIdentifierContinue).length + 1) else none := by
  simp [word]

theorem word_quoted {name : List Char} (hne : name ≠ [])
    (hname : ∀ c ∈ name, (c != '\x60' && c != '\n') = true)
    (rest : List Char) : word ('\x60' :: (name ++ '\x60' :: rest)) = some (name.length + 2) := by
  have htake : (name ++ '\x60' :: rest).takeWhile (fun c => c != '\x60' && c != '\n') = name := by
    rw [takeWhile_append_of_pos hname]
    simp
  simp only [word, htake, drop_left]
  rw [if_pos ⟨length_pos_iff.2 hne |>.ne', rfl⟩]

theorem eq_of_word_quoted {r rest : List Char}
    (h : word ('\x60' :: (r ++ rest)) = some (r.length + 1)) :
    ∃ name, r = name ++ ['\x60'] ∧ name ≠ [] ∧ ∀ c ∈ name, (c != '\x60' && c != '\n') = true := by
  simp only [word] at h
  split at h
  · rename_i hm
    simp only [Option.some.injEq] at h
    obtain ⟨name, x, rfl⟩ : ∃ name x, r = name ++ [x] := by
      have hr : r ≠ [] := ne_nil_of_length_pos (by omega)
      exact ⟨r.dropLast, r.getLast hr, (dropLast_concat_getLast hr).symm⟩
    simp only [append_assoc, length_append, length_singleton, Nat.add_right_cancel_iff] at h hm
    have hlength : ((name ++ ([x] ++ rest)).takeWhile fun c => c != '\x60' && c != '\n').length =
        name.length := by
      omega
    rw [hlength, drop_left] at hm
    obtain rfl : x = '\x60' := by simpa using hm.2
    refine ⟨name, rfl, ?_, all_of_length_takeWhile hlength⟩
    rintro rfl
    exact hm.1 rfl
  · cases h

theorem word_whole (h : Alone word text) : Whole word text := by
  obtain ⟨b, hb, h⟩ := h
  intro after hafter
  cases text with
  | nil =>
    have hstart := isIdentifierStart_of_isBlank b hb
    rcases isBlank_iff.1 hb with rfl | rfl | rfl | rfl | rfl | rfl <;> simp [word, hstart] at h
  | cons c r =>
    rw [cons_append] at h ⊢
    by_cases hc : c = '\x60'
    · subst hc
      obtain ⟨name, rfl, hne, hname⟩ := eq_of_word_quoted h
      rw [append_assoc, singleton_append, word_quoted hne hname]
      simp
    · rw [word_plain hc] at h ⊢
      split at h
      · rename_i hstart
        have hr := all_of_length_takeWhile (by simpa using h)
        rw [if_pos hstart, takeWhile_append_of_setOff isIdentifierContinue_of_isBlank hr hafter]
        rfl
      · cases h

end Kotlin

def startsLiteral (c : Char) : Bool :=
  c == '"' || c == '\'' || c.isDigit

def startsWord (c : Char) : Bool :=
  Text.isIdentifierStart c || c == '_' || c == '$' || c == '\x60'

section FirstCharacter

variable {language : Language} {c : Char} {r : List Char}

theorem literal_eq_none (language : Language) (hc : startsLiteral c = false) (r : List Char) :
    (lexicon language).literal (c :: r) = none := by
  simp only [startsLiteral, Bool.or_eq_false_iff, beq_eq_false_iff_ne] at hc
  have hnumber : number (c :: r) = none := by simp [number, hc.2]
  cases language
  · exact (Java.literal_other hc.1.1 hc.1.2 r).trans hnumber
  · exact (Kotlin.literal_other hc.1.1 hc.1.2 r).trans hnumber

theorem isDigit_of_literal_eq_none (h : (lexicon language).literal (c :: r) = none) :
    c.isDigit = false := by
  by_contra hdigit
  have hc : c.isDigit = true := by simpa using hdigit
  have hq : c ≠ '"' := by
    rintro rfl
    cases hc
  have ha : c ≠ '\'' := by
    rintro rfl
    cases hc
  cases language
  · exact absurd ((Java.literal_other hq ha r).symm.trans h) (by simp [number, hc])
  · exact absurd ((Kotlin.literal_other hq ha r).symm.trans h) (by simp [number, hc])

theorem startsLiteral_of_literal {n : Nat} (h : (lexicon language).literal (c :: r) = some n) :
    startsLiteral c = true := by
  by_contra hc
  rw [literal_eq_none language (by simpa using hc) r] at h
  cases h

theorem startsWord_of_word {n : Nat} (h : (lexicon language).word (c :: r) = some n) :
    startsWord c = true := by
  cases language with
  | java =>
    simp only [lexicon, Lexicon.java, Java.word] at h
    split at h
    · rename_i hc
      rw [startsWord, hc, Bool.true_or]
    · cases h
  | kotlin =>
    by_cases hc : c = '\x60'
    · simp [startsWord, hc]
    · simp only [lexicon, Lexicon.kotlin, Kotlin.word_plain hc] at h
      split at h
      · rename_i hstart
        rw [startsWord, hstart, Bool.true_or, Bool.true_or]
      · cases h

/-- Whether a name starts with a character does not depend on what follows it, unless it is a
backtick. -/
theorem word_eq_none {s : List Char} (hc : language = .kotlin → c ≠ '\x60')
    (h : (lexicon language).word (c :: s) = none)
    (r : List Char) : (lexicon language).word (c :: r) = none := by
  cases language with
  | java =>
    simp only [lexicon, Lexicon.java, Java.word] at h ⊢
    split at h
    · cases h
    · rename_i hstart
      rw [if_neg hstart]
  | kotlin =>
    simp only [lexicon, Lexicon.kotlin, Kotlin.word_plain (hc rfl)] at h ⊢
    split at h
    · cases h
    · rename_i hstart
      rw [if_neg hstart]

/-- A character with which no blank, no comment and no group starts. -/
structure StartsLeaf (c : Char) : Prop where
  blank : isBlank c = false
  slash : c ≠ '/'
  opening : Delimiter.ofOpening? c = none

theorem startsLeaf_of {p : Char → Bool} (hblank : ∀ c, isBlank c = true → p c = false)
    (hslash : p '/' = false)
    (hopening : ∀ d : Delimiter, p d.opening = false) (hc : p c = true) : StartsLeaf c := by
  refine ⟨?_, ?_, ?_⟩
  · by_contra hb
    rw [hblank c (by simpa using hb)] at hc
    cases hc
  · rintro rfl
    rw [hslash] at hc
    cases hc
  · cases hd : Delimiter.ofOpening? c with
    | none => rfl
    | some d =>
      rw [Delimiter.ofOpening?_eq_some_iff.1 hd, hopening d] at hc
      cases hc

theorem startsLeaf_of_startsLiteral (hc : startsLiteral c = true) : StartsLeaf c := by
  refine startsLeaf_of (fun b hb => ?_) (by decide) (fun d => ?_) hc
  · rcases isBlank_iff.1 hb with rfl | rfl | rfl | rfl | rfl | rfl <;> decide
  · cases d <;> decide

theorem startsLeaf_of_startsWord (hc : startsWord c = true) : StartsLeaf c := by
  refine startsLeaf_of (fun b hb => ?_) (by decide) (fun d => ?_) hc
  · rw [startsWord, isIdentifierStart_of_isBlank b hb]
    rcases isBlank_iff.1 hb with rfl | rfl | rfl | rfl | rfl | rfl <;> decide
  · cases d <;> decide

theorem startsWord_of_isDigit (hc : c.isDigit = true) : startsWord c = false := by
  have hbounds : 48 ≤ c.toNat ∧ c.toNat ≤ 57 := by
    simpa [Char.isDigit, UInt32.le_iff_toNat_le] using hc
  have halpha : c.isAlpha = false := by
    delta Char.isAlpha Char.isUpper Char.isLower
    simp [UInt32.le_iff_toNat_le]
    omega
  have hstart : Text.isIdentifierStart c = false := by
    rw [Text.isIdentifierStart, if_pos (by omega), halpha]
  have hne (d : Char) (hd : 57 < d.toNat ∨ d.toNat < 48) : (c == d) = false := by
    rw [beq_eq_false_iff_ne]
    rintro rfl
    omega
  rw [startsWord, hstart, hne '_' (by decide), hne '$' (by decide), hne '\x60' (by decide)]
  rfl

theorem startsLiteral_of_startsWord (hc : startsWord c = true) : startsLiteral c = false := by
  by_contra hl
  have hl : startsLiteral c = true := by simpa using hl
  simp only [startsLiteral, Bool.or_eq_true, beq_iff_eq] at hl
  rcases hl with (rfl | rfl) | hl
  · exact absurd hc (by decide)
  · exact absurd hc (by decide)
  · rw [startsWord_of_isDigit hl] at hc
    cases hc

end FirstCharacter

end WitnessReplay.Source
