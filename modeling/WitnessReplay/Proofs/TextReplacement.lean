import WitnessReplay.Proofs.LookAhead

/-!
# One part of a text in place of another

Where a part of a Kotlin text without special characters is replaced by another such part, all
that stands in front of it is read as before, unless a name or a number in front of it goes on
with the new part, or a backtick in front of it finds another partner.
-/

namespace WitnessReplay.Source

open Text Lexicon List

section Interchange

variable {w w' y : List Char}

/-- A rule that ends before `s`, or that has no end there, does so before `s'` too. -/
structure Keeps (rule : List Char → Option Nat) (a s s' : List Char) : Prop where
  some_eq {n : Nat} (hn : n ≤ a.length) (h : rule (a ++ s) = some n) : rule (a ++ s') = some n
  none_eq (h : rule (a ++ s) = none) : rule (a ++ s') = none

namespace Keeps

variable {rule : List Char → Option Nat} {a s s' : List Char}

theorem of_eq (h : rule (a ++ s') = rule (a ++ s)) : Keeps rule a s s' where
  some_eq _ hsome := h.trans hsome
  none_eq hnone := h.trans hnone

theorem of_lt {n : Nat} (h : rule (a ++ s) = some n) (hn : a.length < n) (s' : List Char) :
    Keeps rule a s s' where
  some_eq hle hsome := by
    cases h.symm.trans hsome
    exact absurd hn (Nat.not_lt.2 hle)
  none_eq hnone := by cases h.symm.trans hnone

end Keeps

/-- `w` and `w'` are neutral texts such that what stands in `a` and in front of `w` does not go
on with `w'`. Where `w'` starts with a character of a name, this is so because `w` starts with
such a character too, or because `a` does not end with one. -/
structure Interchangeable (a w w' : List Char) : Prop where
  left : NeutralText w
  right : NeutralText w'
  head {c : Char} (h : w.head? = some c ∨ w'.head? = some c) : isBlank c = false ∧ c ≠ '.' ∧
    c.isDigit = false
  quote : '\x60' ∉ w'
  border : '\x60' ∉ w ∧
    ((∀ c ∈ w'.head?, isIdentifierContinue c = false) ∨ ∀ c ∈ w.head?, c.isAlphanum = true) ∨
    w.head? = some '\x60' ∧ ∀ c ∈ a.getLast?, isIdentifierContinue c = false ∧ c ≠ '\x60'

theorem isIdentifierContinue_of_isAlphanum {c : Char} (hc : (c.isAlphanum || c == '_') = true) :
    isIdentifierContinue c = true := by
  have hascii : c.toNat < 128 := by
    delta Char.isAlphanum Char.isAlpha Char.isUpper Char.isLower at hc
    simp only [Char.isDigit, UInt32.le_iff_toNat_le, ge_iff_le, Bool.or_eq_true, Bool.and_eq_true,
      decide_eq_true_eq, beq_iff_eq] at hc
    rcases hc with ((hc | hc) | hc) | rfl
    · exact Nat.lt_of_le_of_lt hc.2 (by decide)
    · exact Nat.lt_of_le_of_lt hc.2 (by decide)
    · exact Nat.lt_of_le_of_lt hc.2 (by decide)
    · decide
  rw [isIdentifierContinue, isPlainContinue, if_pos hascii, hc]
  rfl

theorem isIdentifierContinue_of_isIdentifierStart {c : Char}
    (hc : (isIdentifierStart c || c == '_') = true) :
    isIdentifierContinue c = true := by
  by_contra hcontinue
  rw [isIdentifierContinue, isPlainContinue, Bool.not_eq_true, Bool.or_eq_false_iff,
    Bool.or_eq_false_iff] at hcontinue
  obtain ⟨⟨hplain, hadded⟩, -⟩ := hcontinue
  rw [isIdentifierStart] at hc
  split at hplain
  next hascii => simp_all [Char.isAlphanum]
  next hascii =>
    rw [Bool.or_eq_false_iff] at hplain
    rw [if_neg hascii, hplain.1, hadded] at hc
    obtain rfl : c = '_' := by simpa using hc
    exact hascii (by decide)

variable {a : List Char} {c : Char}

theorem Mirrors.keeps {rule : List Char → Option Nat} (hw : NeutralText w)
    (h : Mirrors a.length w.length w'.length (rule (a ++ (w ++ y))) (rule (a ++ (w' ++ y)))) :
    Keeps rule a (w ++ y) (w' ++ y) where
  some_eq hn hsome := by
    rw [hsome] at h
    exact h.eq_of_le (length_pos_iff.2 hw.ne_nil) hn
  none_eq hnone := by
    rw [hnone] at h
    exact h.eq_none

namespace Interchangeable

theorem of_append {x : List Char} (h : Interchangeable (x ++ a) w w') : Interchangeable a w w' where
  left := h.left
  right := h.right
  head := h.head
  quote := h.quote
  border := h.border.imp_right fun ⟨hquote, hlast⟩ =>
    ⟨hquote, fun c hc => hlast c (by simp_all [getLast?_append])⟩

theorem border_of_name {c : Char} (h : Interchangeable [c] w w')
    (hc : isIdentifierContinue c = true) :
    (∀ d ∈ w'.head?, isIdentifierContinue d = false) ∨ ∀ d ∈ w.head?, d.isAlphanum = true := by
  obtain ⟨-, hborder⟩ | ⟨-, hlast⟩ := h.border
  · exact hborder
  · cases hc.symm.trans (hlast c rfl).1

theorem head?_eq (h : Interchangeable a w w') :
    (∃ c v, w = c :: v ∧ isBlank c = false ∧ c ≠ '.' ∧ c.isDigit = false) ∧
    ∃ c v, w' = c :: v ∧ isBlank c = false ∧ c ≠ '.' ∧ c.isDigit = false := by
  obtain ⟨c, v, rfl⟩ := exists_cons_of_ne_nil h.left.ne_nil
  obtain ⟨c', v', rfl⟩ := exists_cons_of_ne_nil h.right.ne_nil
  exact ⟨⟨c, v, rfl, h.head (.inl rfl)⟩, c', v', rfl, h.head (.inr rfl)⟩

end Interchangeable

theorem takeWhile_keeps {c : Char} (hc : isIdentifierContinue c = true)
    (h : Interchangeable (c :: a) w w')
    (hle : ((a ++ (w ++ y)).takeWhile isIdentifierContinue).length ≤ a.length) :
    (a ++ (w' ++ y)).takeWhile isIdentifierContinue =
      (a ++ (w ++ y)).takeWhile isIdentifierContinue := by
  induction a generalizing c with
  | nil =>
    obtain ⟨d, v, rfl⟩ := exists_cons_of_ne_nil h.left.ne_nil
    obtain ⟨d', v', rfl⟩ := exists_cons_of_ne_nil h.right.ne_nil
    have hd : isIdentifierContinue d = false := by
      by_contra hd
      rw [nil_append, cons_append, takeWhile_cons_of_pos (by simpa using hd)] at hle
      simp at hle
    have hd' : isIdentifierContinue d' = false := by
      obtain hborder | hborder := h.border_of_name hc
      · exact hborder d' rfl
      · cases hd.symm.trans (isIdentifierContinue_of_isAlphanum (by simp [hborder d rfl]))
    simp [hd, hd']
  | cons e a ih =>
    by_cases he : isIdentifierContinue e = true
    · simp only [cons_append, takeWhile_cons_of_pos he, length_cons,
        Nat.add_le_add_iff_right] at hle ⊢
      rw [ih he (h.of_append (x := [c])) hle]
    · simp only [cons_append, takeWhile_cons_of_neg he]

theorem numberTail_name {c : Char} (hc : (c.isAlphanum || c == '_') = true) (r : List Char) :
    numberTail (c :: r) = numberTail r + 1 := by
  cases r <;> simp [numberTail, hc]

theorem numberTail_point {d : Char} (hd : d.isDigit = true) (r : List Char) :
    numberTail ('.' :: d :: r) = numberTail r + 2 := by
  simp [numberTail, hd]

theorem numberTail_stop {c : Char} {r : List Char} (hc : (c.isAlphanum || c == '_') = false)
    (hpoint : ¬(c = '.' ∧ r.head?.any Char.isDigit)) : numberTail (c :: r) = 0 := by
  cases r <;> simp_all [numberTail]

theorem numberTail_keeps {c : Char} (hc : isIdentifierContinue c = true)
    (h : Interchangeable (c :: a) w w') (hle : numberTail (a ++ (w ++ y)) ≤ a.length) :
    numberTail (a ++ (w' ++ y)) = numberTail (a ++ (w ++ y)) := by
  induction hlen : a.length using Nat.strongRecOn generalizing a c with
  | _ len ih =>
    subst hlen
    obtain ⟨⟨d, v, hw, -, hpoint, hdigit⟩, d', v', hw', -, hpoint', hdigit'⟩ := h.head?_eq
    cases a with
    | nil =>
      have hd : (d.isAlphanum || d == '_') = false := by
        by_contra hd
        rw [hw, nil_append, cons_append, numberTail_name (eq_true_of_ne_false hd)] at hle
        simp at hle
      have hd' : (d'.isAlphanum || d' == '_') = false := by
        obtain hborder | hborder := h.border_of_name hc
        · by_contra hd'
          have hname := isIdentifierContinue_of_isAlphanum (eq_true_of_ne_false hd')
          cases (hborder d' (by rw [hw']; rfl)).symm.trans hname
        · have halphanum := hborder d (by rw [hw]; rfl)
          simp [halphanum] at hd
      rw [hw, hw', nil_append, nil_append, cons_append, cons_append,
        numberTail_stop hd fun hstop => hpoint hstop.1, numberTail_stop hd' fun hstop =>
        hpoint' hstop.1]
    | cons e a =>
      have hdigits : (a ++ (w ++ y)).head?.any Char.isDigit =
          (a ++ (w' ++ y)).head?.any Char.isDigit := by
        cases a with
        | nil => simp [hw, hw', hdigit, hdigit']
        | cons => rfl
      simp only [cons_append] at hle ⊢
      by_cases he : (e.isAlphanum || e == '_') = true
      · simp only [numberTail_name he, length_cons, Nat.add_le_add_iff_right] at hle ⊢
        rw [ih a.length (Nat.lt_succ_self _) (isIdentifierContinue_of_isAlphanum he)
          (h.of_append (x := [c])) hle rfl]
      · by_cases hstop : e = '.' ∧ (a ++ (w ++ y)).head?.any Char.isDigit
        · obtain ⟨rfl, hany⟩ := hstop
          cases a with
          | nil => simp [hw, hdigit] at hany
          | cons f a =>
            have hf : f.isDigit = true := by simpa using hany
            have hname : isIdentifierContinue f = true :=
              isIdentifierContinue_of_isAlphanum (by simp [Char.isAlphanum, hf])
            simp only [cons_append, numberTail_point hf, length_cons] at hle ⊢
            rw [ih a.length (by simp only [length_cons]; omega) hname
              (h.of_append (x := [c, '.'])) (by omega) rfl]
        · rw [numberTail_stop (by simpa using he) hstop,
            numberTail_stop (by simpa using he) (by rwa [← hdigits])]

namespace Kotlin

theorem keeps_literal (h : Interchangeable (c :: a) w w') (y : List Char) :
    Keeps literal (c :: a) (w ++ y) (w' ++ y) := by
  by_cases hquote : c = '"'
  · subst hquote
    refine Mirrors.keeps h.left ?_
    simp only [cons_append, literal_quote, string]
    exact (mirrors_stringRules h.left h.right a).string.add 1
  · by_cases hapostrophe : c = '\''
    · subst hapostrophe
      refine Mirrors.keeps h.left ?_
      simp only [cons_append, literal_apostrophe]
      exact mirrors_charLiteral h.left h.right a
    · have hliteral (r : List Char) : literal (c :: r) = if c.isDigit then
          some (numberTail r + 1) else none :=
        literal_other hquote hapostrophe r
      constructor
      · intro n hn hsome
        rw [cons_append, hliteral] at hsome ⊢
        split at hsome
        next hdigit =>
          cases hsome
          have hname : isIdentifierContinue c = true :=
            isIdentifierContinue_of_isAlphanum (by simp [Char.isAlphanum, hdigit])
          rw [if_pos hdigit, numberTail_keeps hname h (Nat.le_of_succ_le_succ hn)]
        · cases hsome
      · intro hnone
        rw [cons_append, hliteral] at hnone ⊢
        split at hnone
        · cases hnone
        next hdigit => exact if_neg hdigit

def isQuotable (c : Char) : Bool :=
  c != '\x60' && c != '\n'

theorem word_backtick (r : List Char) :
    word ('\x60' :: r) = if (r.takeWhile isQuotable).length ≠ 0 ∧
    (r.drop (r.takeWhile isQuotable).length).head? = some '\x60' then
      some ((r.takeWhile isQuotable).length + 2) else none :=
  rfl

/-- A search for the second backtick that ends in `a` does not depend on what follows. -/
theorem word_backtick_append (ha : ¬∀ c ∈ a, isQuotable c = true) (s : List Char) :
    word ('\x60' :: (a ++ s)) = word ('\x60' :: a) := by
  have hlength : (a.takeWhile isQuotable).length < a.length := by
    refine Nat.lt_of_le_of_ne (List.takeWhile_prefix _).length_le fun hlength => ha ?_
    have hnil : ((a ++ []).takeWhile isQuotable).length = a.length := by rwa [append_nil]
    exact all_of_length_takeWhile hnil
  have htake : (a ++ s).takeWhile isQuotable = a.takeWhile isQuotable := by
    rw [takeWhile_append, if_neg hlength.ne]
  have hhead : ((a ++ s).drop (a.takeWhile isQuotable).length).head? =
      (a.drop (a.takeWhile isQuotable).length).head? := by
    obtain ⟨c, r, hr⟩ := exists_cons_of_ne_nil (l := a.drop (a.takeWhile isQuotable).length)
      (by simpa using hlength)
    rw [drop_append_of_le_length hlength.le, hr]
    rfl
  simp only [word_backtick, htake, hhead]

/-- Where the second backtick ends, if the search for it goes on at the start of `y`. -/
def backtickEnd? (y : List Char) : Option Nat :=
  if (y.drop (y.takeWhile isQuotable).length).head? = some '\x60' then
    some ((y.takeWhile isQuotable).length + 1) else none

/-- A search for the second backtick that goes on behind `a` ends where it ends behind `a`. -/
theorem word_backtick_passed (ha : ∀ c ∈ a, isQuotable c = true) (hne : a ≠ []) (y : List Char) :
    word ('\x60' :: (a ++ y)) = (backtickEnd? y).map (· + (a.length + 1)) := by
  have hlength := length_pos_iff.2 hne
  have hpos : a.length + (y.takeWhile isQuotable).length ≠ 0 := by omega
  simp only [word_backtick, takeWhile_append_of_pos ha, length_append, drop_length_add_append]
  simp only [hpos, ne_eq, not_false_eq_true, true_and, backtickEnd?]
  split
  · simp only [Option.map_some, Option.some.injEq]
    omega
  · rfl

theorem word_backtick_neutral {v : List Char} (ha : ∀ c ∈ a, isQuotable c = true)
    (hv : NeutralText v) (hquote : '\x60' ∉ v) (y : List Char) : word ('\x60' :: a ++ (v ++ y)) =
      (backtickEnd? y).map (· + (('\x60' :: a).length + v.length)) := by
  have hall : ∀ c ∈ a ++ v, isQuotable c = true := by
    intro c hc
    obtain hc | hc := mem_append.1 hc
    · exact ha c hc
    · have hline := (isNeutral_iff.1 (hv.neutral c hc)).1
      have hne : c ≠ '\x60' := fun heq => hquote (heq ▸ hc)
      simp [isQuotable, hline, hne]
  have hlength : (a ++ v).length + 1 = ('\x60' :: a).length + v.length := by
    rw [length_append, length_cons]
    omega
  rw [cons_append, ← append_assoc, word_backtick_passed hall (by simp [hv.ne_nil]), hlength]

theorem keeps_word_backtick (h : Interchangeable ('\x60' :: a) w w') (y : List Char) :
    Keeps word ('\x60' :: a) (w ++ y) (w' ++ y) := by
  by_cases ha : ∀ c ∈ a, isQuotable c = true
  · obtain ⟨hquote, -⟩ | ⟨hquote, hlast⟩ := h.border
    · refine Mirrors.keeps h.left ?_
      rw [word_backtick_neutral ha h.left hquote, word_backtick_neutral ha h.right h.quote]
      exact .map_add _ _ _ _
    · obtain ⟨v, rfl⟩ := head?_eq_some_iff.1 hquote
      have hne : a ≠ [] := by
        rintro rfl
        exact (hlast '\x60' rfl).2 rfl
      exact .of_lt (word_quoted hne ha _) (Nat.lt_succ_self _) _
  · refine .of_eq ?_
    rw [cons_append, cons_append, word_backtick_append ha, word_backtick_append ha]

theorem keeps_word (h : Interchangeable (c :: a) w w') (y : List Char) :
    Keeps word (c :: a) (w ++ y) (w' ++ y) := by
  by_cases hquote : c = '\x60'
  · subst hquote
    exact keeps_word_backtick h y
  · constructor
    · intro n hn hsome
      rw [cons_append, word_plain hquote] at hsome ⊢
      split at hsome
      next hstart =>
        cases hsome
        rw [if_pos hstart, takeWhile_keeps (isIdentifierContinue_of_isIdentifierStart hstart) h
          (Nat.le_of_succ_le_succ hn)]
      · cases hsome
    · intro hnone
      rw [cons_append, word_plain hquote] at hnone ⊢
      split at hnone
      · cases hnone
      next hstart => exact if_neg hstart

end Kotlin

theorem symbol_cons (c : Char) (r : List Char) :
    symbol (c :: r) = if c = '/' ∧ r.head? = some '*' then none
      else if Delimiter.isDelimiter c || c == '"' || c == '\'' then none else some 1 := by
  unfold symbol
  split
  · simp_all
  next hother heq =>
    cases heq
    refine (if_neg ?_).symm
    rintro ⟨rfl, hhead⟩
    obtain ⟨r, rfl⟩ := head?_eq_some_iff.1 hhead
    exact hother r rfl rfl
  next heq => cases heq

theorem symbol_keeps (h : Interchangeable (c :: a) w w') (y : List Char) :
    symbol (c :: (a ++ (w' ++ y))) = symbol (c :: (a ++ (w ++ y))) := by
  simp only [symbol_cons, h.left.head?_iff (y := y) h.right (d := '*') rfl a]

theorem leaf_keeps {p : Place} {t : Token} {text : List Char} (h : Interchangeable (text ++ a) w w')
    (hleaf : kotlin.leaf p (text ++ (a ++ (w ++ y))) = some (t, text.length)) :
    kotlin.leaf p (text ++ (a ++ (w' ++ y))) = some (t, text.length) := by
  obtain ⟨c, r, rfl⟩ :=
    exists_cons_of_ne_nil
    (ne_nil_of_length_pos (lawful_kotlin.leaf_bounds hleaf).1)
  have hle : (c :: r).length ≤ (c :: r ++ a).length := by simp
  have hkeepsLiteral : Keeps kotlin.literal (c :: r ++ a) (w ++ y) (w' ++ y) :=
    Kotlin.keeps_literal h y
  have hkeepsWord : Keeps kotlin.word (c :: r ++ a) (w ++ y) (w' ++ y) := Kotlin.keeps_word h y
  have hkeepsSymbol := symbol_keeps h y
  cases hliteral : kotlin.literal (c :: r ++ (a ++ (w ++ y))) with
  | some m =>
    obtain rfl : m = (c :: r).length := by
      simp only [leaf, hliteral] at hleaf
      exact (Prod.mk.inj (Option.some.inj hleaf)).2
    have hliteral' := hkeepsLiteral.some_eq hle (by rwa [append_assoc])
    rw [append_assoc] at hliteral'
    rw [leaf_of_literal hliteral', ← hleaf, leaf_of_literal hliteral]
  | none =>
    have hliteral' := hkeepsLiteral.none_eq (by rwa [append_assoc])
    rw [append_assoc] at hliteral'
    cases hword : kotlin.word (c :: r ++ (a ++ (w ++ y))) with
    | some m =>
      obtain rfl : m = (c :: r).length := by
        simp only [leaf, hliteral, hword] at hleaf
        exact (Prod.mk.inj (Option.some.inj hleaf)).2
      have hword' := hkeepsWord.some_eq hle (by rwa [append_assoc])
      rw [append_assoc] at hword'
      rw [leaf_of_word hliteral' hword', ← hleaf, leaf_of_word hliteral hword]
    | none =>
      have hword' := hkeepsWord.none_eq (by rwa [append_assoc])
      rw [append_assoc] at hword'
      rw [cons_append] at hliteral hliteral' hword hword' hleaf ⊢
      cases hsymbol : symbol (c :: (r ++ (a ++ (w ++ y)))) with
      | none =>
        simp only [leaf, hliteral, hword, hsymbol] at hleaf
        cases hleaf
      | some m =>
        obtain rfl := (symbol_eq_some hsymbol).1
        have hsymbol' : symbol (c :: (r ++ (a ++ (w' ++ y)))) = some 1 := by
          rw [← hsymbol]
          simpa using hkeepsSymbol
        rw [leaf_of_symbol hliteral' hword' hsymbol', ← hleaf,
          leaf_of_symbol hliteral hword hsymbol]

theorem blanks_eq_zero_iff {r : List Char} :
    kotlin.blanks (c :: r) = 0 ↔ isBlank c = false ∧ (c = '/' → r.head? ≠ some '/' ∧
      ∀ r', r = '*' :: r' → Kotlin.commentTail r' = none) := by
  rw [blanks.eq_def]
  by_cases hblank : isBlank c = true
  · simp [hblank]
  · by_cases hc : c = '/'
    · subst hc
      simp only [hblank, Bool.false_eq_true, if_false, if_true, true_and, forall_const]
      split
      · simp
      next r' =>
        cases hcomment : Kotlin.commentTail r' with
        | none => simp [kotlin, hcomment]
        | some n => simp [kotlin, hcomment]
      next hline hblock =>
        refine iff_of_true rfl ⟨fun hhead => ?_, fun r' hr' => absurd hr' (hblock r')⟩
        obtain ⟨r', hr'⟩ := head?_eq_some_iff.1 hhead
        exact hline r' hr'
    · simp [hblank, hc]

theorem blanks_keeps (h : Interchangeable (c :: a) w w')
    (hblanks : kotlin.blanks (c :: a ++ (w ++ y)) = 0) :
    kotlin.blanks (c :: a ++ (w' ++ y)) = 0 := by
  rw [cons_append, blanks_eq_zero_iff] at hblanks ⊢
  obtain ⟨hblank, hcomment⟩ := hblanks
  refine ⟨hblank, fun hc => ?_⟩
  obtain ⟨hline, hblock⟩ := hcomment hc
  refine ⟨fun hhead => hline ((h.left.head?_iff h.right rfl a).2 hhead), fun r hr => ?_⟩
  obtain ⟨b, rfl, rfl⟩ := h.right.exists_of_cons rfl hr
  exact ((Kotlin.mirrors_commentTail h.left h.right b).keeps h.left).none_eq (hblock _ rfl)

theorem isComment_keeps {x : List Char} (h : Interchangeable (x ++ a) w w')
    (hx : kotlin.IsComment x (a ++ (w ++ y))) :
    kotlin.IsComment x (a ++ (w' ++ y)) := by
  cases hx with
  | line hx hend =>
    refine .line hx ?_
    cases a with
    | nil =>
      obtain ⟨⟨c, v, rfl, hblank, -⟩, -⟩ := h.head?_eq
      cases hblank.symm.trans (isBlank_of_isLineEnd (by simpa using hend))
    | cons => exact hend
  | @block x _ hx =>
    have hkeeps : Keeps kotlin.commentTail (x ++ '*' :: '/' :: a) (w ++ y) (w' ++ y) :=
      (Kotlin.mirrors_commentTail h.left h.right _).keeps h.left
    refine .block ?_
    simpa using hkeeps.some_eq (n := x.length + 2) (by simp) (by simpa using hx)

theorem Lexicon.Starts.of_interchangeable {p : Place} {i : Item} {text : List Char}
    (h : Interchangeable (text ++ a) w w') (hi : kotlin.Starts p i text (a ++ (w ++ y))) :
    kotlin.Starts p i text (a ++ (w' ++ y)) := by
  cases hi with
  | opening => exact .opening
  | closing => exact .closing
  | leaf hblanks hleaf =>
    refine .leaf ?_ (leaf_keeps h hleaf)
    obtain ⟨c, r, rfl⟩ :=
      exists_cons_of_ne_nil
      (ne_nil_of_length_pos (lawful_kotlin.leaf_bounds hleaf).1)
    rw [← append_assoc] at hblanks ⊢
    exact blanks_keeps h hblanks

/-- **Replacing a part of a text.** What stands in front of a part of a text is read as before
if the part is replaced by one that it is interchangeable with. -/
theorem Lexicon.Reads.of_interchangeable {p : Place} {b : List Char} {items : List Item}
    (h : Interchangeable (a ++ b) w w') (hreads : kotlin.Reads p a (b ++ (w ++ y)) items) :
    kotlin.Reads p a (b ++ (w' ++ y)) items := by
  generalize hrest : b ++ (w ++ y) = rest at hreads
  induction hreads with
  | nil => exact .nil
  | @blank p c s _ _ hc _ ih =>
    subst hrest
    exact .blank hc (ih (h.of_append (x := [c])) rfl)
  | @comment p x s _ _ hx _ ih =>
    subst hrest
    rw [append_assoc] at h
    rw [← append_assoc] at hx
    refine .comment ?_ (ih h.of_append rfl)
    rw [← append_assoc]
    exact isComment_keeps h hx
  | @item p i text s _ _ hi _ ih =>
    subst hrest
    rw [append_assoc] at h
    refine .item ?_ (ih h.of_append rfl)
    rw [← append_assoc] at hi ⊢
    exact hi.of_interchangeable h

end Interchange

end WitnessReplay.Source
