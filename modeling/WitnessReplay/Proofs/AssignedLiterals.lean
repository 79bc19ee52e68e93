import Mathlib.Data.Nat.Find
import WitnessReplay.Proofs.ExtractedValues
import WitnessReplay.Source.Lexicon.Kotlin

/-!
# Assigned literals

A number or a truth value that is assigned to something is read back exactly, in Kotlin and by
the grammar for GDart, whatever stands in front of the equals sign.

For Kotlin this does not go beyond the numbers that the grammar knows. A token that starts with
such a number without being one is cut off behind it: of `1e5` only `1` is left.
-/

namespace WitnessReplay.Witness.ValueGrammar

open Text Pattern List

variable {β : Type} {front s t u w rest : List Char} {c : Char} {m : β}
  {remember : List Char → List Char → β → β} {next : List Char → Option β}

/-! ### Numbers -/

/-- A number as it is written: a sign, digits, and a fraction behind a point. It ends in a digit. -/
structure Numeral where
  negative : Bool
  whole : List Char
  fraction : Option (List Char)
  whole_digits : ∀ c ∈ whole, isDigit c
  fraction_digits : ∀ part ∈ fraction, part ≠ [] ∧ ∀ c ∈ part, isDigit c
  whole_ne_nil : fraction = none → whole ≠ []

namespace Numeral

def sign (n : Numeral) : List Char :=
  if n.negative then ['-'] else []

def pointed (n : Numeral) : List Char :=
  n.fraction.elim [] ('.' :: ·)

def text (n : Numeral) : List Char :=
  n.sign ++ (n.whole ++ n.pointed)

end Numeral

theorem reads_plainNumber_iff : plainNumber.Reads t ↔ ∃ n : Numeral, n.text = t := by
  constructor
  · rintro ⟨_, digits, rfl, ⟨_, point, rfl, ⟨sign, whole, rfl, hsign, hwhole⟩, hpoint⟩, hne,
      hdigits⟩
    obtain ⟨negative, rfl⟩ : ∃ negative : Bool, sign = if negative then ['-'] else [] := by
      rcases hsign with rfl | ⟨c, hc, rfl⟩
      · exact ⟨false, rfl⟩
      · exact ⟨true, congrArg ([·]) (eq_of_beq hc)⟩
    rcases hpoint with rfl | ⟨c, hc, rfl⟩
    · refine ⟨⟨negative, whole ++ digits, none, fun c hc => ?_, fun _ h => (by cases h), fun _ =>
        ?_⟩, ?_⟩
      · exact (mem_append.1 hc).elim (hwhole c) (hdigits c)
      · exact append_ne_nil_of_right_ne_nil whole hne
      · simp [Numeral.text, Numeral.sign, Numeral.pointed]
    · obtain rfl : c = '.' := eq_of_beq hc
      refine ⟨⟨negative, whole, some digits, hwhole, ?_, fun h => (by cases h)⟩, ?_⟩
      · rintro _ ⟨⟩
        exact ⟨hne, hdigits⟩
      · simp [Numeral.text, Numeral.sign, Numeral.pointed]
  · rintro ⟨⟨negative, whole, fraction, hwhole, hfraction, hne⟩, rfl⟩
    have hsign : (Pattern.optional (.is '-')).Reads (if negative then ['-'] else []) := by
      cases negative
      · exact .inl rfl
      · exact .inr ⟨'-', rfl, rfl⟩
    cases fraction with
    | none =>
      have hdigits : (Pattern.oneOrMore .digit).Reads whole := ⟨hne rfl, hwhole⟩
      refine ⟨_, whole, ?_, ⟨_, [], rfl, ⟨_, [], rfl, hsign, ?_⟩, .inl rfl⟩, hdigits⟩
      · simp [Numeral.text, Numeral.sign, Numeral.pointed]
      · exact fun c hc => absurd hc not_mem_nil
    | some part =>
      refine ⟨_, part, ?_, ⟨_, ['.'], rfl, ⟨_, whole, rfl, hsign, hwhole⟩, .inr ⟨'.', rfl, rfl⟩⟩,
        hfraction part rfl⟩
      simp [Numeral.text, Numeral.sign, Numeral.pointed]

def IsNumber (t : List Char) : Prop :=
  ∃ n : Numeral, t = n.text ∨ t = n.text ++ ['L']

theorem reads_longNumber_iff : longNumber.Reads t ↔ IsNumber t := by
  constructor
  · rintro ⟨_, suffix, rfl, hnumber, hsuffix⟩
    obtain ⟨n, rfl⟩ := reads_plainNumber_iff.1 hnumber
    rcases hsuffix with rfl | ⟨c, hc, rfl⟩
    · exact ⟨n, .inl (append_nil _)⟩
    · obtain rfl : c = 'L' := eq_of_beq hc
      exact ⟨n, .inr rfl⟩
  · rintro ⟨n, rfl | rfl⟩
    · exact ⟨n.text, [], (append_nil _).symm, reads_plainNumber_iff.2 ⟨n, rfl⟩, .inl rfl⟩
    · exact ⟨n.text, ['L'], rfl, reads_plainNumber_iff.2 ⟨n, rfl⟩, .inr ⟨'L', rfl, rfl⟩⟩

theorem Numeral.exists_text_concat (n : Numeral) (hc : isDigit c) : ∃ n' :
    Numeral, n'.text = n.text ++ [c] := by
  obtain ⟨start, digits, htext, hstart, hne, hdigits⟩ := reads_plainNumber_iff.2 ⟨n, rfl⟩
  apply reads_plainNumber_iff.1
  refine ⟨start, digits ++ [c], by rw [htext, append_assoc], hstart, by simp, fun d hd => ?_⟩
  rcases mem_append.1 hd with hd | hd
  · exact hdigits d hd
  · exact mem_singleton.1 hd ▸ hc

theorem Numeral.exists_text_point (n : Numeral) (hn : n.fraction = none) (hc : isDigit c) :
    ∃ n' : Numeral, n'.text = n.text ++ ['.', c] := by
  refine ⟨⟨n.negative, n.whole, some [c], n.whole_digits, ?_, fun h => (by cases h)⟩, ?_⟩
  · rintro _ ⟨⟩
    exact ⟨cons_ne_nil c [], forall_mem_singleton.2 hc⟩
  · simp [Numeral.text, Numeral.sign, Numeral.pointed, hn]

/-! ### How far the search for a number goes -/

/-- A number does not go on in what is behind it. -/
structure Numeral.EndsBefore (n : Numeral) (rest : List Char) : Prop where
  digit : ∀ c ∈ rest.head?, isDigit c = false
  point : n.fraction = none → ∀ c r, rest = '.' :: c :: r → isDigit c = false

/-- What the pattern for numbers wants behind the digits that it has tried first. -/
def numberEnd : Pattern :=
  .optional (.is '.') ++ .oneOrMore .digit

theorem run_numberEnd_eq_none (hend : ∀ c ∈ rest.head?, isDigit c = false)
    (hpoint : ∀ c r, rest = '.' :: c :: r → isDigit c = false) :
    numberEnd.run remember next rest = none := by
  rw [numberEnd, run_seq]
  cases rest with
  | nil => rfl
  | cons c r =>
    have hhere : (Pattern.oneOrMore .digit).run remember next (c :: r) = none :=
      run_oneOrMore_eq_none hend
    by_cases hc : c = '.'
    · have hbehind : (Pattern.oneOrMore .digit).run remember next r = none := by
        apply run_oneOrMore_eq_none
        intro d hd
        obtain ⟨r, rfl⟩ := head?_eq_some_iff.1 hd
        exact hpoint d r (by rw [hc])
      rw [run, hhere, hbehind]
      split <;> rfl
    · rw [run_optional_of_boundary, hhere]
      rintro _ ⟨⟩
      exact beq_false_of_ne hc

theorem run_numberEnd_digits (hdigits : ∀ c ∈ t, isDigit c) (hne : t ≠ [])
    (hend : ∀ c ∈ rest.head?, isDigit c = false)
    (h : next rest = some m) : numberEnd.run remember next (t ++ rest) = some m := by
  rw [numberEnd, run_seq, run_optional_of_boundary]
  · exact run_oneOrMore_of_boundary hdigits hne hend h
  · obtain ⟨c, t, rfl⟩ := exists_cons_of_ne_nil hne
    rintro _ ⟨⟩
    refine beq_false_of_ne ?_
    rintro rfl
    exact absurd (hdigits '.' mem_cons_self) (by decide)

theorem run_numberEnd_point (hdigits : ∀ c ∈ t, isDigit c) (hne : t ≠ [])
    (hend : ∀ c ∈ rest.head?, isDigit c = false)
    (h : next rest = some m) : numberEnd.run remember next ('.' :: (t ++ rest)) = some m := by
  rw [numberEnd, run_seq]
  exact run_optional_of_pos rfl (run_oneOrMore_of_boundary hdigits hne hend h)

/-- All digits of a number without a fraction are tried for the digits in front of a point. As
no point follows, the last one is given back. -/
theorem tryMany_digits (hdigits : ∀ c ∈ t, isDigit c) (hne : t ≠ [])
    (hend : ∀ c ∈ rest.head?, isDigit c = false)
    (hpoint : ∀ c r, rest = '.' :: c :: r → isDigit c = false) (h : next rest = some m) :
    tryMany .digit (numberEnd.run remember next) (t ++ rest) = some m := by
  obtain ⟨digits, d, rfl⟩ := (eq_nil_or_concat' t).resolve_left hne
  have hd : CharClass.digit.contains d := hdigits d (by simp)
  have hlast : numberEnd.run remember next (d :: rest) = some m :=
    run_numberEnd_digits (forall_mem_singleton.2 hd) (cons_ne_nil d []) hend h
  rw [append_assoc]
  refine tryMany_of_eq_some (k := .digit) (fun c hc => hdigits c (mem_append_left _ hc)) ?_
  rw [singleton_append, tryMany, if_pos hd, tryMany_of_boundary hend,
    run_numberEnd_eq_none hend hpoint]
  exact hlast

theorem Numeral.head?_unsigned (n : Numeral) :
    ∀ c ∈ (n.whole ++ n.pointed ++ rest).head?, c ≠ '-' := by
  cases hwhole : n.whole with
  | nil =>
    cases hfraction : n.fraction with
    | none => exact absurd hwhole (n.whole_ne_nil hfraction)
    | some part =>
      rw [pointed, hfraction]
      rintro _ ⟨⟩
      decide
  | cons c whole =>
    rintro _ ⟨⟩ rfl
    exact absurd (n.whole_digits '-' (hwhole ▸ mem_cons_self)) (by decide)

theorem run_plainNumber {n : Numeral} (hend : n.EndsBefore rest) (h : next rest = some m) :
    plainNumber.run remember next (n.text ++ rest) = some m := by
  have hunsigned :
      tryMany .digit (numberEnd.run remember next) (n.whole ++ n.pointed ++ rest) = some m := by
    cases hfraction : n.fraction with
    | none =>
      rw [Numeral.pointed, hfraction, Option.elim_none, append_nil]
      exact tryMany_digits n.whole_digits (n.whole_ne_nil hfraction) hend.digit
        (hend.point hfraction) h
    | some part =>
      obtain ⟨hne, hdigits⟩ := n.fraction_digits part hfraction
      rw [Numeral.pointed, hfraction, Option.elim_some, append_assoc]
      apply tryMany_of_eq_some n.whole_digits
      rw [cons_append, tryMany_of_boundary (by rintro _ ⟨⟩; decide)]
      exact run_numberEnd_point hdigits hne hend.digit h
  change (Pattern.optional (.is '-')).run remember (tryMany .digit (numberEnd.run remember next))
    _ = some m
  rw [Numeral.text, append_assoc, Numeral.sign]
  split
  · exact run_optional_of_pos rfl hunsigned
  · rw [nil_append, run_optional_of_boundary (k := .is '-') fun c hc =>
      beq_false_of_ne (n.head?_unsigned c hc)]
    exact hunsigned

/-! ### The number that a token starts with -/

/-- A number at the start of a token that no longer one contains. -/
structure LeadingNumber (t w : List Char) : Prop where
  isNumber : IsNumber t
  starts : t <+: w
  longest : ∀ u, IsNumber u → u <+: w → u.length ≤ t.length

theorem exists_leadingNumber (ht : IsNumber t) (hstarts : t <+: w) : ∃ u, LeadingNumber u w := by
  classical
  let IsLength (n : Nat) : Prop := IsNumber (w.take n)
  have hlength {u : List Char} (hu : IsNumber u) (hstarts : u <+: w) : IsLength u.length := by
    change IsNumber (w.take u.length)
    rwa [← prefix_iff_eq_take.1 hstarts]
  have hgreatest : IsLength (Nat.findGreatest IsLength w.length) :=
    Nat.findGreatest_spec hstarts.length_le (hlength ht hstarts)
  refine ⟨w.take (Nat.findGreatest IsLength w.length), hgreatest, List.take_prefix _ _,
    fun u hu hstarts => ?_⟩
  rw [length_take, Nat.min_eq_left (Nat.findGreatest_le _)]
  exact Nat.le_findGreatest hstarts.length_le (hlength hu hstarts)

theorem LeadingNumber.not_isNumber (h : LeadingNumber t (t ++ rest)) (hu : u <+: rest)
    (hne : u ≠ []) : ¬ IsNumber (t ++ u) := by
  intro hnumber
  have hle := h.longest (t ++ u) hnumber ((prefix_append_right_inj t).2 hu)
  have hpos := length_pos_iff.2 hne
  rw [length_append] at hle
  omega

theorem LeadingNumber.run_longNumber (h : LeadingNumber t (t ++ rest))
    (hnext : next rest = some m) :
    longNumber.run remember next (t ++ rest) = some m := by
  rw [longNumber, run_seq]
  obtain ⟨n, rfl | rfl⟩ := h.isNumber
  · have hdigit : ∀ c ∈ rest.head?, isDigit c = false := by
      intro c hc
      obtain ⟨r, rfl⟩ := head?_eq_some_iff.1 hc
      by_contra hdigit
      obtain ⟨n', hn'⟩ := n.exists_text_concat (Bool.not_eq_false _ ▸ hdigit)
      exact h.not_isNumber (prefix_append [c] r) (cons_ne_nil c []) ⟨n', .inl hn'.symm⟩
    have hpoint : n.fraction = none → ∀ c r, rest = '.' :: c :: r → isDigit c = false := by
      rintro hfraction c r rfl
      by_contra hdigit
      obtain ⟨n', hn'⟩ := n.exists_text_point hfraction (Bool.not_eq_false _ ▸ hdigit)
      exact h.not_isNumber (prefix_append ['.', c] r) (cons_ne_nil '.' [c]) ⟨n', .inl hn'.symm⟩
    have hsuffix : ∀ c ∈ rest.head?, CharClass.contains (.is 'L') c = false := by
      intro c hc
      obtain ⟨r, rfl⟩ := head?_eq_some_iff.1 hc
      refine beq_false_of_ne ?_
      rintro rfl
      exact h.not_isNumber (prefix_append ['L'] r) (cons_ne_nil 'L' []) ⟨n, .inr rfl⟩
    exact run_plainNumber ⟨hdigit, hpoint⟩ ((run_optional_of_boundary hsuffix).trans hnext)
  · rw [append_assoc]
    have hend : n.EndsBefore ('L' :: rest) := by
      refine ⟨?_, fun _ c r hr => by cases hr⟩
      rintro _ ⟨⟩
      decide
    exact run_plainNumber hend (run_optional_of_pos rfl hnext)

theorem run_longNumber_eq_none (h : ∀ t, t <+: w → ¬ IsNumber t) :
    longNumber.run remember next w = none := by
  rw [← Option.not_isSome_iff_eq_none]
  intro hsome
  obtain ⟨m, hm⟩ := Option.isSome_iff_exists.1 hsome
  obtain ⟨t, r, -, rfl, ht, -⟩ := exists_of_run (fun _ => ()) (fun _ _ _ => rfl) hm
  exact h t (prefix_append t r) (reads_longNumber_iff.1 ht)

/-! ### The value of an assignment -/

/-- A group of a group: both are remembered, and the last one is the inner one. -/
theorem match?_group_group (p : Pattern) (s : List Char) :
    (Pattern.group (.group p)).match? s =
      (p.run (fun start rest m => ((Match.remember start rest m.1.1, m.1.2), m.2))
        (fun rest => some ((⟨[], rest⟩, rest), rest)) s).map fun m =>
        (m.1.1.remember s m.2).remember s m.1.2 := by
  rw [match?_group]
  show Option.map _ (Option.map _ (p.run _ _ s)) = _
  rw [Option.map_map]
  rfl

theorem match?_kotlinValue_of_leadingNumber (h : LeadingNumber t (t ++ rest)) :
    kotlinValue.match? (t ++ rest) = some ⟨[⟨t ++ rest, rest⟩, ⟨t ++ rest, rest⟩], rest⟩ := by
  rw [kotlinValue, match?_group_orElse, match?_group_group,
    h.run_longNumber (m := ((⟨[], rest⟩, rest), rest)) rfl]
  rfl

theorem match?_kotlinValue_of_no_number (h : ∀ t, t <+: w → ¬ IsNumber t)
    (hw : ∀ c ∈ w, isWhiteSpace c = false) (hne : w ≠ []) :
    kotlinValue.match? w = some ⟨[⟨w, []⟩, ⟨w, []⟩], []⟩ := by
  have hclass : ∀ c ∈ w, CharClass.nonSpace.contains c :=
    fun c hc => by simp [CharClass.contains, hw c hc]
  have hwhole : (Pattern.group (.group (.oneOrMore .nonSpace))).match? w =
      some ⟨[⟨w, []⟩, ⟨w, []⟩], []⟩ := by
    rw [match?_group_group, ← append_nil w,
      run_oneOrMore_of_boundary (m := ((⟨[], []⟩, []), [])) hclass hne (by simp) rfl]
    rfl
  rw [kotlinValue, match?_group_orElse, match?_group_orElse, match?_group_group,
    run_longNumber_eq_none h, hwhole]
  rfl

theorem rawValue?_kotlin {m : Match} (hfront : '=' ∉ front) (hm : kotlinValue.match? w = some m)
    (ht : m.lastText? = some t) :
    kotlinDefault.rawValue? (front ++ ("= ".toList ++ w)) = some t := by
  refine rawValue?_of_search? rfl (m := m) ?_ ht
  rw [search?_of_forall_none]
  · change (kotlinValue.match? w <|> _) = some m
    rw [hm]
    rfl
  · intro u hne hsuffix
    obtain ⟨d, u, rfl⟩ := exists_cons_of_ne_nil hne
    rw [← Option.not_isSome_iff_eq_none, isSome_match?_iff]
    rintro ⟨_, ⟨_, _, rfl, rfl, -⟩, r, hr⟩
    obtain rfl : '=' = d := (List.cons.inj hr).1
    exact hfront (hsuffix.mem mem_cons_self)

theorem match?_stringCall_of_not_mem (method : String) (hs : '(' ∉ s) :
    (stringCall method).match? s = none := by
  rw [← Option.not_isSome_iff_eq_none, isSome_match?_iff]
  rintro ⟨_, ⟨_, _, rfl, ⟨_, _, rfl, ⟨_, _, rfl, -, rfl⟩, -⟩, -⟩, r, rfl⟩
  apply hs
  simp [toString]

theorem rawValue?_gdart {m : Match} (hfront : '=' ∉ front) (hcall : '(' ∉ front ++ w)
    (hm : (Pattern.group (plainNumber <|> truth)).match? w = some m) (ht : m.lastText? = some t) :
    javaGDart.rawValue? (front ++ ("= ".toList ++ w)) = some t := by
  refine rawValue?_of_search? rfl (m := m) ?_ ht
  rw [search?_of_forall_none]
  · change ((((Pattern.group (plainNumber <|> truth)).match? w <|> _) <|> _) <|> _) = some m
    rw [hm]
    rfl
  · intro u hne hsuffix
    have hnone : '(' ∉ u ++ ("= ".toList ++ w) := by
      simp only [mem_append, not_or] at hcall ⊢
      exact ⟨fun h => hcall.1 (hsuffix.mem h), by decide, hcall.2⟩
    obtain ⟨d, u, rfl⟩ := exists_cons_of_ne_nil hne
    have hd : d ≠ '=' := by
      rintro rfl
      exact hfront (hsuffix.mem mem_cons_self)
    rw [javaGDartAfter, match?_orElse, match?_orElse, match?_orElse, cons_append,
      match?_afterEquals _ hd, ← cons_append, match?_stringCall_of_not_mem _ hnone,
      match?_stringCall_of_not_mem _ hnone, match?_stringCall_of_not_mem _ hnone]
    rfl

/-! ### Literals -/

inductive Literal where
  | number (n : Numeral)
  | long (n : Numeral)
  | truth (b : Bool)

namespace Literal

def chars : Literal → List Char
  | number n => n.text
  | long n => n.text ++ ['L']
  | truth b => (toString b).toList

def text (v : Literal) : String :=
  .ofList v.chars

def isLong : Literal → Bool
  | long _ => true
  | _ => false

end Literal

theorem IsNumber.not_mem (ht : IsNumber t) (hc : longNumber.avoids c) : c ∉ t :=
  not_mem_of_avoids hc (reads_longNumber_iff.2 ht)

theorem IsNumber.leadingNumber (ht : IsNumber t) {terminator : List Char}
    (hend : terminator = [] ∨ terminator = [';']) :
    LeadingNumber t (t ++ terminator) := by
  refine ⟨ht, prefix_append t terminator, fun u hu hstarts => ?_⟩
  rcases hend with rfl | rfl
  · rw [append_nil] at hstarts
    exact hstarts.length_le
  · rcases prefix_concat_iff.1 hstarts with rfl | hstarts
    · exact absurd (mem_append_right t mem_cons_self) (hu.not_mem (by decide))
    · exact hstarts.length_le

theorem rawValue?_kotlin_number (hfront : '=' ∉ front) (h : LeadingNumber t (t ++ rest)) :
    kotlinDefault.rawValue? (front ++ ("= ".toList ++ (t ++ rest))) = some t :=
  rawValue?_kotlin hfront (match?_kotlinValue_of_leadingNumber h) (lastText?_group t rest rest)

theorem Literal.not_mem (v : Literal) (hnumber : longNumber.avoids c)
    (htruth : ∀ b : Bool, c ∉ (toString b).toList) :
    c ∉ v.chars := by
  cases v with
  | number n => exact IsNumber.not_mem ⟨n, .inl rfl⟩ hnumber
  | long n => exact IsNumber.not_mem ⟨n, .inr rfl⟩ hnumber
  | truth b => exact htruth b

theorem rawValue?_kotlin_literal (hfront : '=' ∉ front) (v : Literal) {terminator : List Char}
    (hend : terminator = [] ∨ terminator = [';']) :
    ∃ raw, kotlinDefault.rawValue? (front ++ ("= ".toList ++ (v.chars ++ terminator))) = some raw ∧
      dropSemicolon raw = v.chars := by
  have hsemicolon : dropSemicolon v.chars = v.chars :=
    dropSemicolon_of_not_mem (v.not_mem (by decide) (by decide))
  cases v with
  | number n =>
    exact ⟨_, rawValue?_kotlin_number hfront (IsNumber.leadingNumber ⟨n, .inl rfl⟩ hend),
      hsemicolon⟩
  | long n =>
    exact ⟨_, rawValue?_kotlin_number hfront (IsNumber.leadingNumber ⟨n, .inr rfl⟩ hend),
      hsemicolon⟩
  | truth b =>
    -- the semicolon is taken along and then dropped
    refine ⟨(toString b).toList ++ terminator, ?_, ?_⟩
    · cases b <;> rcases hend with rfl | rfl <;> exact rawValue?_kotlin hfront rfl rfl
    · cases b <;> rcases hend with rfl | rfl <;> rfl

theorem match?_gdartNumber (n : Numeral) {terminator : List Char}
    (hend : terminator = [] ∨ terminator = [';']) :
    (Pattern.group (plainNumber <|> truth)).match? (n.text ++ terminator) =
      some ⟨[⟨n.text ++ terminator, terminator⟩], terminator⟩ := by
  have hends : n.EndsBefore terminator := by
    rcases hend with rfl | rfl
    · refine ⟨fun c hc => ?_, fun _ c r hr => ?_⟩
      · cases hc
      · cases hr
    · refine ⟨?_, fun _ c r hr => ?_⟩
      · rintro _ ⟨⟩
        decide
      · cases hr
  rw [match?_group_orElse, match?_group,
    run_plainNumber hends (m := (⟨[], terminator⟩, terminator)) rfl]
  rfl

theorem rawValue?_gdart_literal (hfront : '=' ∉ front) (hcall : '(' ∉ front) {v : Literal}
    (hv : v.isLong = false)
    {terminator : List Char} (hend : terminator = [] ∨ terminator = [';']) :
    javaGDart.rawValue? (front ++ ("= ".toList ++ (v.chars ++ terminator))) = some v.chars := by
  have hvalue : '(' ∉ v.chars := v.not_mem (by decide) (by decide)
  have hterminator : '(' ∉ terminator := by rcases hend with rfl | rfl <;> decide
  have hcall : '(' ∉ front ++ (v.chars ++ terminator) := by simp [hcall, hvalue, hterminator]
  cases v with
  | number n =>
    exact rawValue?_gdart hfront hcall (match?_gdartNumber n hend) (lastText?_group _ _ _)
  | long n => cases hv
  | truth b => cases b <;> rcases hend with rfl | rfl <;> exact rawValue?_gdart hfront hcall rfl rfl

theorem canonical_text (v : Literal) : canonical v.text = v.text := by
  apply canonical_of_not_mem
  apply not_mem_specialValues
  rw [Literal.text, String.toList_ofList]
  exact v.not_mem (by decide) (by decide)

/-- **Assigned literals.** Whatever stands in front of the equals sign, an assigned literal is
read back exactly, with or without a semicolon behind it. The grammar for GDart does not know
long integers, and it may find a call in front of the literal. -/
theorem extract?_assigned_literal (front terminator : String) (v : Literal)
    (hfront : '=' ∉ front.toList) (hend : terminator = "" ∨ terminator = ";") :
    kotlinDefault.extract? (front ++ "= " ++ v.text ++ terminator) = some v.text ∧
      ('(' ∉ front.toList → v.isLong = false →
        javaGDart.extract? (front ++ "= " ++ v.text ++ terminator) = some v.text) := by
  have htext : (front ++ "= " ++ v.text ++ terminator).toList =
      front.toList ++ ("= ".toList ++ (v.chars ++ terminator.toList)) := by
    simp only [Literal.text, String.toList_append, String.toList_ofList, append_assoc]
  have hend : terminator.toList = [] ∨ terminator.toList = [';'] :=
    hend.imp (congrArg String.toList) (congrArg String.toList)
  constructor
  · obtain ⟨raw, hraw, hdrop⟩ := rawValue?_kotlin_literal hfront v hend
    rw [← htext] at hraw
    rw [extract?_of_rawValue? hraw, hdrop, ← Literal.text, canonical_text]
  · intro hcall hv
    have hraw := rawValue?_gdart_literal hfront hcall hv hend
    have hsemicolon : ';' ∉ v.chars := v.not_mem (by decide) (by decide)
    rw [← htext] at hraw
    rw [extract?_of_rawValue? hraw, dropSemicolon_of_not_mem hsemicolon, ← Literal.text,
      canonical_text]

def negativeFraction : Numeral where
  negative := true
  whole := ['1', '2']
  fraction := some ['5']
  whole_digits := all_eq_true.1 (by decide)
  fraction_digits := by
    rintro _ ⟨⟩
    exact ⟨cons_ne_nil '5' [], forall_mem_singleton.2 (by decide)⟩
  whole_ne_nil := fun h => by cases h

theorem extract?_assigned_fraction :
    '=' ∉ "flag1.x ".toList ∧ '(' ∉ "flag1.x ".toList ∧
    (Literal.number negativeFraction).text = "-12.5" ∧
      kotlinDefault.extract? ("flag1.x " ++ "= " ++ (Literal.number negativeFraction).text ++ ";") =
        some (Literal.number negativeFraction).text ∧
      javaGDart.extract? ("flag1.x " ++ "= " ++ (Literal.number negativeFraction).text ++ ";") =
        some (Literal.number negativeFraction).text := by
  have hread := extract?_assigned_literal "flag1.x " ";" (.number negativeFraction) (by decide)
    (.inr rfl)
  exact ⟨by decide, by decide, by decide, hread.1, hread.2 (by decide) rfl⟩

/-! ### Tokens that start with a number -/

/-- **Assigned tokens.** A token that is assigned in Kotlin is read back exactly if it is a
number or no number starts it. From every other token the longest number at its start is taken,
and the rest is lost. -/
theorem extract?_assigned_token {name w : String} (hname : '=' ∉ name.toList) (hne : w ≠ "")
    (hw : ∀ c ∈ w.toList, isWhiteSpace c = false) (hlast : w.toList.getLast? ≠ some ';')
    (hspecial : w ∉ specialValues.map (·.1)) :
    (kotlinDefault.extract? (name ++ " = " ++ w) = some w ↔
      IsNumber w.toList ∨ ∀ t, t <+: w.toList → ¬ IsNumber t) ∧
      ∀ t, LeadingNumber t w.toList → kotlinDefault.extract? (name ++ " = " ++ w) =
        some (String.ofList t) := by
  have hfront : '=' ∉ name.toList ++ [' '] := by simp [hname]
  have htext : (name ++ " = " ++ w).toList =
      (name.toList ++ [' ']) ++ ("= ".toList ++ w.toList) := by
    simp only [String.toList_append, append_assoc]
    rfl
  have hnumber : ∀ t, LeadingNumber t w.toList → kotlinDefault.extract? (name ++ " = " ++ w) =
      some (String.ofList t) := by
    intro t ht
    obtain ⟨rest, hrest⟩ := ht.starts
    rw [← hrest] at ht htext
    have hraw := rawValue?_kotlin_number hfront ht
    rw [← htext] at hraw
    rw [extract?_of_rawValue? hraw, dropSemicolon_of_not_mem (ht.isNumber.not_mem (by decide)),
      canonical_of_not_mem]
    apply not_mem_specialValues
    rw [String.toList_ofList]
    exact ht.isNumber.not_mem (by decide)
  have hother (h : ∀ t, t <+: w.toList → ¬ IsNumber t) :
      kotlinDefault.extract? (name ++ " = " ++ w) = some w := by
    have hmatch := match?_kotlinValue_of_no_number h hw (by simpa using hne)
    have hwhole : Match.lastText? ⟨[⟨w.toList, []⟩, ⟨w.toList, []⟩], []⟩ = some w.toList :=
      congrArg some take_length
    have hraw := rawValue?_kotlin hfront hmatch hwhole
    rw [← htext] at hraw
    rw [extract?_of_rawValue? hraw, dropSemicolon, if_neg hlast, String.ofList_toList,
      canonical_of_not_mem hspecial]
  refine ⟨⟨fun h => ?_, ?_⟩, hnumber⟩
  · refine or_iff_not_imp_right.2 fun hsome => ?_
    push Not at hsome
    obtain ⟨t, hstarts, ht⟩ := hsome
    obtain ⟨u, hu⟩ := exists_leadingNumber ht hstarts
    have hsame : w = String.ofList u := Option.some.inj (h.symm.trans (hnumber u hu))
    rw [hsame, String.toList_ofList]
    exact hu.isNumber
  · rintro (h | h)
    · have hself := hnumber w.toList (by simpa using h.leadingNumber (.inl rfl))
      rwa [String.ofList_toList] at hself
    · exact hother h

theorem isWhiteSpace_scientific : ∀ c ∈ "1e5".toList, isWhiteSpace c = false := by
  have hall : "1e5".toList.all (!isWhiteSpace ·) := by decide
  intro c hc
  simpa using all_eq_true.1 hall c hc

theorem leadingNumber_scientific : LeadingNumber ['1'] ['1', 'e', '5'] := by
  have hone : IsNumber ['1'] := reads_longNumber_iff.1 (reads_longNumber (by decide))
  refine ⟨hone, prefix_append ['1'] ['e', '5'], fun u hu hstarts => ?_⟩
  have hexponent : 'e' ∉ u := hu.not_mem (by decide)
  rcases u with _ | ⟨c, _ | ⟨d, u⟩⟩
  · exact Nat.zero_le _
  · exact Nat.le_refl _
  · obtain ⟨r, hr⟩ := hstarts
    obtain rfl : d = 'e' := (List.cons.inj (List.cons.inj hr).2).1
    exact absurd (mem_cons_of_mem c mem_cons_self) hexponent

theorem extract?_assigned_scientific :
    '=' ∉ "x".toList ∧ "1e5" ≠ "" ∧ (∀ c ∈ "1e5".toList, isWhiteSpace c = false) ∧
    "1e5".toList.getLast? ≠ some ';' ∧
      "1e5" ∉ specialValues.map (·.1) ∧ LeadingNumber ['1'] "1e5".toList ∧
      kotlinDefault.extract? ("x" ++ " = " ++ "1e5") = some "1" := by
  refine ⟨by decide, by decide, isWhiteSpace_scientific, by decide,
    by decide, leadingNumber_scientific, ?_⟩
  exact (extract?_assigned_token (by decide) (by decide) isWhiteSpace_scientific (by decide)
    (by decide)).2 ['1'] leadingNumber_scientific

/-- Of a number in scientific notation only the front is left. -/
theorem not_extract?_assigned_token :
    ¬ ∀ name w : String, Source.Kotlin.word name.toList = some name.length → w ≠ "" →
      (∀ c ∈ w.toList, isWhiteSpace c = false) → w.toList.getLast? ≠ some ';' →
      w ∉ specialValues.map (·.1) →
      kotlinDefault.extract? (name ++ " = " ++ w) = some w := by
  intro h
  have hfront : kotlinDefault.extract? ("x" ++ " = " ++ "1e5") = some "1" := by decide
  exact absurd (hfront.symm.trans
    (h "x" "1e5" (by decide) (by decide) isWhiteSpace_scientific (by decide) (by decide)))
    (by decide)

end WitnessReplay.Witness.ValueGrammar
