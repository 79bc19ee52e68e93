import WitnessReplay.Proofs.Layout

/-!
# Scanning with a stack of delimiters

A forest is read by recursion: a group is read as a whole, or it is no token and what is around
it is not read either. The same can be said in one pass over the text with the open groups on a
stack. `Scan` is such a pass, and it accepts the texts that have a forest up to their end, with
the same tokens.
-/

namespace WitnessReplay.Source

open Text List

namespace Delimiter

def ofClosing? (c : Char) : Option Delimiter :=
  [brace, paren, bracket].find? (c == ·.closing)

theorem ofClosing?_eq_some_iff {c : Char} {d : Delimiter} :
    ofClosing? c = some d ↔ c = d.closing := by
  constructor
  · intro h
    simpa using find?_some h
  · rintro rfl
    cases d <;> rfl

end Delimiter

def Lexicon.comment? (L : Lexicon) : List Char → Option Nat
  | '/' :: '/' :: r => some ((r.takeWhile (!isLineEnd ·)).length + 2)
  | '/' :: '*' :: r => (L.commentTail r).map (· + 2)
  | _ => none

/-- A group whose closing delimiter has not been met: where it was opened, and the tokens in
front of it. -/
structure OpenGroup where
  delimiter : Delimiter
  place : Place
  before : List Token

/-- How far a text has been scanned: the open groups, innermost first, the tokens of the
innermost one, and what is left. -/
structure Scan where
  opened : List OpenGroup
  tokens : List Token
  place : Place
  rest : List Char

namespace Scan

def start (p : Place) (s : List Char) : Scan :=
  ⟨[], [], p, s⟩

def advance (x : Scan) (n : Nat) : Scan :=
  { x with place := x.place.after (x.rest.take n), rest := x.rest.drop n }

def enter (x : Scan) (d : Delimiter) : Scan :=
  { x.advance 1 with opened := ⟨d, x.place, x.tokens⟩ :: x.opened, tokens := [] }

def exit? (x : Scan) (d : Delimiter) : Option Scan :=
  match x.opened with
  | [] => none
  | g :: outer =>
    if g.delimiter = d then
      let closed := x.advance 1
      some { closed with
        opened := outer
        tokens := g.before ++
        [.group d x.tokens ⟨g.place.offset, closed.place.offset⟩ g.place.line] }
    else none

/-- One step: over a blank or a comment, into a group, out of one, or over a literal, word or
symbol. -/
def step (L : Lexicon) (x : Scan) : Option Scan :=
  match x.rest with
  | [] => none
  | c :: r =>
    if isBlank c then some (x.advance 1)
    else
      match L.comment? (c :: r), Delimiter.ofOpening? c, Delimiter.ofClosing? c with
      | some n, _, _ => some (x.advance n)
      | none, some d, _ => some (x.enter d)
      | none, none, some d => x.exit? d
      | none, none, none => (L.leaf x.place (c :: r)).map fun (t, n) =>
        { x.advance n with tokens := x.tokens ++ [t] }

end Scan

theorem Lexicon.comment?_of_isComment {L : Lexicon} {text rest : List Char}
    (h : L.IsComment text rest) :
    L.comment? (text ++ rest) = some text.length := by
  cases h with
  | line hx hend =>
    rw [cons_append, cons_append, comment?, takeWhile_line hx hend]
    rfl
  | block h =>
    simp only [cons_append, append_assoc, nil_append]
    rw [comment?, h]
    simp

theorem Lexicon.comment?_eq_none_of_blanks {L : Lexicon} {c : Char} {r : List Char}
    (h : L.blanks (c :: r) = 0) :
    isBlank c = false ∧ L.comment? (c :: r) = none := by
  rw [blanks.eq_def] at h
  by_cases hblank : isBlank c = true
  · simp [hblank] at h
  · refine ⟨by simpa using hblank, ?_⟩
    unfold comment?
    split
    · rename_i r' heq
      cases heq
      simp [isBlank] at h
    · rename_i r' heq
      cases heq
      cases htail : L.commentTail r' with
      | none => rfl
      | some n => simp [isBlank, htail] at h
    · rfl

theorem Lexicon.pos_of_comment? {L : Lexicon} {s : List Char} {n : Nat}
    (h : L.comment? s = some n) : 0 < n := by
  unfold comment? at h
  split at h
  · cases h
    exact Nat.succ_pos _
  · obtain ⟨m, -, rfl⟩ := Option.map_eq_some_iff.1 h
    exact Nat.succ_pos _
  · cases h

namespace Scan

variable {L : Lexicon} {x y : Scan} {opened outer : List OpenGroup} {tokens : List Token}
    {p : Place} {d : Delimiter}
  {c : Char} {r rest text : List Char}

theorem length_advance_lt {n : Nat} (hrest : x.rest ≠ []) (hn : 0 < n) :
    (x.advance n).rest.length < x.rest.length := by
  have hpos := length_pos_iff.2 hrest
  rw [advance, length_drop]
  omega

theorem length_step_lt (hL : L.Lawful) (h : x.step L = some y) : y.rest.length < x.rest.length := by
  unfold step at h
  split at h
  · cases h
  · rename_i c r hrest
    have hne : x.rest ≠ [] := by simp [hrest]
    split at h
    · cases h
      exact length_advance_lt hne Nat.one_pos
    · split at h
      · rename_i hcomment
        cases h
        exact length_advance_lt hne (Lexicon.pos_of_comment? hcomment)
      · cases h
        exact length_advance_lt hne Nat.one_pos
      · unfold exit? at h
        split at h
        · cases h
        · split at h
          · cases h
            exact length_advance_lt hne Nat.one_pos
          · cases h
      · obtain ⟨⟨t, n⟩, hleaf, rfl⟩ := Option.map_eq_some_iff.1 h
        exact length_advance_lt hne (hL.leaf_bounds hleaf).1

theorem step_blank (hc : isBlank c = true) :
    step L ⟨opened, tokens, p, c :: r⟩ = some ⟨opened, tokens, p.after [c], r⟩ := by
  rw [step]
  simp only [hc, if_true, advance, take_succ_cons, take_zero, drop_succ_cons, drop_zero]

theorem step_comment (h : L.IsComment text rest) :
    step L ⟨opened, tokens, p, text ++ rest⟩ = some ⟨opened, tokens, p.after text, rest⟩ := by
  have hcomment := Lexicon.comment?_of_isComment h
  obtain ⟨r, rfl⟩ : ∃ r, text = '/' :: r := by cases h <;> exact ⟨_, rfl⟩
  rw [cons_append] at hcomment ⊢
  simp only [step, hcomment, advance]
  rw [if_neg (by decide), ← cons_append, take_left, drop_left]

theorem step_opening :
    step L ⟨opened, tokens, p, d.opening :: r⟩ =
      some ⟨⟨d, p, tokens⟩ :: opened, [], p.after [d.opening], r⟩ := by
  obtain ⟨hblank, hcomment⟩ := Lexicon.comment?_eq_none_of_blanks (d.blanks_opening L r)
  have hopening : Delimiter.ofOpening? d.opening = some d := Delimiter.ofOpening?_eq_some_iff.2 rfl
  simp only [step, hblank, hcomment, hopening]
  rfl

theorem step_closing :
    step L ⟨opened, tokens, p, d.closing :: r⟩ = exit? ⟨opened, tokens, p, d.closing :: r⟩ d := by
  have hstart := d.startsLeaf_closing
  obtain ⟨hblank, hcomment⟩ := Lexicon.comment?_eq_none_of_blanks (L.blanks_of_startsLeaf hstart r)
  have hclosing : Delimiter.ofClosing? d.closing = some d := Delimiter.ofClosing?_eq_some_iff.2 rfl
  simp only [step, hblank, hcomment, hstart.opening, hclosing]
  rfl

theorem step_exit {q : Place} {before : List Token} :
    step L ⟨⟨d, q, before⟩ :: opened, tokens, p, d.closing :: r⟩ =
      some ⟨opened, before ++ [.group d tokens ⟨q.offset, (p.after [d.closing]).offset⟩ q.line],
      p.after [d.closing], r⟩ := by
  rw [step_closing, exit?]
  simp only [if_true, advance]
  rfl

theorem step_mismatch (h : ∀ g ∈ opened.head?, g.delimiter ≠ d) :
    step L ⟨opened, tokens, p, d.closing :: r⟩ = none := by
  rw [step_closing, exit?]
  cases opened with
  | nil => rfl
  | cons g outer => simp only [if_neg (h g rfl)]

theorem step_leaf (h : L.blanks (c :: r) = 0) (hopening : Delimiter.ofOpening? c = none)
    (hclosing : Delimiter.ofClosing? c = none) :
    step L ⟨opened, tokens, p, c :: r⟩ =
      (L.leaf p (c :: r)).map fun (t, n) =>
      ⟨opened, tokens ++ [t], p.after ((c :: r).take n), (c :: r).drop n⟩ := by
  obtain ⟨hblank, hcomment⟩ := Lexicon.comment?_eq_none_of_blanks h
  simp only [step, hblank, hcomment, hopening, hclosing]
  rfl

end Scan

/-- The tokens of a scan that is carried on to its end: the text has to be used up, and no
group may be left open. -/
def scan (language : Language) (x : Scan) : Option (List Token) :=
  match _h : x.step (lexicon language) with
  | some y => scan language y
  | none => if x.rest.isEmpty && x.opened.isEmpty then some x.tokens else none
termination_by x.rest.length
decreasing_by exact Scan.length_step_lt (lawful_lexicon language) _h

section

variable {language : Language} {x y : Scan} {opened : List OpenGroup} {tokens : List Token}
    {p : Place} {d : Delimiter}
  {s text gap rest : List Char}

theorem scan_of_step (h : x.step (lexicon language) = some y) :
    scan language x = scan language y := by
  rw [scan]
  split
  · rename_i z hz
    cases h.symm.trans hz
    rfl
  · rename_i hnone
    cases h.symm.trans hnone

theorem scan_of_stuck (h : x.step (lexicon language) = none) (hx : x.rest ≠ [] ∨ x.opened ≠ []) :
    scan language x = none := by
  rw [scan]
  split
  · rename_i z hz
    cases h.symm.trans hz
  · rw [if_neg]
    simpa [imp_iff_not_or] using hx

theorem scan_nil (language : Language) (tokens : List Token) (p : Place) :
    scan language ⟨[], tokens, p, []⟩ = some tokens := by
  rw [scan]
  rfl

theorem scan_skips (h : (lexicon language).Skips gap rest) (p : Place) :
    scan language ⟨opened, tokens, p, gap ++ rest⟩ =
      scan language ⟨opened, tokens, p.after gap, rest⟩ := by
  induction h generalizing p with
  | nil => rw [Place.after_nil, nil_append]
  | @blank c gap rest hc _ ih =>
    rw [cons_append, scan_of_step (Scan.step_blank hc), ih, ← Place.after_append]
    rfl
  | @comment text gap rest htext _ ih =>
    rw [append_assoc, scan_of_step (Scan.step_comment htext), ih, ← Place.after_append]

/-- What a forest takes of a text, as a scan sees it. The scan meets the same tokens, whatever
is open around them, and what follows them and some blanks is the end of the text, a closing
delimiter, or something at which every scan fails. -/
structure ScansForest (language : Language) (p : Place) (s text gap rest : List Char) : Prop where
  split : s = text ++ (gap ++ rest)
  length : ((lexicon language).forest p s).2 = text.length
  blanks : (lexicon language).blanks (gap ++ rest) = gap.length
  scans : ∀ opened tokens, scan language ⟨opened, tokens, p, s⟩ =
    scan language ⟨opened, tokens ++ ((lexicon language).forest p s).1, p.after (text ++ gap), rest⟩
  ends : rest = [] ∨ (∃ d : Delimiter, ∃ after, rest = d.closing :: after) ∨
    ∀ opened tokens, scan language ⟨opened, tokens, p.after (text ++ gap), rest⟩ = none

/-- A token at the start of a text, as a scan sees it. -/
inductive ScansToken (language : Language) (p : Place) (s : List Char) : Prop where
  | token {t : Token} {text after : List Char} (split : s = text ++ after) (nonempty : text ≠ [])
      (token : (lexicon language).token p s = some (t, text.length))
      (scans : ∀ opened tokens, scan language ⟨opened, tokens, p, s⟩ =
        scan language ⟨opened, tokens ++ [t], p.after text, after⟩)
  | none (token : (lexicon language).token p s = none)
      (ends : s = [] ∨ (∃ d : Delimiter, ∃ after, s = d.closing :: after) ∨
        ∀ opened tokens, scan language ⟨opened, tokens, p, s⟩ = Option.none)

theorem ScansToken.scan_eq {t : Token} (hscans : ScansToken language p (text ++ rest))
    (h : (lexicon language).token p (text ++ rest) = some (t, text.length))
    (opened : List OpenGroup) (tokens : List Token) :
    scan language ⟨opened, tokens, p, text ++ rest⟩ =
      scan language ⟨opened, tokens ++ [t], p.after text, rest⟩ := by
  cases hscans with
  | none hnone => cases hnone.symm.trans h
  | token hsplit _ htoken hscans =>
    obtain ⟨rfl, hlength⟩ := Prod.mk.inj (Option.some.inj (htoken.symm.trans h))
    obtain ⟨rfl, rfl⟩ := append_inj hsplit hlength.symm
    exact hscans opened tokens

/-- A group is closed by its delimiter; where another thing follows its tokens, neither a token
is read nor a scan accepts. -/
theorem scansToken_opening (h : ScansForest language (p.after [d.opening]) s text gap rest) :
    ScansToken language p (d.opening :: s) := by
  obtain ⟨rfl, hlength, hblanks, hscans, hends⟩ := h
  have hopen (opened tokens) :
      scan language ⟨opened, tokens, p, d.opening :: (text ++ (gap ++ rest))⟩ = _ :=
    (scan_of_step Scan.step_opening).trans (hscans _ _)
  rcases hforest : (lexicon language).forest (p.after [d.opening])
    (text ++ (gap ++ rest)) with ⟨children, m⟩
  rw [hforest] at hlength hopen
  obtain rfl : m = text.length := hlength
  by_cases hclosed : ∃ after, rest = d.closing :: after
  · obtain ⟨after, rfl⟩ := hclosed
    have hsplit : d.opening :: (text ++ (gap ++ d.closing :: after)) =
        d.opening :: (text ++ gap) ++ [d.closing] ++ after := by
      simp
    refine .token hsplit (by simp)
      (t := .group d children (Span.of p (d.opening :: (text ++ gap) ++ [d.closing])) p.line) ?_ ?_
    · refine Lexicon.token_opening_eq_some_iff.2 ⟨children, text.length, (text ++ gap).length,
        hforest, ?_, ?_, ?_, ?_⟩
      · rw [drop_left, hblanks, length_append]
      · rw [← append_assoc, drop_left]
        rfl
      · simp only [length_cons, length_append, length_nil]
      · rw [← append_assoc, take_length_add_append]
        rfl
    · intro opened tokens
      rw [hopen, scan_of_step Scan.step_exit, ← Place.after_append, ← Place.after_append]
      rfl
  · refine .none ?_ (.inr (.inr fun opened tokens => ?_))
    · cases htoken : (lexicon language).token p (d.opening :: (text ++ (gap ++ rest))) with
      | none => rfl
      | some pair =>
        obtain ⟨t, n⟩ := pair
        obtain ⟨children', m, k, hforest', rfl, hclosing, -⟩ :=
          Lexicon.token_opening_eq_some_iff.1 htoken
        cases hforest.symm.trans hforest'
        rw [drop_left, hblanks, ← append_assoc, ← length_append, drop_left] at hclosing
        obtain ⟨after, rfl⟩ := head?_eq_some_iff.1 hclosing
        exact absurd ⟨after, rfl⟩ hclosed
    · rw [hopen]
      rcases hends with rfl | ⟨d', after, rfl⟩ | hfails
      · exact scan_of_stuck rfl (.inr (by simp))
      · -- another group would have to be closed first
        refine scan_of_stuck (Scan.step_mismatch ?_) (.inl (by simp))
        rintro g hg rfl
        cases hg
        exact hclosed ⟨after, rfl⟩
      · exact hfails _ _

theorem scansToken_leaf {c : Char} {r : List Char}
    (hblanks : (lexicon language).blanks (c :: r) = 0)
    (hopening : Delimiter.ofOpening? c = none) : ScansToken language p (c :: r) := by
  have htoken : (lexicon language).token p (c :: r) = (lexicon language).leaf p (c :: r) :=
    Lexicon.token_of_not_opening hopening
  cases hclosing : Delimiter.ofClosing? c with
  | some d =>
    obtain rfl := Delimiter.ofClosing?_eq_some_iff.1 hclosing
    exact .none (htoken.trans (leaf_closing d p r)) (.inr (.inl ⟨d, r, rfl⟩))
  | none =>
    have hstep (opened tokens) : Scan.step (lexicon language) ⟨opened, tokens, p, c :: r⟩ = _ :=
      Scan.step_leaf hblanks hopening hclosing
    cases hleaf : (lexicon language).leaf p (c :: r) with
    | none =>
      refine .none (htoken.trans hleaf) (.inr (.inr fun opened tokens => ?_))
      refine scan_of_stuck ?_ (.inl (by simp))
      rw [hstep, hleaf]
      rfl
    | some pair =>
      obtain ⟨t, n⟩ := pair
      have hbounds := (lawful_lexicon language).leaf_bounds hleaf
      have hlength : ((c :: r).take n).length = n := length_take_of_le hbounds.2
      refine .token (take_append_drop n (c :: r)).symm ?_ (t := t) ?_ fun opened tokens => ?_
      · exact ne_nil_of_length_pos (hlength.symm ▸ hbounds.1)
      · rw [htoken, hleaf, hlength]
      · apply scan_of_step
        rw [hstep, hleaf]
        rfl

theorem scans (language : Language) :
    (∀ p s, (lexicon language).blanks s = 0 → ScansToken language p s) ∧
      ∀ p s, ∃ text gap rest, ScansForest language p s text gap rest := by
  refine (lawful_lexicon language).forest_induction ?_ ?_ ?_ ?_ ?_
  · exact fun p => .none (by rw [Lexicon.token]) (.inl rfl)
  · exact fun p c r hblanks hopening => scansToken_leaf hblanks hopening
  · rintro p d r ⟨text, gap, rest, hr⟩
    exact scansToken_opening hr
  · intro p gap rest hgap hlength htoken hends
    have hnone := Lexicon.forest_of_none hlength htoken
    cases hends with
    | token _ _ hsome => cases htoken.symm.trans hsome
    | none _ hends =>
      refine ⟨[], gap, rest, rfl, by rw [hnone]; rfl, hlength, fun opened tokens => ?_, hends⟩
      rw [scan_skips hgap p, hnone, append_nil, nil_append]
  · rintro p gap text after t hgap hlength htoken hne hfirst ⟨more, gap', rest', rfl, hmore,
      hblanks, hscans', hends⟩
    have hsome := Lexicon.forest_of_some hlength htoken hne
    have hscans := hfirst.scan_eq htoken
    rw [← Place.after_append] at hscans' hends
    have hplace : gap ++ text ++ (more ++ gap') = gap ++ text ++ more ++ gap' :=
      (append_assoc _ _ _).symm
    rw [hplace] at hscans' hends
    refine ⟨gap ++ text ++ more, gap', rest', by simp, ?_, hblanks, fun opened tokens => ?_, hends⟩
    · rw [hsome, hmore]
      simp only [length_append]
    · rw [scan_skips hgap p, hscans, ← Place.after_append, hscans', hsome, append_assoc]
      rfl

theorem scan_token {t : Token} (hblanks : (lexicon language).blanks (text ++ rest) = 0)
    (h : (lexicon language).token p (text ++ rest) = some (t, text.length)) :
    scan language ⟨opened, tokens, p, text ++ rest⟩ =
      scan language ⟨opened, tokens ++ [t], p.after text, rest⟩ :=
  ((scans language).1 p _ hblanks).scan_eq h opened tokens

/-- A body is accepted exactly if the scan of its text is, and with the same tokens. -/
theorem body?_eq_scan_start (language : Language) (p : Place) (s : List Char) :
    body? (lexicon language) p s = scan language (.start p s) := by
  obtain ⟨text, gap, rest, rfl, hlength, hblanks, hscans, hends⟩ := (scans language).2 p s
  rw [Scan.start, hscans]
  unfold body?
  rcases hforest : (lexicon language).forest p (text ++ (gap ++ rest)) with ⟨found, m⟩
  obtain rfl : m = text.length := by rw [← hlength, hforest]
  simp only [drop_left, hblanks, length_append, nil_append]
  rcases hends with rfl | ⟨d, after, rfl⟩ | hfails
  · rw [if_pos (by simp), scan_nil]
  · rw [if_neg (by simp), scan_of_stuck (Scan.step_mismatch (by simp)) (.inl (by simp))]
  · have hne : rest ≠ [] := by
      rintro rfl
      cases (scan_nil language found _).symm.trans (hfails [] found)
    rw [if_neg (by simpa using hne), hfails]

/-- The scans that steps lead to. -/
inductive Scan.Reaches (L : Lexicon) (x : Scan) : Scan → Prop where
  | refl : Reaches L x x
  | step {y z : Scan} (h : Reaches L x y) (hstep : y.step L = some z) : Reaches L x z

/-- What a text is refused for: a closing delimiter that does not match the innermost open
group, a group that is open at the end, a block comment that is not closed, and a quote with
which no literal starts. -/
inductive Scan.Blocked (L : Lexicon) : Scan → Prop where
  | mismatched {opened : List OpenGroup} {tokens : List Token} {p : Place} {d : Delimiter}
      {r : List Char}
      (h : ∀ g ∈ opened.head?, g.delimiter ≠ d) : Blocked L ⟨opened, tokens, p, d.closing :: r⟩
  | unclosed {opened : List OpenGroup} {tokens : List Token} {p : Place} (h : opened ≠ []) :
      Blocked L ⟨opened, tokens, p, []⟩
  | comment {opened : List OpenGroup} {tokens : List Token} {p : Place} {r : List Char}
      (h : L.commentTail r = none) :
      Blocked L ⟨opened, tokens, p, '/' :: '*' :: r⟩
  | quote {opened : List OpenGroup} {tokens : List Token} {p : Place} {c : Char} {r : List Char}
      (hc : c = '"' ∨ c = '\'')
      (h : L.literal (c :: r) = none) : Blocked L ⟨opened, tokens, p, c :: r⟩

theorem Scan.Reaches.scan_eq (h : Scan.Reaches (lexicon language) x y) :
    scan language x = scan language y := by
  induction h with
  | refl => rfl
  | step _ hstep ih => exact ih.trans (scan_of_step hstep)

theorem step_of_no_leaf {c : Char} {r : List Char}
    (hblanks : (lexicon language).blanks (c :: r) = 0)
    (hopening : Delimiter.ofOpening? c = none) (hclosing : Delimiter.ofClosing? c = none)
    (hliteral : (lexicon language).literal (c :: r) = none) (hword : startsWord c = false)
    (hsymbol : symbol (c :: r) = none) :
    Scan.step (lexicon language) ⟨opened, tokens, p, c :: r⟩ = none := by
  have hnoWord : (lexicon language).word (c :: r) = none := by
    cases hread : (lexicon language).word (c :: r) with
    | none => rfl
    | some n => cases hword.symm.trans (startsWord_of_word hread)
  rw [Scan.step_leaf hblanks hopening hclosing, Lexicon.leaf.eq_def, hliteral, hnoWord, hsymbol]
  rfl

theorem Scan.Blocked.scan_eq_none (h : x.Blocked (lexicon language)) : scan language x = none := by
  cases h with
  | mismatched h => exact scan_of_stuck (Scan.step_mismatch h) (.inl (by simp))
  | unclosed h => exact scan_of_stuck rfl (.inr h)
  | @comment opened tokens p r h =>
    have hblanks : (lexicon language).blanks ('/' :: '*' :: r) = 0 := by
      rw [Lexicon.blanks.eq_def]
      simp [isBlank, h]
    refine scan_of_stuck (step_of_no_leaf hblanks rfl rfl ?_ (by decide) rfl) (.inl (by simp))
    exact literal_eq_none language (by decide) _
  | @quote opened tokens p c r hc h =>
    have hstart : StartsLeaf c := startsLeaf_of_startsLiteral (by rcases hc with rfl | rfl <;> rfl)
    have hblanks := (lexicon language).blanks_of_startsLeaf hstart r
    refine scan_of_stuck ?_ (.inl (by simp))
    rcases hc with rfl | rfl
    · exact step_of_no_leaf hblanks rfl rfl h (by decide) rfl
    · exact step_of_no_leaf hblanks rfl rfl h (by decide) rfl

/-- **Bodies in one pass.** A text is read as the body of a file exactly if it passes the scan
with a stack of delimiters, and then it has the tokens of the scan. Where a scan meets
something for which a text is refused, the text is no body. -/
theorem body?_eq_scan (language : Language) (p : Place) (s : List Char) :
    body? (lexicon language) p s = scan language (.start p s) ∧
      ∀ x : Scan, Scan.Reaches (lexicon language) (.start p s) x → x.Blocked (lexicon language) →
        body? (lexicon language) p s = none := by
  have heq := body?_eq_scan_start language p s
  refine ⟨heq, fun x hreach hblocked => ?_⟩
  rw [heq, hreach.scan_eq, hblocked.scan_eq_none]

def mismatched : List Char := "f/* ( */(]".toList

theorem body?_mismatched :
    ∃ x : Scan, Scan.Reaches (lexicon .java) (.start (.start mismatched) mismatched) x ∧
      x.Blocked (lexicon .java) ∧ body? (lexicon .java) (.start mismatched) mismatched = none := by
  have hreach : Scan.Reaches (lexicon .java) (.start (.start mismatched) mismatched) _ :=
    .step (.step (.step .refl rfl) rfl) rfl
  have hblocked : Scan.Blocked (lexicon .java)
      ⟨[⟨.paren, ⟨.ofText mismatched, 8⟩, [.word "f" ⟨0, 1⟩ 1]⟩], [], ⟨.ofText mismatched, 9⟩,
        [']']⟩ :=
    .mismatched (d := .bracket) (by rintro g ⟨⟩; decide)
  exact ⟨_, hreach, hblocked, (body?_eq_scan .java (.start mismatched) _).2 _ hreach hblocked⟩

end

end WitnessReplay.Source
