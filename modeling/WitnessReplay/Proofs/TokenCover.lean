import WitnessReplay.Proofs.LexicalRules
import WitnessReplay.Proofs.LineNumbers

/-!
# Tokens cover the source

The tokens of a body stand in the source one behind the other, and nothing is left out between
them but blanks and comments. `Tiles` says so for a forest between two offsets; what is known
about calls and declared functions follows from it.
-/

namespace WitnessReplay.Source

open Text List

variable {L : Lexicon} {source before text after s : List Char} {n : Nat}

/-- A text stands in a source at a span, which starts on a line. Offsets are counted in bytes,
lines by line feeds and in 32 bits. -/
def Stands (source text : List Char) (span : Span) (line : Nat) : Prop :=
  ∃ before after, source = before ++ text ++ after ∧
    span = ⟨byteLength before, byteLength before + byteLength text⟩ ∧
    line = (1 + before.count '\n') % 2 ^ 32

/-- Between two offsets of a source there is nothing but blanks and comments. -/
def Gap (L : Lexicon) (source : List Char) (start stop : Nat) : Prop :=
  ∃ before gap after, source = before ++ gap ++ after ∧ start = byteLength before ∧
    stop = byteLength before + byteLength gap ∧ L.Skips gap after

mutual

/-- A token is what stands in the source at its span. The tokens of a group are between its
delimiters. -/
inductive Covers (L : Lexicon) (source : List Char) : Token → Prop where
  | word {text name : List Char} {span : Span} {line : Nat} (h : Stands source text span line)
      (hne : text ≠ [])
      (hname : Encloses text name) : Covers L source (.word (String.ofList name) span line)
  | literal {text : List Char} {span : Span} {line : Nat} (h : Stands source text span line)
      (hne : text ≠ []) :
      Covers L source (.literal (String.ofList text) span line)
  | symbol {c : Char} {span : Span} {line : Nat} (h : Stands source [c] span line) :
      Covers L source (.symbol c span line)
  | group {d : Delimiter} {children : List Token} {text : List Char} {span : Span} {line : Nat}
      (h : Stands source (d.opening :: text ++ [d.closing]) span line)
      (hchildren : Tiles L source (span.start + 1) children (span.stop - 1)) :
      Covers L source (.group d children span line)

/-- Tokens follow one another from an offset to another, with gaps between them. -/
inductive Tiles (L : Lexicon) (source : List Char) : Nat → List Token → Nat → Prop where
  | nil {start stop : Nat} (h : Gap L source start stop) : Tiles L source start [] stop
  | cons {start stop : Nat} {t : Token} {ts : List Token} (hgap : Gap L source start t.span.start)
      (ht : Covers L source t) (hts : Tiles L source t.span.stop ts stop) :
        Tiles L source start (t :: ts) stop

end

theorem byteLength_eq_zero {cs : List Char} (h : byteLength cs = 0) : cs = [] := by
  cases cs with
  | nil => rfl
  | cons c cs =>
    have hpos := c.utf8Size_pos
    rw [byteLength_cons] at h
    omega

theorem prefix_of_byteLength_le {a b source : List Char} (ha : a <+: source) (hb : b <+: source)
    (h : byteLength a ≤ byteLength b) : a <+: b := by
  rcases List.prefix_or_prefix_of_prefix ha hb with hle | ⟨rest, rfl⟩
  · exact hle
  · rw [byteLength_append] at h
    obtain rfl : rest = [] := byteLength_eq_zero (by omega)
    simp

theorem stands_of_append (before text after : List Char) :
    Stands (before ++ text ++ after) text (Span.of (.between before (text ++ after)) text)
      (Place.between before (text ++ after)).line :=
  ⟨before, after, rfl, Place.spanOf_between before text _, Place.line_between before _⟩

/-- What a token takes of a text behind `before`. -/
structure Takes (L : Lexicon) (before s : List Char) (t : Token) (n : Nat)
    (text after : List Char) : Prop where
  split : s = text ++ after
  length : n = text.length
  span : t.span = Span.of (.between before s) text
  covers : Covers L (before ++ s) t

theorem leaf_takes (hL : L.Lawful) {t : Token} (h : L.leaf (.between before s) s = some (t, n)) :
    Takes L before s t n (s.take n) (s.drop n) := by
  have hsplit (m : Nat) : s = s.take m ++ s.drop m := (take_append_drop m s).symm
  have hlength (m : Nat) (hm : m ≤ s.length) : m = (s.take m).length :=
    (length_take_of_le hm).symm
  have hnonempty (m : Nat) (hm : 0 < m ∧ m ≤ s.length) : s.take m ≠ [] := by
    refine ne_nil_of_length_pos ?_
    rw [length_take_of_le hm.2]
    exact hm.1
  have hstands (m : Nat) := stands_of_append before (s.take m) (s.drop m)
  simp only [append_assoc, take_append_drop] at hstands
  unfold Lexicon.leaf at h
  split at h
  · rename_i m _ _ hliteral
    cases h
    have hbounds := hL.literal hliteral
    exact ⟨hsplit n, hlength n hbounds.2, rfl, .literal (hstands n) (hnonempty n hbounds)⟩
  · rename_i m _ _ hword
    cases h
    obtain ⟨hpos, hle, name, hname⟩ := hL.word hword
    rw [bareName_of_encloses hname]
    exact ⟨hsplit n, hlength n hle, rfl, .word (hstands n) (hnonempty n ⟨hpos, hle⟩) hname⟩
  · rename_i m c r _ _ hsymbol
    cases h
    obtain ⟨rfl, -⟩ := symbol_eq_some hsymbol
    exact ⟨rfl, rfl, rfl, .symbol (hstands 1)⟩
  · cases h

theorem gap_of_append (before : List Char) {gap rest : List Char} (h : L.Skips gap rest) :
    Gap L (before ++ (gap ++ rest)) (byteLength before) (byteLength (before ++ gap)) :=
  ⟨before, gap, rest, by simp, rfl, by simp, h⟩

namespace Lexicon

variable {p : Place} {t : Token}

theorem token_of_not_opening {c : Char} {r : List Char} (hc : Delimiter.ofOpening? c = none) :
    L.token p (c :: r) = L.leaf p (c :: r) := by
  rw [token]
  simp only [hc]

/-- A group is a token if its closing delimiter is behind the tokens inside and the blanks that
follow them. -/
theorem token_opening_eq_some_iff {d : Delimiter} {r : List Char} :
    L.token p (d.opening :: r) = some (t, n) ↔
      ∃ children m k, L.forest (p.after [d.opening]) r = (children, m) ∧
        m + L.blanks (r.drop m) = k ∧
          (r.drop k).head? = some d.closing ∧ n = k + 2 ∧
          t = .group d children (Span.of p (d.opening :: r.take (k + 1))) p.line := by
  have hd : Delimiter.ofOpening? d.opening = some d := Delimiter.ofOpening?_eq_some_iff.2 rfl
  rw [token]
  simp only [hd]
  rcases L.forest (p.after [d.opening]) r with ⟨children, m⟩
  simp only []
  split
  · rename_i hclosing
    constructor
    · intro h
      cases h
      exact ⟨children, m, _, rfl, rfl, hclosing, rfl, rfl⟩
    · rintro ⟨children', m', k, heq, rfl, -, rfl, rfl⟩
      cases heq
      rfl
  · rename_i hclosing
    constructor
    · intro h
      cases h
    · rintro ⟨children', m', k, heq, rfl, hclosing', -⟩
      cases heq
      exact absurd hclosing' hclosing

theorem forest_of_none {gap rest : List Char} (hgap : L.blanks (gap ++ rest) = gap.length)
    (h : L.token (p.after gap) rest = none) : L.forest p (gap ++ rest) = ([], 0) := by
  cases hs : gap ++ rest with
  | nil => rw [forest]
  | cons c r =>
    rw [forest, ← hs]
    simp only [hgap, take_left, drop_left, h]

theorem forest_of_some {gap text after : List Char}
    (hgap : L.blanks (gap ++ (text ++ after)) = gap.length)
    (h : L.token (p.after gap) (text ++ after) = some (t, text.length)) (hne : text ≠ []) :
    L.forest p (gap ++ (text ++ after)) =
      (t :: (L.forest (p.after (gap ++ text)) after).1,
        gap.length + text.length + (L.forest (p.after (gap ++ text)) after).2) := by
  have hpos := length_pos_iff.2 hne
  cases hs : gap ++ (text ++ after) with
  | nil => simp [hne] at hs
  | cons c r =>
    have hdrop : r.drop (gap.length + text.length - 1) = after := by
      have hlong : (c :: r).drop (gap.length + text.length - 1 + 1) = after := by
        rw [← hs, Nat.sub_add_cancel (by omega), ← append_assoc, ← length_append, drop_left]
      exact hlong
    have htake : (c :: r).take (gap.length + text.length) = gap ++ text := by
      rw [← hs, ← append_assoc, ← length_append, take_left]
    rw [← hs] at htake
    rw [forest, ← hs]
    simp only [hgap, take_left, drop_left, h, hdrop, htake]

theorem forest_of_token {text after : List Char} (hblanks : L.blanks (text ++ after) = 0)
    (h : L.token p (text ++ after) = some (t, text.length)) (hne : text ≠ []) :
    L.forest p (text ++ after) =
      (t :: (L.forest (p.after text) after).1,
      text.length + (L.forest (p.after text) after).2) := by
  have hforest : L.forest p ([] ++ (text ++ after)) = _ :=
    forest_of_some hblanks (by rwa [Place.after_nil]) hne
  rw [nil_append, nil_append, length_nil, Nat.zero_add] at hforest
  exact hforest

theorem Lawful.leaf_bounds (hL : L.Lawful) (h : L.leaf p s = some (t, n)) :
    0 < n ∧ n ≤ s.length := by
  unfold Lexicon.leaf at h
  split at h
  · rename_i hliteral
    cases h
    exact hL.literal hliteral
  · rename_i hword
    cases h
    exact ⟨(hL.word hword).1, (hL.word hword).2.1⟩
  · rename_i hsymbol
    cases h
    obtain ⟨rfl, -⟩ := symbol_eq_some hsymbol
    simp
  · cases h

theorem Lawful.token_bounds (hL : L.Lawful) (h : L.token p s = some (t, n)) :
    0 < n ∧ n ≤ s.length := by
  cases s with
  | nil => simp [token] at h
  | cons c r =>
    cases hc : Delimiter.ofOpening? c with
    | none =>
      rw [token_of_not_opening hc] at h
      exact hL.leaf_bounds h
    | some d =>
      obtain rfl := Delimiter.ofOpening?_eq_some_iff.1 hc
      obtain ⟨children, m, k, -, -, hclosing, rfl, -⟩ := token_opening_eq_some_iff.1 h
      have hk : k < r.length := by
        rw [head?_drop] at hclosing
        exact (List.getElem?_eq_some_iff.1 hclosing).1
      rw [length_cons]
      omega

/-- **Induction over tokens and forests.** A property of the texts at which a token may start
and one of the texts of forests hold everywhere if the first holds of leaves, and of groups
whose inside has the second; and the second holds where no token starts, and passes from what
is behind a token to the text with the token. -/
theorem Lawful.forest_induction (hL : L.Lawful) {token forest : Place → List Char → Prop}
    (nil : ∀ p, token p [])
    (leaf : ∀ p c r, L.blanks (c :: r) = 0 → Delimiter.ofOpening? c = none → token p (c :: r))
    (group : ∀ p (d : Delimiter) r, forest (p.after [d.opening]) r → token p (d.opening :: r))
    (stop : ∀ p gap rest, L.Skips gap rest → L.blanks (gap ++ rest) = gap.length →
      L.token (p.after gap) rest = none → token (p.after gap) rest → forest p (gap ++ rest))
    (next : ∀ p gap text after t, L.Skips gap (text ++ after) →
    L.blanks (gap ++ (text ++ after)) = gap.length →
      L.token (p.after gap) (text ++ after) = some (t, text.length) → text ≠ [] →
      token (p.after gap) (text ++ after) → forest (p.after (gap ++ text)) after →
      forest p (gap ++ (text ++ after))) :
    (∀ p s, L.blanks s = 0 → token p s) ∧ ∀ p s, forest p s := by
  have first (s : List Char) (hinside : ∀ r : List Char, r.length < s.length →
      ∀ p, forest p r) (p : Place)
        (hs : L.blanks s = 0) : token p s := by
    cases s with
    | nil => exact nil p
    | cons c r =>
      cases hc : Delimiter.ofOpening? c with
      | none => exact leaf p c r hs hc
      | some d =>
        obtain rfl := Delimiter.ofOpening?_eq_some_iff.1 hc
        exact group p d r (hinside r (Nat.lt_succ_self _) _)
  have all (p : Place) (s : List Char) : forest p s := by
    -- what is inside a group and what is behind a token are both shorter than the text, but
    -- neither is the other's tail
    induction hlen : s.length using Nat.strongRecOn generalizing p s with
    | _ len ih =>
      subst hlen
      obtain ⟨gap, rest, rfl, hlength, hgap, hrest⟩ := hL.exists_gap s
      have hfirst : token (p.after gap) rest := by
        refine first rest (fun r hr q => ih r.length ?_ q r rfl) (p.after gap) hrest
        rw [length_append]
        omega
      cases htoken : L.token (p.after gap) rest with
      | none => exact stop p gap rest hgap hlength htoken hfirst
      | some found =>
        obtain ⟨t, n⟩ := found
        have hbounds := hL.token_bounds htoken
        obtain ⟨text, after, rfl, rfl⟩ : ∃ text after, rest = text ++ after ∧ n = text.length :=
          ⟨rest.take n, rest.drop n, (take_append_drop n rest).symm,
            (length_take_of_le hbounds.2).symm⟩
        refine next p gap text after t hgap hlength htoken (ne_nil_of_length_pos hbounds.1)
          hfirst ?_
        refine ih after.length ?_ _ after rfl
        rw [length_append, length_append]
        omega
  exact ⟨fun p s hs => first s (fun r _ q => all q r) p hs, all⟩

end Lexicon

theorem Delimiter.utf8Size_opening (d : Delimiter) : d.opening.utf8Size = 1 := by
  cases d <;> rfl

theorem Delimiter.utf8Size_closing (d : Delimiter) : d.closing.utf8Size = 1 := by
  cases d <;> rfl

/-- What a forest takes of a text behind `before`. Its tokens reach up to the blanks that
follow it. -/
structure TakesAll (L : Lexicon) (before s text after : List Char) : Prop where
  split : s = text ++ after
  length : (L.forest (.between before s) s).2 = text.length
  tiles : ∀ {gap rest}, after = gap ++ rest → L.Skips gap rest →
    Tiles L (before ++ s) (byteLength before) (L.forest (.between before s) s).1
    (byteLength (before ++ text ++ gap))

theorem group_takes (hL : L.Lawful) {d : Delimiter} {t : Token} {inside behind : List Char}
    (hinside : TakesAll L (before ++ [d.opening]) s inside behind)
    (h : L.token (.between before (d.opening :: s)) (d.opening :: s) = some (t, n)) :
    ∃ text after, Takes L before (d.opening :: s) t n text after := by
  obtain ⟨children, m, k, hforest, hk, hclosing, rfl, rfl⟩ := Lexicon.token_opening_eq_some_iff.1 h
  obtain ⟨rfl, hlength, htiles⟩ := hinside
  have hplace := Place.after_between before [d.opening] (inside ++ behind)
  rw [singleton_append] at hplace
  rw [hplace] at hforest
  rw [hforest] at hlength htiles
  obtain rfl : m = inside.length := hlength
  obtain ⟨gap, rest, rfl, hblanks, hgap⟩ := hL.skips_blanks behind
  obtain rfl : (inside ++ gap).length = k := by simpa [hblanks] using hk
  rw [← append_assoc, drop_left] at hclosing
  obtain ⟨after, rfl⟩ := head?_eq_some_iff.1 hclosing
  have htiles := htiles rfl hgap
  have htext : (inside ++ (gap ++ d.closing :: after)).take ((inside ++ gap).length + 1) =
      inside ++ gap ++ [d.closing] := by
    rw [← append_assoc, take_length_add_append]
    rfl
  have hsplit : d.opening :: (inside ++ (gap ++ d.closing :: after)) =
      d.opening :: (inside ++ gap) ++ [d.closing] ++ after := by simp
  rw [htext]
  refine ⟨d.opening :: (inside ++ gap) ++ [d.closing], after, hsplit, by simp; omega, rfl, ?_⟩
  have hstands := stands_of_append before (d.opening :: (inside ++ gap) ++ [d.closing]) after
  have hopen : byteLength (before ++ [d.opening]) = byteLength before + 1 := by
    simp [d.utf8Size_opening]
  have hclose : byteLength (before ++ [d.opening] ++ inside ++ gap) =
      byteLength before + byteLength (d.opening :: (inside ++ gap) ++ [d.closing]) - 1 := by
    simp [d.utf8Size_closing]
    omega
  rw [hopen, hclose, ← append_cons] at htiles
  rw [append_assoc before, ← hsplit] at hstands
  refine .group hstands ?_
  rw [Place.spanOf_between]
  exact htiles

theorem tokens_take (hL : L.Lawful) :
    (∀ p s, L.blanks s = 0 → ∀ before t n, p = .between before s → L.token p s = some (t, n) →
        ∃ text after, Takes L before s t n text after) ∧
      ∀ (p : Place) s, ∀ before, p = .between before s →
      ∃ text after, TakesAll L before s text after := by
  refine hL.forest_induction ?_ ?_ ?_ ?_ ?_
  · intro p before t n _ h
    rw [Lexicon.token] at h
    cases h
  · rintro p c r _ hc before t n rfl h
    rw [Lexicon.token_of_not_opening hc] at h
    exact ⟨_, _, leaf_takes hL h⟩
  · rintro p d r hforest before t n rfl h
    obtain ⟨inside, behind, hinside⟩ :=
      hforest (before ++ [d.opening]) (Place.after_between before [d.opening] r)
    exact group_takes hL hinside h
  · rintro p gap rest hgap hlength htoken _ before rfl
    have hnone := Lexicon.forest_of_none hlength htoken
    refine ⟨[], gap ++ rest, rfl, by rw [hnone]; rfl, ?_⟩
    intro gap' rest' hrest hgap'
    rw [hnone, hrest, append_nil]
    exact .nil (gap_of_append before hgap')
  · rintro p gap text after t hgap hlength htoken hne hfirst hforest before rfl
    have hsome := Lexicon.forest_of_some hlength htoken hne
    rw [Place.after_between] at htoken hfirst
    obtain ⟨text', after', hsplit, hlength', hspan, hcovers⟩ :=
      hfirst (before ++ gap) t text.length rfl htoken
    obtain ⟨rfl, rfl⟩ := append_inj hsplit hlength'
    have hplace : (Place.between before (gap ++ (text ++ after))).after (gap ++ text) =
        .between (before ++ (gap ++ text)) after := by
      rw [← append_assoc, Place.after_between]
    rw [hplace] at hsome
    obtain ⟨more, behind, rfl, hlength, htiles⟩ := hforest (before ++ (gap ++ text)) hplace
    refine ⟨gap ++ text ++ more, behind, by simp, ?_, ?_⟩
    · rw [hsome, hlength]
      simp only [length_append]
    · intro gap' rest' hrest hgap'
      -- the blanks behind the whole forest are those behind the tokens that remain
      have hmore := htiles hrest hgap'
      have hfront := gap_of_append before hgap
      have hstart : t.span.start = byteLength (before ++ gap) := by
        rw [hspan, Place.spanOf_between, Span.behind]
      have hstop : t.span.stop = byteLength (before ++ (gap ++ text)) := by
        rw [hspan, Place.spanOf_between, Span.behind, ← byteLength_append, append_assoc]
      rw [← hstart] at hfront
      rw [← hstop] at hmore
      rw [append_assoc] at hcovers
      rw [hsome]
      simp only [append_assoc] at hmore ⊢
      exact .cons hfront hcovers hmore

theorem body_tiles (hL : L.Lawful) {tokens : List Token}
    (h : body? L ((Place.start source).after (source.take n)) (source.drop n) = some tokens) :
    Tiles L source (byteLength (source.take n)) tokens (byteLength source) := by
  have hplace : (Place.start source).after (source.take n) =
      .between (source.take n) (source.drop n) := by
    rw [Place.between, take_append_drop]
  rw [hplace] at h
  have hsource := take_append_drop n source
  generalize source.take n = before at h hsource ⊢
  generalize source.drop n = s at h hsource
  subst hsource
  obtain ⟨text, after, rfl, hlength, htiles⟩ := (tokens_take hL).2 _ s before rfl
  unfold body? at h
  rcases hforest : L.forest (.between before (text ++ after)) (text ++ after) with ⟨found, m⟩
  rw [hforest] at h hlength htiles
  obtain rfl : m = text.length := hlength
  simp only [drop_left] at h
  split at h
  · rename_i hblanks
    cases h
    obtain ⟨gap, rest, rfl, hgap, hskips⟩ := hL.skips_blanks after
    obtain rfl : rest = [] := by
      have hlengths := hgap.symm.trans hblanks
      simpa using hlengths
    have htiles := htiles rfl hskips
    simpa [append_assoc] using htiles
  · cases h

/-- Tokens stand one behind the other somewhere in a forest. -/
inductive Occurs (w : List Token) : List Token → Prop where
  | here {rest : List Token} : Occurs w (w ++ rest)
  | later {t : Token} {ts : List Token} (h : Occurs w ts) : Occurs w (t :: ts)
  | inside {d : Delimiter} {children rest : List Token} {span : Span} {line : Nat}
      (h : Occurs w children) :
      Occurs w (.group d children span line :: rest)

theorem Occurs.append {w ts : List Token} (h : Occurs w ts) (front : List Token) :
    Occurs w (front ++ ts) := by
  induction front with
  | nil => exact h
  | cons t front ih => exact .later ih

theorem Tiles.of_occurs {w tokens : List Token} {start stop : Nat}
    (h : Tiles L source start tokens stop)
    (hw : Occurs w tokens) : ∃ start' rest stop', Tiles L source start' (w ++ rest) stop' := by
  induction hw generalizing start stop with
  | here => exact ⟨start, _, stop, h⟩
  | later _ ih =>
    cases h with
    | cons hgap ht hts => exact ih hts
  | inside _ ih =>
    cases h with
    | cons hgap ht hts =>
      cases ht with
      | group hstands hchildren => exact ih hchildren

/-- A call is found at its name, a function at its name with the parameter list behind it. -/
structure Findings.From (found : Findings) (tokens : List Token) : Prop where
  calls : ∀ c ∈ found.calls, Occurs [.word c.name c.span c.line] tokens
  functions : ∀ f ∈ found.functions, ∃ params line,
    Occurs [.word f.name f.nameSpan f.line, .group .paren params f.paramsSpan line] tokens

namespace Findings

variable {found found' : Findings} {tokens : List Token}

theorem From.none : From {} tokens :=
  ⟨fun _ h => absurd h not_mem_nil, fun _ h => absurd h not_mem_nil⟩

theorem From.append (h : From found tokens) (h' : From found' tokens) :
    From (found ++ found') tokens := by
  constructor
  · intro c hc
    rcases mem_append.1 hc with hc | hc
    · exact h.calls c hc
    · exact h'.calls c hc
  · intro f hf
    rcases mem_append.1 hf with hf | hf
    · exact h.functions f hf
    · exact h'.functions f hf

theorem From.mono {tokens' : List Token} (h : From found tokens)
    (hw : ∀ {w}, Occurs w tokens → Occurs w tokens') :
    From found tokens' := by
  constructor
  · intro c hc
    exact hw (h.calls c hc)
  · intro f hf
    obtain ⟨params, line, hf⟩ := h.functions f hf
    exact ⟨params, line, hw hf⟩

end Findings

theorem Token.word?_eq_some {t : Token} {text : String} (h : t.word? = some text) :
    t = .word text t.span t.line := by
  cases t <;> simp_all [Token.word?, Token.span, Token.line]

theorem Token.children?_eq_some {t : Token} {d : Delimiter} {children : List Token}
    (h : t.children? d = some children) :
    t = .group d children t.span t.line := by
  cases t <;> simp_all [Token.children?, Token.span, Token.line]

namespace Java

theorem findingsAt_from (depth : Nat) (before : List Token) (t : Token) (after : List Token) :
    (findingsAt depth before t after).From (t :: after) := by
  unfold findingsAt
  split
  · rename_i text params rest hname
    have ht := Token.word?_eq_some hname
    split
    · exact .none
    · rename_i paramTokens hparams
      have hp := Token.children?_eq_some hparams
      split
      split
      · exact .none
      · split
        · refine ⟨fun _ hc => absurd hc not_mem_nil, fun f hf => ⟨paramTokens, params.line, ?_⟩⟩
          obtain rfl := mem_singleton.1 hf
          simp only [← ht, ← hp]
          exact .here
        · refine ⟨fun c hc => ?_, fun _ hf => absurd hf not_mem_nil⟩
          obtain rfl := mem_singleton.1 hc
          simp only [← ht]
          exact .here
  · exact .none

theorem findings_from (depth : Nat) (before tokens : List Token) :
    (findings depth before tokens).From tokens := by
  fun_induction findings depth before tokens with
  | case1 => exact .none
  | case2 _ _ _ _ _ _ _ ihInside ihAfter =>
    exact (ihInside.mono .inside).append (ihAfter.mono .later)
  | case3 _ _ t after _ ih => exact (findingsAt_from _ _ t after).append (ih.mono .later)

end Java

namespace Kotlin

theorem paramsOf?_eq_some {after front rest : List Token} {params : Token}
    (h : paramsOf? after = some (front, params, rest)) : after = front ++ params :: rest ∧
    params.isGroup .paren = true := by
  induction after generalizing front with
  | nil => cases h
  | cons t after ih =>
    rw [paramsOf?] at h
    split at h
    · rename_i ht
      cases h
      exact ⟨rfl, ht⟩
    · split at h
      · cases h
      · obtain ⟨⟨front', params', rest'⟩, hafter, heq⟩ := Option.map_eq_some_iff.1 h
        cases heq
        obtain ⟨rfl, hparams⟩ := ih hafter
        exact ⟨rfl, hparams⟩

theorem declared?_eq_some {depth n : Nat} {after : List Token} {f : Function}
    (h : declared? depth after = some (n, f)) :
    ∃ front params line rest, n = front.length + 1 ∧
      after = front ++ .word f.name f.nameSpan f.line :: .group .paren params f.paramsSpan line ::
      rest := by
  unfold declared? at h
  obtain ⟨⟨front, params, rest⟩, hparams, hfront⟩ := Option.bind_eq_some_iff.1 h
  obtain ⟨name, hlast, hname⟩ := Option.bind_eq_some_iff.1 hfront
  obtain ⟨text, htext, hf⟩ := Option.bind_eq_some_iff.1 hname
  obtain ⟨rfl, hgroup⟩ := paramsOf?_eq_some hparams
  obtain ⟨children, hchildren⟩ := Option.isSome_iff_exists.1 hgroup
  obtain ⟨init, rfl⟩ := getLast?_eq_some_iff.1 hlast
  have hword := Token.word?_eq_some htext
  have hlist := Token.children?_eq_some hchildren
  cases hf
  refine ⟨init, children, params.line, rest, length_append, ?_⟩
  simp only [← hword, ← hlist, append_assoc, singleton_append]

theorem eq_append_of_mem_declarations {depth i : Nat} {tokens : List Token} {entry : Nat × Function}
    (h : entry ∈ declarations depth i tokens) :
    ∃ front params line rest, entry.1 = i + front.length ∧
      tokens = front ++ .word entry.2.name entry.2.nameSpan entry.2.line ::
        .group .paren params entry.2.paramsSpan line :: rest := by
  induction tokens generalizing i with
  | nil => cases h
  | cons t after ih =>
    have hlater (h : entry ∈ declarations depth (i + 1) after) :
        ∃ front params line rest, entry.1 = i + front.length ∧
          t :: after = front ++ .word entry.2.name entry.2.nameSpan entry.2.line ::
            .group .paren params entry.2.paramsSpan line :: rest := by
      obtain ⟨front, params, line, rest, hindex, rfl⟩ := ih h
      exact ⟨t :: front, params, line, rest, by rw [hindex, length_cons]; omega, rfl⟩
    rw [declarations] at h
    split at h
    · rename_i n f hdeclared
      split at hdeclared
      · rcases mem_cons.1 h with rfl | h
        · obtain ⟨front, params, line, rest, rfl, rfl⟩ := declared?_eq_some hdeclared
          exact ⟨t :: front, params, line, rest, rfl, rfl⟩
        · exact hlater h
      · cases hdeclared
    · exact hlater h

theorem occurs_of_callAt? {before after : List Token} {t : Token} {c : Call}
    (h : callAt? before t after = some c) :
    Occurs [.word c.name c.span c.line] (t :: after) := by
  unfold callAt? at h
  obtain ⟨text, htext, h⟩ := Option.bind_eq_some_iff.1 h
  obtain ⟨next, -, h⟩ := Option.bind_eq_some_iff.1 h
  have hname := Token.word?_eq_some htext
  split at h
  · cases h
  · split at h
    · cases h
    · cases h
      simp only [← hname]
      exact .here

mutual

theorem findings_from (depth : Nat) (tokens : List Token) :
    (findings depth tokens).From tokens := by
  rw [findings]
  refine Findings.From.append ⟨fun _ hc => absurd hc not_mem_nil, fun f hf =>
    ?_⟩ (nested_from _ _ _ tokens)
  obtain ⟨entry, hentry, rfl⟩ := mem_map.1 hf
  obtain ⟨front, params, line, rest, -, rfl⟩ := eq_append_of_mem_declarations hentry
  exact ⟨params, line, Occurs.here.append front⟩
termination_by (sizeOf tokens, 1)

theorem nested_from (depth : Nat) (declared : List Nat) (before tokens : List Token) :
    (nested depth declared before tokens).From tokens := by
  rw [nested.eq_def]
  cases tokens with
  | nil => exact .none
  | cons t after =>
    have hafter := (nested_from depth declared (t :: before) after).mono (.later (t := t))
    have hcalls : Findings.From { calls := (callAt? before t after).toList } (t :: after) := by
      refine ⟨fun c hc => ?_, fun _ hf => absurd hf not_mem_nil⟩
      exact occurs_of_callAt? (Option.mem_toList.1 hc)
    cases t with
    | group d children span line =>
      exact ((findings_from (d.inner depth) children).mono .inside).append hafter
    | _ =>
      refine .append ?_ hafter
      dsimp only
      split
      · exact .none
      · exact hcalls
termination_by (sizeOf tokens, 0)

end

end Kotlin

theorem findings_from (language : Language) (tokens : List Token) :
    (findings language tokens).From tokens := by
  cases language
  · exact Java.findings_from 0 [] tokens
  · exact Kotlin.findings_from 0 tokens

def NameStands (source : List Char) (name : String) (span : Span) (line : Nat) : Prop :=
  ∃ text, text ≠ [] ∧ Encloses text name.toList ∧ Stands source text span line

theorem Covers.nameStands {name : String} {span : Span} {line : Nat}
    (h : Covers L source (.word name span line)) :
    NameStands source name span line := by
  cases h with
  | word h hne hname => exact ⟨_, hne, by rwa [String.toList_ofList], h⟩

theorem Gap.le {start stop : Nat} (h : Gap L source start stop) : start ≤ stop := by
  obtain ⟨before, gap, after, -, rfl, rfl, -⟩ := h
  exact Nat.le_add_right _ _

theorem parse_eq_ok_iff {language : Language} {source file : String} {outline : Outline} :
    parse language source file = .ok outline ↔
      ∃ n tokens, header language (.start source.toList) source.toList =
        some ((outline.package, outline.imports), n) ∧
        body? (lexicon language) ((Place.start source.toList).after (source.toList.take n))
        (source.toList.drop n) = some tokens ∧
        outline.calls = (findings language tokens).calls ∧
        outline.functions = (findings language tokens).functions := by
  constructor
  · intro h
    unfold parse at h
    split at h
    · rename_i houtline
      cases h
      obtain ⟨⟨⟨package, imports⟩, n⟩, hheader, hrest⟩ := Option.bind_eq_some_iff.1 houtline
      obtain ⟨tokens, hbody, heq⟩ := Option.bind_eq_some_iff.1 hrest
      cases heq
      exact ⟨n, tokens, hheader, hbody, rfl, rfl⟩
    · cases h
  · rintro ⟨n, tokens, hheader, hbody, hcalls, hfunctions⟩
    have houtline : outline? language source = some outline := by
      refine Option.bind_eq_some_iff.2 ⟨_, hheader, Option.bind_eq_some_iff.2 ⟨tokens, hbody, ?_⟩⟩
      dsimp only
      rw [← hcalls, ← hfunctions]
      rfl
    rw [parse, houtline]

/-- A function that is found among tokens has its name where it is said to stand, and its
parameter list behind it. -/
theorem Tiles.functionStands {language : Language} {tokens : List Token} {start stop : Nat}
    (h : Tiles (lexicon language) source start tokens stop) {f : Function}
    (hf : f ∈ (findings language tokens).functions) :
    NameStands source f.name f.nameSpan f.line ∧ f.nameSpan.stop ≤ f.paramsSpan.start ∧
      ∃ text line, Stands source ('(' :: text ++ [')']) f.paramsSpan line := by
  obtain ⟨params, line, hf⟩ := (findings_from language tokens).functions f hf
  obtain ⟨_, _, _, hf⟩ := h.of_occurs hf
  cases hf with
  | cons _ hname hrest =>
    cases hrest with
    | cons hgap hparams _ =>
      cases hparams with
      | group hstands _ => exact ⟨hname.nameStands, hgap.le, _, _, hstands⟩

/-- An offset of a source is on a line, which is counted by the line feeds in front of it. -/
def OnLine (source : List Char) (offset line : Nat) : Prop :=
  ∃ before after, source = before ++ after ∧ offset = byteLength before ∧
    line = 1 + before.count '\n'

theorem Stands.onLine {span : Span} {line : Nat} (h : Stands source text span line)
    (hlines : source.count '\n' + 1 < 2 ^ 32) : OnLine source span.start line := by
  obtain ⟨before, after, rfl, rfl, rfl⟩ := h
  refine ⟨before, text ++ after, append_assoc _ _ _, rfl, Nat.mod_eq_of_lt ?_⟩
  simp only [count_append] at hlines
  omega

/-- In a file that is read, the tokens cover the body, every call and every declared function
stands where it is said to, and the parameter list of a function follows its name. In a file of
less than 2 ^ 32 lines, the lines of calls and functions are those on which their names start.
-/
theorem positions_of_parse {language : Language} {source file : String} {outline : Outline}
    (h : parse language source file = .ok outline) :
    ∃ n tokens, header language (.start source.toList) source.toList =
      some ((outline.package, outline.imports), n) ∧
      body? (lexicon language) ((Place.start source.toList).after (source.toList.take n))
      (source.toList.drop n) =
        some tokens ∧
      Tiles (lexicon language) source.toList (byteLength (source.toList.take n)) tokens
      (byteLength source.toList) ∧
      (∀ c ∈ outline.calls, NameStands source.toList c.name c.span c.line) ∧
      (∀ f ∈ outline.functions, NameStands source.toList f.name f.nameSpan f.line ∧
        f.nameSpan.stop ≤ f.paramsSpan.start ∧
        ∃ text line, Stands source.toList ('(' :: text ++ [')']) f.paramsSpan line) ∧
      (source.toList.count '\n' + 1 < 2 ^ 32 →
        (∀ c ∈ outline.calls, OnLine source.toList c.span.start c.line) ∧
          ∀ f ∈ outline.functions, OnLine source.toList f.nameSpan.start f.line) := by
  obtain ⟨n, tokens, hheader, hbody, hcalls, hfunctions⟩ := parse_eq_ok_iff.1 h
  have htiles := body_tiles (lawful_lexicon language) hbody
  have hnames : ∀ c ∈ outline.calls, NameStands source.toList c.name c.span c.line := by
    rw [hcalls]
    intro c hc
    obtain ⟨_, _, _, hc⟩ := htiles.of_occurs ((findings_from language tokens).calls c hc)
    cases hc with
    | cons _ hname _ => exact hname.nameStands
  have hdeclared : ∀ f ∈ outline.functions, NameStands source.toList f.name f.nameSpan f.line ∧
      f.nameSpan.stop ≤ f.paramsSpan.start ∧
      ∃ text line, Stands source.toList ('(' :: text ++ [')']) f.paramsSpan line := by
    rw [hfunctions]
    intro f hf
    exact htiles.functionStands hf
  refine ⟨n, tokens, hheader, hbody, htiles, hnames, hdeclared, fun hlines =>
    ⟨fun c hc => ?_, fun f hf => ?_⟩⟩
  · obtain ⟨_, _, _, hstands⟩ := hnames c hc
    exact hstands.onLine hlines
  · obtain ⟨_, _, _, hstands⟩ := (hdeclared f hf).1
    exact hstands.onLine hlines

theorem parse_of_findings {language : Language} {source : String} {tokens : List Token}
    {found : Findings}
    (houtline : outline? language source =
      some { calls := (findings language tokens).calls,
             functions := (findings language tokens).functions })
    (hfound : findings language tokens = found) (file : String) :
    parse language source file = .ok { calls := found.calls, functions := found.functions } := by
  rw [parse, houtline, hfound]

def methodSource : String :=
  "/* é */\nint m() \x7b\n  return f(1);\n\x7d\n"

def methodTokens : List Token :=
  [.word "int" ⟨9, 12⟩ 2, .word "m" ⟨13, 14⟩ 2, .group .paren [] ⟨14, 16⟩ 2,
   .group .brace
    [.word "return" ⟨21, 27⟩ 3, .word "f" ⟨28, 29⟩ 3,
    .group .paren [.literal "1" ⟨30, 31⟩ 3] ⟨29, 32⟩ 3,
     .symbol ';' ⟨32, 33⟩ 3] ⟨17, 35⟩ 2]

def methodOutline : Outline where
  calls := [⟨"f", none, 3, ⟨28, 29⟩⟩]
  functions := [⟨"m", 0, 2, ⟨13, 14⟩, ⟨14, 16⟩, 0, some 3⟩]

theorem parse_methodSource : parse .java methodSource "A.java" = .ok methodOutline := by
  have hfound : findings .java methodTokens = ⟨methodOutline.calls, methodOutline.functions⟩ := by
    simp [methodTokens, findings, Java.findings, Java.findingsAt, Token.word?, Token.children?,
      qualifierBefore, Java.keywords, Token.isSymbol, Token.isWord, Java.declaration?,
      Java.afterThrows, leadingReturn, qualifierText, Token.line, Token.span, countParams,
      countParams.go]
    rfl
  exact parse_of_findings (by with_unfolding_all rfl) hfound "A.java"

theorem positions_of_methodSource :
    NameStands methodSource.toList "f" ⟨28, 29⟩ 3 ∧ NameStands methodSource.toList "m" ⟨13, 14⟩ 2 ∧
      (∃ text line, Stands methodSource.toList ('(' :: text ++ [')']) ⟨14, 16⟩ line) ∧
      OnLine methodSource.toList 28 3 ∧ OnLine methodSource.toList 13 2 ∧
      ∃ n tokens, Tiles .java methodSource.toList (byteLength (methodSource.toList.take n)) tokens
        (byteLength methodSource.toList) := by
  obtain ⟨n, tokens, -, -, htiles, hcalls, hfunctions, hlines⟩ :=
    positions_of_parse parse_methodSource
  have hm := hfunctions _ (mem_singleton.2 rfl)
  obtain ⟨hcall, hfunction⟩ := hlines (by decide)
  exact ⟨hcalls _ (mem_singleton.2 rfl), hm.1, hm.2.2, hcall _ (mem_singleton.2 rfl),
    hfunction _ (mem_singleton.2 rfl), n, tokens, htiles⟩

end WitnessReplay.Source
