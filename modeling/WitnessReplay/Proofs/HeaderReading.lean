import WitnessReplay.Proofs.StandardHeaders

/-!
# Headers as tokens

The header of a Java file is read from its characters, and the body behind it is read into
tokens. But nothing that a header takes is cut otherwise than into tokens: each of its rules
does what a reader does that sees only the tokens of the file. So the header can be read off
the tokens of the whole file, and what it does not take are the tokens of the body.
-/

namespace WitnessReplay.Source

open Text Lexicon List

/-! ### Readers of tokens -/

abbrev TokenReader : Type → Type :=
  StateT (List Token) Option

namespace TokenReader

variable {α β : Type}

def one (f : Token → Option α) : TokenReader α
  | t :: ts => (f t).map (·, ts)
  | [] => none

def only (f : Token → Bool) : TokenReader Unit :=
  one fun t => if f t then some () else none

def notAhead (f : Token → Bool) : TokenReader Unit :=
  fun ts => if ts.head?.any f then none else some ((), ts)

def option (y : TokenReader α) : TokenReader (Option α) :=
  fun ts =>
    match y ts with
    | some (a, rest) => some (some a, rest)
    | none => some (none, ts)

def test (y : TokenReader α) : TokenReader Bool := do
  return (← option y).isSome

def many (y : TokenReader α) : TokenReader (List α) :=
  fun ts => some (go ts)
where
  /-- The values, and the tokens behind them. -/
  go (ts : List Token) : List α × List Token :=
    match y ts with
    | none => ([], ts)
    | some (a, rest) =>
      if rest.length < ts.length then (a :: (go rest).1, (go rest).2) else ([], ts)
  termination_by ts.length

theorem bind_of_some {y : TokenReader α} {g : α → TokenReader β} {ts rest : List Token} {a : α}
    (h : y ts = some (a, rest)) :
    (y >>= g) ts = g a rest := by
  change (y ts).bind (fun found => g found.1 found.2) = _
  rw [h]
  rfl

theorem bind_of_none {y : TokenReader α} {g : α → TokenReader β} {ts : List Token}
    (h : y ts = none) : (y >>= g) ts = none := by
  change (y ts).bind (fun found => g found.1 found.2) = _
  rw [h]
  rfl

theorem bind_eq_some_iff {y : TokenReader α} {g : α → TokenReader β} {ts rest : List Token}
    {b : β} :
    (y >>= g) ts = some (b, rest) ↔ ∃ a middle, y ts = some (a, middle) ∧
    g a middle = some (b, rest) := by
  cases h : y ts with
  | none => simp [bind_of_none h]
  | some found =>
    obtain ⟨a, middle⟩ := found
    rw [bind_of_some h]
    constructor
    · intro hg
      exact ⟨a, middle, rfl, hg⟩
    · rintro ⟨a', middle', heq, hg⟩
      cases heq
      exact hg

theorem option_eq_some_iff {y : TokenReader α} {ts rest : List Token} {found : Option α} :
    y.option ts = some (found, rest) ↔
      (∃ a, found = some a ∧ y ts = some (a, rest)) ∨ (found = none ∧ rest = ts ∧ y ts = none) := by
  rw [option]
  split
  next a middle h =>
    rw [h]
    simp only [Option.some.injEq, Prod.mk.injEq]
    constructor
    · rintro ⟨rfl, rfl⟩
      exact .inl ⟨a, rfl, rfl, rfl⟩
    · rintro (⟨b, rfl, rfl, rfl⟩ | ⟨-, -, hnone⟩)
      · exact ⟨rfl, rfl⟩
      · cases hnone
  next h => simp [h, eq_comm]

theorem test_eq_some_iff {y : TokenReader α} {ts rest : List Token} {b : Bool} :
    y.test ts = some (b, rest) ↔ (b = true ∧ ∃ a, y ts = some (a, rest)) ∨
    (b = false ∧ rest = ts ∧ y ts = none) := by
  rw [test, bind_eq_some_iff]
  constructor
  · rintro ⟨found, middle, hoption, hvalue⟩
    cases hvalue
    rcases option_eq_some_iff.1 hoption with ⟨a, rfl, ha⟩ | ⟨rfl, rfl, hnone⟩
    · exact .inl ⟨rfl, a, ha⟩
    · exact .inr ⟨rfl, rfl, hnone⟩
  · rintro (⟨rfl, a, ha⟩ | ⟨rfl, rfl, hnone⟩)
    · exact ⟨some a, rest, option_eq_some_iff.2 (.inl ⟨a, rfl, ha⟩), rfl⟩
    · exact ⟨none, rest, option_eq_some_iff.2 (.inr ⟨rfl, rfl, hnone⟩), rfl⟩

/-- What a reader leaves is not longer than what it was given. -/
def Shrinks (y : TokenReader α) : Prop :=
  ∀ ts v rest, y ts = some (v, rest) → rest.length ≤ ts.length

def Progresses (y : TokenReader α) : Prop :=
  ∀ ts v rest, y ts = some (v, rest) → rest.length < ts.length

theorem progresses_one (f : Token → Option α) : (one f).Progresses := by
  intro ts v rest h
  cases ts with
  | nil => cases h
  | cons t ts =>
    obtain ⟨w, -, heq⟩ := Option.map_eq_some_iff.1 h
    cases heq
    exact Nat.lt_succ_self _

variable {y : TokenReader α} {g : α → TokenReader β}

theorem Progresses.shrinks (h : y.Progresses) : y.Shrinks :=
  fun ts v rest hy => Nat.le_of_lt (h ts v rest hy)

theorem Progresses.bind (hy : y.Progresses) (hg : ∀ v, (g v).Shrinks) : (y >>= g).Progresses := by
  intro ts v rest h
  obtain ⟨a, middle, ha, hv⟩ := bind_eq_some_iff.1 h
  exact Nat.lt_of_le_of_lt (hg a middle v rest hv) (hy ts a middle ha)

theorem Shrinks.bind (hy : y.Shrinks) (hg : ∀ v, (g v).Shrinks) : (y >>= g).Shrinks := by
  intro ts v rest h
  obtain ⟨a, middle, ha, hv⟩ := bind_eq_some_iff.1 h
  exact Nat.le_trans (hg a middle v rest hv) (hy ts a middle ha)

theorem shrinks_pure (v : α) : (pure v : TokenReader α).Shrinks := by
  intro ts w rest h
  cases h
  exact Nat.le_refl _

theorem shrinks_notAhead (f : Token → Bool) : (notAhead f).Shrinks := by
  intro ts v rest h
  rw [notAhead] at h
  split at h
  · cases h
  · cases h
    exact Nat.le_refl _

theorem Shrinks.option (hy : y.Shrinks) : y.option.Shrinks := by
  intro ts v rest h
  rcases option_eq_some_iff.1 h with ⟨a, -, ha⟩ | ⟨-, rfl, -⟩
  · exact hy ts a rest ha
  · exact Nat.le_refl _

theorem Shrinks.test (hy : y.Shrinks) : y.test.Shrinks :=
  hy.option.bind fun _ => shrinks_pure _

theorem many_go_of_none {ts : List Token} (h : y ts = none) : many.go y ts = ([], ts) := by
  rw [many.go, h]

theorem many_go_of_some (hy : y.Progresses) {ts rest : List Token} {a : α}
    (h : y ts = some (a, rest)) :
    many.go y ts = (a :: (many.go y rest).1, (many.go y rest).2) := by
  have hlt := hy ts a rest h
  rw [many.go, h]
  simp only [hlt, if_true]

/-- What holds where a reader fails, and of a list if it holds behind its first value, holds of
all values one after another. -/
theorem many_go_induction (hy : y.Progresses) {motive : List Token → List α → List Token → Prop}
    (stop : ∀ ts, y ts = none → motive ts [] ts)
    (step : ∀ ts a middle vs rest, y ts = some (a, middle) → motive middle vs rest →
    motive ts (a :: vs) rest) (ts : List Token) :
    motive ts (many.go y ts).1 (many.go y ts).2 := by
  induction hlen : ts.length using Nat.strongRecOn generalizing ts with
  | _ len ih =>
    subst hlen
    cases h : y ts with
    | none =>
      rw [many_go_of_none h]
      exact stop ts h
    | some found =>
      obtain ⟨a, middle⟩ := found
      rw [many_go_of_some hy h]
      exact step ts a middle _ _ h (ih _ (hy ts a middle h) middle rfl)

theorem shrinks_many (y : TokenReader α) : y.many.Shrinks := by
  have hgo (ts : List Token) : (many.go y ts).2.length ≤ ts.length := by
    fun_induction many.go y ts with
    | case1 => exact Nat.le_refl _
    | case2 ts a rest _ hlt ih => exact Nat.le_trans ih (Nat.le_of_lt hlt)
    | case3 => exact Nat.le_refl _
  intro ts v rest h
  have hvalue : many.go y ts = (v, rest) := Option.some.inj h
  have hlength := hgo ts
  rwa [hvalue] at hlength

end TokenReader

/-! ### Scanners that see only tokens -/

namespace Java

def tokensAt (p : Place) (s : List Char) : List Token :=
  (java.forest p s).1

/-- Where a scanner stands: anywhere, or where no blank and no comment starts. -/
inductive Stand where
  | anywhere
  | atToken

def Stand.At : Stand → List Char → Prop
  | anywhere, _ => True
  | atToken, s => java.blanks s = 0

/-- A text is cut in two so that the tokens `rest` are those of the second part, and none is cut. -/
structure Leaves (p : Place) (s text after : List Char) (rest : List Token) : Prop where
  split : s = text ++ after
  tokens : tokensAt (p.after text) after = rest
  complete : (body? .java p s).isSome = (body? .java (p.after text) after).isSome

theorem Leaves.refl (p : Place) (s : List Char) : Leaves p s [] s (tokensAt p s) :=
  ⟨rfl, by rw [Place.after_nil], by rw [Place.after_nil]⟩

theorem Leaves.trans {p : Place} {s text after text' after' : List Char} {rest rest' : List Token}
    (h : Leaves p s text after rest) (h' : Leaves (p.after text) after text' after' rest') :
    Leaves p s (text ++ text') after' rest' := by
  obtain ⟨rfl, -, hcomplete⟩ := h
  obtain ⟨rfl, htokens, hcomplete'⟩ := h'
  refine ⟨by rw [append_assoc], ?_, ?_⟩
  · rw [Place.after_append, htokens]
  · rw [Place.after_append, hcomplete, hcomplete']

/-- A scanner does what a reader of tokens does: it fails with it, and where both succeed they
give the same value and leave the same tokens. -/
structure Mirrors {α : Type} (x : Scanner α) (y : TokenReader α) (before after : Stand) : Prop where
  some : ∀ {p s v rest}, before.At s → y (tokensAt p s) = some (v, rest) →
    ∃ text behind, Leaves p s text behind rest ∧ x p s = some (v, text.length) ∧ after.At behind
  none : ∀ {p s}, before.At s → y (tokensAt p s) = none → x p s = none

section Tokens

variable {p : Place} {s text after gap rest : List Char} {t : Token} {n : Nat}

theorem tokensAt_of_none (hs : java.blanks s = 0) (h : java.token p s = none) :
    tokensAt p s = [] := by
  have hforest : java.forest p ([] ++ s) = ([], 0) := forest_of_none hs (by rwa [Place.after_nil])
  rw [tokensAt, ← nil_append s, hforest]

theorem leaves_of_token (hs : java.blanks s = 0) (h : java.token p s = some (t, n)) :
    ∃ text after, n = text.length ∧ text ≠ [] ∧ tokensAt p s = t :: tokensAt (p.after text) after ∧
      Leaves p s text after (tokensAt (p.after text) after) := by
  obtain ⟨text, after, rfl, rfl, hne, -⟩ := (reads_tokens .java).1 _ _ hs _ _ h
  have hforest := forest_of_token hs h hne
  refine ⟨text, after, rfl, hne, congrArg Prod.fst hforest, rfl, rfl, ?_⟩
  rw [body?, hforest, body?]
  simp only [drop_length_add_append]
  split <;> rfl

theorem leaves_of_skips (h : java.Skips gap rest) (p : Place) :
    Leaves p (gap ++ rest) gap rest (tokensAt p (gap ++ rest)) :=
  ⟨rfl, (forest_skips .java h p).symm, congrArg Option.isSome (body?_skips .java h p)⟩

end Tokens

/-! ### Compositions -/

section Compositions

variable {α β : Type} {x : Scanner α} {y : TokenReader α} {f : α → Scanner β}
    {g : α → TokenReader β} {a b c : Stand}

theorem Mirrors.pure (v : α) : Mirrors (Pure.pure v) (Pure.pure v) a a := by
  refine ⟨fun hs hy => ?_, fun hs hy => ?_⟩
  · cases hy
    exact ⟨[], _, .refl _ _, rfl, hs⟩
  · cases hy

theorem Mirrors.bind (hx : Mirrors x y a b) (hf : ∀ v, Mirrors (f v) (g v) b c) :
    Mirrors (x >>= f) (y >>= g) a c := by
  refine ⟨fun {p s w rest} hs hy => ?_, fun {p s} hs hy => ?_⟩
  · obtain ⟨v, middle, hv, hw⟩ := TokenReader.bind_eq_some_iff.1 hy
    obtain ⟨text, behind, hleaves, hscan, hb⟩ := hx.some hs hv
    obtain rfl := hleaves.tokens
    obtain ⟨text', behind', hleaves', hscan', hc⟩ := (hf v).some hb hw
    refine ⟨text ++ text', behind', hleaves.trans hleaves', ?_, hc⟩
    obtain rfl := hleaves.split
    rw [Scan.bind_gives hscan hscan', length_append]
  · cases hv : y (tokensAt p s) with
    | none => exact Scan.bind_of_none (hx.none hs hv)
    | some found =>
      obtain ⟨v, middle⟩ := found
      obtain ⟨text, behind, hleaves, hscan, hb⟩ := hx.some hs hv
      obtain rfl := hleaves.tokens
      obtain rfl := hleaves.split
      rw [TokenReader.bind_of_some hv] at hy
      rw [bind_append hscan, (hf v).none hb hy]
      rfl

theorem mirrors_blanks : Mirrors (Header.blanks .java) (Pure.pure ()) a .atToken := by
  refine ⟨fun {p s v rest} _ hy => ?_, fun _ hy => by cases hy⟩
  cases hy
  obtain ⟨gap, after, rfl, hlength, hskips, hafter⟩ := lawful_java.exists_gap s
  exact ⟨gap, after, leaves_of_skips hskips p, Scan.blanks_gives hlength, hafter⟩

theorem Mirrors.blanks_then {f : Unit → Scanner β} {y : TokenReader β}
    (h : Mirrors (f ()) y .atToken c) :
    Mirrors (Header.blanks .java >>= f) y a c :=
  mirrors_blanks.bind (g := fun _ => y) fun _ => h

theorem Mirrors.then_blanks (h : Mirrors x y a b) :
    Mirrors (x >>= fun v => Header.blanks .java >>= fun _ => Pure.pure v) y a .atToken := by
  have hpair := h.bind fun v => (mirrors_blanks (a := b)).bind fun _ => .pure v
  simp only [pure_bind, bind_pure] at hpair
  exact hpair

theorem Mirrors.option (h : Mirrors x y a .anywhere) :
    Mirrors (Scanner.option x) (TokenReader.option y) a .anywhere := by
  refine ⟨fun {p s v rest} hs hy => ?_, fun {p s} hs hy => ?_⟩
  · rcases TokenReader.option_eq_some_iff.1 hy with ⟨w, rfl, hw⟩ | ⟨rfl, rfl, hnone⟩
    · obtain ⟨text, behind, hleaves, hscan, hb⟩ := h.some hs hw
      exact ⟨text, behind, hleaves, Scan.option_of_some hscan, hb⟩
    · exact ⟨[], s, .refl p s, Scan.option_of_none (h.none hs hnone), trivial⟩
  · rw [TokenReader.option] at hy
    split at hy <;> cases hy

theorem Mirrors.test (h : Mirrors x y a .anywhere) :
    Mirrors (Scanner.test x) (TokenReader.test y) a .anywhere :=
  h.option.bind fun _ => .pure _

theorem many_go_mirrors (h : Mirrors x y a a) (hy : y.Progresses) (p : Place) (s : List Char)
    (hs : a.At s) :
    ∃ text behind, Leaves p s text behind (TokenReader.many.go y (tokensAt p s)).2 ∧
      Scanner.many.go x p s = ((TokenReader.many.go y (tokensAt p s)).1, text.length) ∧
      a.At behind := by
  induction hlen : (tokensAt p s).length using Nat.strongRecOn generalizing p s with
  | _ len ih =>
    subst hlen
    cases hv : y (tokensAt p s) with
    | none =>
      rw [TokenReader.many_go_of_none hv]
      exact ⟨[], s, .refl p s, Scan.many_go_of_none (h.none hs hv), hs⟩
    | some found =>
      obtain ⟨v, rest⟩ := found
      have hlt := hy _ _ _ hv
      obtain ⟨text, behind, hleaves, hscan, hb⟩ := h.some hs hv
      obtain rfl := hleaves.tokens
      obtain ⟨text', behind', hleaves', hscan', hb'⟩ := ih _ hlt (p.after text) behind hb rfl
      -- `y` has taken a token, so `x` has taken a character and goes on.
      have hne : text ≠ [] := by
        rintro rfl
        obtain rfl : s = behind := hleaves.split
        rw [Place.after_nil] at hlt
        exact Nat.lt_irrefl _ hlt
      rw [TokenReader.many_go_of_some hy hv]
      refine ⟨text ++ text', behind', hleaves.trans hleaves', ?_, hb'⟩
      obtain rfl := hleaves.split
      rw [Scan.many_go_of_some hscan (by simpa using hne) (by simp [hne]), take_left,
        drop_left, hscan', length_append]

theorem Mirrors.many (h : Mirrors x y a a) (hy : y.Progresses) :
    Mirrors (Scanner.many x) (TokenReader.many y) a a := by
  refine ⟨fun {p s v rest} hs hv => ?_, fun hs hv => by cases hv⟩
  obtain ⟨text, behind, hleaves, hscan, hb⟩ := many_go_mirrors h hy p s hs
  have hgo : TokenReader.many.go y (tokensAt p s) = (v, rest) := Option.some.inj hv
  rw [hgo] at hleaves hscan
  exact ⟨text, behind, hleaves, congrArg Option.some hscan, hb⟩

end Compositions

/-! ### Rules for one token -/

section OneToken

variable {α : Type} {x : Scanner α} {p : Place} {s r : List Char} {t : Token} {n : Nat}

theorem mirrors_one {f : Token → Option α} (hx : ∀ p s, java.blanks s = 0 →
    x p s = (java.token p s).bind fun found => (f found.1).map (·, found.2)) :
    Mirrors x (TokenReader.one f) .atToken .anywhere := by
  refine ⟨fun {p s v rest} hs hy => ?_, fun {p s} hs hy => ?_⟩
  · cases htoken : java.token p s with
    | none =>
      rw [tokensAt_of_none hs htoken] at hy
      cases hy
    | some found =>
      obtain ⟨t, n⟩ := found
      obtain ⟨text, after, rfl, -, htokens, hleaves⟩ := leaves_of_token hs htoken
      rw [htokens, TokenReader.one] at hy
      obtain ⟨w, hw, heq⟩ := Option.map_eq_some_iff.1 hy
      cases heq
      refine ⟨text, after, hleaves, ?_, trivial⟩
      rw [hx p s hs, htoken, Option.bind_some, hw]
      rfl
  · rw [hx p s hs]
    cases htoken : java.token p s with
    | none => rfl
    | some found =>
      obtain ⟨t, n⟩ := found
      obtain ⟨text, after, rfl, -, htokens, -⟩ := leaves_of_token hs htoken
      rw [htokens, TokenReader.one, Option.map_eq_none_iff] at hy
      rw [Option.bind_some, hy]
      rfl

theorem mirrors_group (d : Delimiter) :
    Mirrors (Header.group .java d) (TokenReader.one fun t => if t.isGroup d then some t else
    none) .atToken .anywhere := by
  refine mirrors_one fun p s _ => ?_
  rw [Header.group]
  cases java.token p s with
  | none => rfl
  | some found =>
    obtain ⟨t, n⟩ := found
    simp only [Option.bind_some]
    split <;> rfl

theorem startsWord_of_java {c : Char} (h : word (c :: r) = some n) : startsWord c = true := by
  have hword : (lexicon .java).word (c :: r) = some n := h
  exact startsWord_of_word hword

theorem word_opening (d : Delimiter) (r : List Char) : word (d.opening :: r) = none := by
  by_contra hsome
  obtain ⟨n, hn⟩ := Option.ne_none_iff_exists'.1 hsome
  have hstart := startsWord_of_java hn
  cases d <;> exact absurd hstart (by decide)

/-- The first token is a word exactly if a word stands at the start of the text. -/
theorem token_word? (p : Place) (s : List Char) :
    ((java.token p s).bind fun found => found.1.word?.map (·, found.2)) =
      (word s).map fun n => (bareName (s.take n), n) := by
  cases s with
  | nil => rw [token]; rfl
  | cons c r =>
    cases hc : Delimiter.ofOpening? c with
    | some d =>
      obtain rfl := Delimiter.ofOpening?_eq_some_iff.1 hc
      rw [word_opening, Option.map_none, Option.bind_eq_none_iff]
      rintro ⟨t, n⟩ htoken
      obtain ⟨children, m, k, -, -, -, -, rfl⟩ := token_opening_eq_some_iff.1 htoken
      rfl
    | none =>
      rw [token_of_not_opening hc]
      -- Literals are tried before words, but none starts with a character of a word.
      cases hword : java.word (c :: r) with
      | some n =>
        have hliteral : java.literal (c :: r) = none :=
          literal_eq_none .java (startsLiteral_of_startsWord (startsWord_of_java hword)) r
        have hvalue : word (c :: r) = some n := hword
        rw [leaf.eq_def, hliteral, hword, hvalue]
        rfl
      | none =>
        have hvalue : word (c :: r) = none := hword
        rw [hvalue, Option.map_none, Option.bind_eq_none_iff]
        rintro ⟨t, n⟩ hleaf
        rw [leaf.eq_def, hword] at hleaf
        split at hleaf
        · cases hleaf
          rfl
        · rename_i hsome
          cases hsome
        · cases hleaf
          rfl
        · cases hleaf

theorem mirrors_name :
    Mirrors (Header.name .java) (TokenReader.one Token.word?) .atToken .anywhere :=
  mirrors_one fun p s _ => (token_word? p s).symm

theorem word_eq_some_iff :
    word s = some n ↔ ∃ c x r, s = c :: (x ++ r) ∧ n = x.length + 1 ∧ startsName .java c = true ∧
      (∀ d ∈ x, isNameChar d = true) ∧ ∀ d ∈ r.head?, isNameChar d = false := by
  constructor
  · intro h
    cases s with
    | nil => cases h
    | cons c r =>
      rw [word] at h
      split at h
      next hc =>
        cases h
        refine ⟨c, r.takeWhile isNameChar, r.dropWhile isNameChar, by
          rw [takeWhile_append_dropWhile], rfl, hc,
          fun d hd => mem_takeWhile_imp hd, fun d hd => ?_⟩
        have hhead := head?_dropWhile_not isNameChar r
        rw [Option.mem_def.1 hd] at hhead
        simpa using hhead
      · cases h
  · rintro ⟨c, x, r, rfl, rfl, hc, hx, hr⟩
    exact word_of_nameChars hc hx hr

theorem bareName_word (h : word s = some n) : bareName (s.take n) = String.ofList (s.take n) := by
  obtain ⟨c, x, r, rfl, rfl, hc, hx, -⟩ := word_eq_some_iff.1 h
  rw [bareName, filter_eq_self.2]
  intro d hd
  rw [take_succ_cons, take_left] at hd
  rcases mem_cons.1 hd with rfl | hd
  · rw [bne_iff_ne]
    rintro rfl
    exact absurd hc (by decide)
  · rw [bne_iff_ne]
    rintro rfl
    exact absurd (hx _ hd) (by decide)

/-- A text that is a word by itself. -/
structure IsName (w : String) : Prop where
  starts : ∀ c ∈ w.toList.head?, startsName .java c = true
  continues : ∀ c ∈ w.toList.tail, isNameChar c = true
  nonempty : w.toList ≠ []

theorem word_of_isName {w : String} (hw : IsName w) (hr : ∀ d ∈ r.head?, isNameChar d = false) :
    word (w.toList ++ r) = some w.toList.length := by
  obtain ⟨c, x, hcons⟩ := exists_cons_of_ne_nil hw.nonempty
  obtain ⟨hstart, hrest, -⟩ := hw
  rw [hcons] at hstart hrest ⊢
  exact word_eq_some_iff.2 ⟨c, x, r, rfl, rfl, hstart c rfl, hrest, hr⟩

def ruleWords : List String :=
  ["package", "import", "static"]

theorem isName_of_mem {w : String} (hw : w ∈ ruleWords) : IsName w := by
  simp only [ruleWords, mem_cons, not_mem_nil, or_false] at hw
  rcases hw with rfl | rfl | rfl <;> exact ⟨by rintro c ⟨⟩; decide,
    all_eq_true.1 (by decide), by decide⟩

/-- A keyword stands at the start of a text exactly if it is the word there. -/
theorem keyword_eq_word {w : String} (hw : IsName w) (p : Place) (s : List Char) :
    Header.keyword .java w p s = (word s).bind fun n => if bareName (s.take n) = w then
    some ((), n) else none := by
  cases hword : word s with
  | none =>
    refine keyword_eq_none p fun r hs hr => ?_
    rw [hs, word_of_isName hw hr] at hword
    cases hword
  | some n =>
    rw [Option.bind_some, bareName_word hword]
    split
    next heq =>
      obtain ⟨c, x, r, rfl, rfl, -, -, hr⟩ := word_eq_some_iff.1 hword
      rw [take_succ_cons, take_left] at heq
      refine keyword_eq_some_iff.2 ⟨?_, r, ?_, hr⟩
      · rw [← heq, String.toList_ofList, length_cons]
      · rw [← heq, String.toList_ofList, cons_append]
    next hne =>
      refine keyword_eq_none p fun r hs hr => hne ?_
      rw [hs, word_of_isName hw hr] at hword
      cases hword
      rw [hs, take_left, String.ofList_toList]

theorem keyword_eq_token {w : String} (hw : IsName w) (p : Place) (s : List Char) :
    Header.keyword .java w p s =
      (java.token p s).bind fun found =>
      (if found.1.isWord w then some () else none).map (·, found.2) := by
  have hwords := token_word? p s
  rw [keyword_eq_word hw]
  cases htoken : java.token p s with
  | none =>
    rw [htoken, Option.bind_none, eq_comm, Option.map_eq_none_iff] at hwords
    rw [hwords]
    rfl
  | some found =>
    obtain ⟨t, n⟩ := found
    rw [htoken, Option.bind_some] at hwords
    rw [Option.bind_some]
    cases htext : t.word? with
    | none =>
      rw [htext, Option.map_none, eq_comm, Option.map_eq_none_iff] at hwords
      simp [hwords, Token.isWord, htext]
    | some text =>
      rw [htext, Option.map_some, eq_comm, Option.map_eq_some_iff] at hwords
      obtain ⟨m, hm, heq⟩ := hwords
      cases heq
      rw [hm, Option.bind_some]
      by_cases hw : bareName (s.take n) = w <;> simp [Token.isWord, htext, hw]

theorem mirrors_keyword {w : String} (hw : w ∈ ruleWords) :
    Mirrors (Header.keyword .java w) (TokenReader.only (·.isWord w)) .atToken .anywhere :=
  mirrors_one fun p s _ => keyword_eq_token (isName_of_mem hw) p s

def marks : List Char :=
  ['.', ';', '*', '@']

theorem token_mark {c : Char} (hc : c ∈ marks) (p : Place) (r : List Char) :
    java.token p (c :: r) = some (.symbol c (Span.of p [c]) p.line, 1) := by
  simp only [marks, mem_cons, not_mem_nil, or_false] at hc
  have hopening : Delimiter.ofOpening? c = none := by
    rcases hc with rfl | rfl | rfl | rfl <;> decide
  have hliteral : startsLiteral c = false := by rcases hc with rfl | rfl | rfl | rfl <;> decide
  have hword : java.word (c :: r) = none := by rcases hc with rfl | rfl | rfl | rfl <;> rfl
  have hsymbol : symbol (c :: r) = some 1 := by rcases hc with rfl | rfl | rfl | rfl <;> rfl
  rw [token_of_not_opening hopening]
  exact leaf_of_symbol (literal_eq_none .java hliteral r) hword hsymbol

theorem eq_of_isSymbol {c d : Char} (h : java.token p (d :: r) = some (t, n))
    (ht : t.isSymbol c = true) : d = c := by
  cases hd : Delimiter.ofOpening? d with
  | some delimiter =>
    obtain rfl := Delimiter.ofOpening?_eq_some_iff.1 hd
    obtain ⟨children, m, k, -, -, -, -, rfl⟩ := token_opening_eq_some_iff.1 h
    cases ht
  | none =>
    rw [token_of_not_opening hd, leaf.eq_def] at h
    split at h
    · cases h
      cases ht
    · cases h
      cases ht
    · rename_i hcons
      cases h
      cases hcons
      simpa [Token.isSymbol] using ht
    · cases h

theorem mirrors_text {w : String} {c : Char} (hw : w.toList = [c]) (hc : c ∈ marks) :
    Mirrors (Scanner.text w) (TokenReader.only (·.isSymbol c)) .atToken .anywhere := by
  refine mirrors_one fun p s _ => ?_
  cases s with
  | nil =>
    rw [token, Scan.text_of_head? hw (by simp)]
    rfl
  | cons d r =>
    by_cases hd : d = c
    · subst hd
      have htext : Scanner.text w p (w.toList ++ r) = some ((), w.toList.length) :=
        Scan.text_gives w r
      rw [hw] at htext
      rw [token_mark hc, Option.bind_some]
      simpa [Token.isSymbol] using htext
    · rw [Scan.text_of_head? hw (by simpa using hd), eq_comm, Option.bind_eq_none_iff]
      rintro ⟨t, n⟩ htoken
      have hsymbol : t.isSymbol c = false := by
        by_contra htrue
        exact hd (eq_of_isSymbol htoken (by simpa using htrue))
      simp [hsymbol]

theorem line_of_token (h : java.token p s = some (t, n)) : t.line = p.line := by
  cases s with
  | nil =>
    rw [token] at h
    cases h
  | cons c r =>
    cases hc : Delimiter.ofOpening? c with
    | some d =>
      obtain rfl := Delimiter.ofOpening?_eq_some_iff.1 hc
      obtain ⟨children, m, k, -, -, -, -, rfl⟩ := token_opening_eq_some_iff.1 h
      rfl
    | none =>
      rw [token_of_not_opening hc, leaf.eq_def] at h
      split at h <;> cases h <;> rfl

def keywordLine (w : String) : Scanner Nat := do
  let start ← Scanner.here
  Header.keyword .java w
  return start.line

theorem mirrors_keywordLine {w : String} (hw : w ∈ ruleWords) :
    Mirrors (keywordLine w) (TokenReader.one fun t => if t.isWord w then some t.line else
    none) .atToken .anywhere := by
  refine mirrors_one fun p s _ => ?_
  have hkeyword := keyword_eq_token (isName_of_mem hw) p s
  unfold keywordLine
  rw [Scan.bind_of_zero (a := p) rfl]
  cases htoken : java.token p s with
  | none =>
    rw [htoken] at hkeyword
    rw [Scan.bind_of_none hkeyword]
    rfl
  | some found =>
    obtain ⟨t, n⟩ := found
    have hline := line_of_token htoken
    rw [htoken, Option.bind_some] at hkeyword
    rw [Option.bind_some]
    cases ht : t.isWord w with
    | false =>
      simp only [ht, Bool.false_eq_true, if_false, Option.map_none] at hkeyword ⊢
      exact Scan.bind_of_none hkeyword
    | true =>
      simp only [ht, if_true, Option.map_some] at hkeyword ⊢
      rw [hline]
      exact Scan.bind_pure_of_some hkeyword

theorem head?_tokensAt (hs : java.blanks s = 0) (p : Place) :
    (tokensAt p s).head? = (java.token p s).map (·.1) := by
  cases htoken : java.token p s with
  | none => rw [tokensAt_of_none hs htoken]; rfl
  | some found =>
    obtain ⟨t, n⟩ := found
    obtain ⟨text, after, -, -, htokens, -⟩ := leaves_of_token hs htoken
    rw [htokens]
    rfl

def startsInterface (t : Token) : Bool :=
  t.word?.any fun w => "interface".toList.isPrefixOf w.toList

theorem isPrefixOf_word {y x r : List Char} (hy : ∀ d ∈ y, isNameChar d = true)
    (hr : ∀ d ∈ r.head?, isNameChar d = false) :
    y.isPrefixOf (x ++ r) = y.isPrefixOf x := by
  induction y generalizing x with
  | nil => rfl
  | cons d y ih =>
    obtain ⟨hd, hy⟩ := forall_mem_cons.1 hy
    cases x with
    | nil =>
      cases r with
      | nil => rfl
      | cons e r =>
        have hne : d ≠ e := by
          rintro rfl
          rw [hr d rfl] at hd
          cases hd
        simp [List.isPrefixOf, hne]
    | cons e x => rw [cons_append, List.isPrefixOf, List.isPrefixOf, ih hy]

theorem isPrefixOf_interface (hs : java.blanks s = 0) (p : Place) :
    "interface".toList.isPrefixOf s = (tokensAt p s).head?.any startsInterface := by
  have hhead : (tokensAt p s).head?.any startsInterface =
      ((word s).map fun n => (bareName (s.take n), n)).any fun found =>
      "interface".toList.isPrefixOf found.1.toList := by
    rw [head?_tokensAt hs, ← token_word? p s]
    cases java.token p s with
    | none => rfl
    | some found =>
      rw [Option.map_some, Option.bind_some, Option.any_some, startsInterface]
      cases found.1.word? <;> rfl
  rw [hhead]
  cases hword : word s with
  | none =>
    by_contra htrue
    have hprefix : "interface".toList.isPrefixOf s = true := by simpa using htrue
    obtain ⟨r, rfl⟩ := List.isPrefixOf_iff_prefix.1 hprefix
    cases hword
  | some n =>
    obtain ⟨c, x, r, rfl, rfl, -, -, hr⟩ := word_eq_some_iff.1 hword
    have hname : ∀ d ∈ ['n', 't', 'e', 'r', 'f', 'a', 'c', 'e'], isNameChar d = true :=
      all_eq_true.1 (by decide)
    rw [Option.map_some, Option.any_some, bareName_word hword, take_succ_cons, take_left]
    change ('i' == c && ['n', 't', 'e', 'r', 'f', 'a', 'c', 'e'].isPrefixOf (x ++ r)) =
      "interface".toList.isPrefixOf (String.ofList (c :: x)).toList
    have htext : (String.ofList (c :: x)).toList = c :: x := String.toList_ofList
    rw [isPrefixOf_word hname hr, htext]
    rfl

theorem mirrors_notAhead {β : Type} {f : Unit → Scanner β} {g : Unit → TokenReader β} {b : Stand}
    (hf : Mirrors (f ()) (g ()) .atToken b) :
    Mirrors (Scanner.ahead "interface" >>= fun ahead => Scanner.require (!ahead) >>= f)
      (TokenReader.notAhead startsInterface >>= g) .atToken b := by
  have hscan (p : Place) (s : List Char) (hs : java.blanks s = 0) :
      (Scanner.ahead "interface" >>= fun ahead => Scanner.require (!ahead) >>= f) p s =
        if (tokensAt p s).head?.any startsInterface then none else f () p s := by
    have hahead : Scanner.ahead "interface" p s = some ("interface".toList.isPrefixOf s, 0) := rfl
    rw [Scan.bind_of_zero hahead, isPrefixOf_interface hs p]
    cases (tokensAt p s).head?.any startsInterface with
    | true => exact Scan.bind_of_none rfl
    | false => exact Scan.bind_of_zero rfl
  have hread (ts : List Token) : (TokenReader.notAhead startsInterface >>= g) ts =
      if ts.head?.any startsInterface then none else g () ts := by
    cases hts : ts.head?.any startsInterface with
    | true => exact TokenReader.bind_of_none (by rw [TokenReader.notAhead, hts]; rfl)
    | false => exact TokenReader.bind_of_some (by rw [TokenReader.notAhead, hts]; rfl)
  refine ⟨fun {p s v rest} hs hy => ?_, fun {p s} hs hy => ?_⟩
  · rw [hread] at hy
    rw [hscan p s hs]
    split at hy
    · cases hy
    · next hnone =>
      simp only [hnone]
      exact hf.some hs hy
  · rw [hread] at hy
    rw [hscan p s hs]
    split at hy
    · next htrue => simp only [htrue]; rfl
    · next hnone =>
      simp only [hnone]
      exact hf.none hs hy

end OneToken

/-! ### The header, read off the tokens -/

namespace Tokens

open TokenReader

def nextName : TokenReader String := do
  only (·.isSymbol '.')
  one Token.word?

def path : TokenReader (List String) := do
  let first ← one Token.word?
  let others ← many nextName
  return first :: others

def arguments : TokenReader Token :=
  one fun t => if t.isGroup .paren then some t else none

def annotationRule : TokenReader Unit := do
  only (·.isSymbol '@')
  notAhead startsInterface
  let _ ← path
  let _ ← option arguments

def plainPackage : TokenReader (List String) := do
  only (·.isWord "package")
  let names ← path
  only (·.isSymbol ';')
  return names

def package : TokenReader (List String) := do
  let _ ← many annotationRule
  plainPackage

def star : TokenReader Unit := do
  only (·.isSymbol '.')
  only (·.isSymbol '*')

def importDecl : TokenReader Import := do
  let line ← one fun t => if t.isWord "import" then some t.line else none
  let isStatic ← test (only (·.isWord "static"))
  let names ← path
  let everything ← test star
  only (·.isSymbol ';')
  return { path := ".".intercalate names, wildcard := everything, isStatic, line }

def header : TokenReader (Option String × List Import) := do
  let found ← option package
  let imports ← many importDecl
  return (found.map (".".intercalate ·), imports)

theorem progresses_nextName : nextName.Progresses :=
  (progresses_one _).bind fun _ => (progresses_one _).shrinks

theorem shrinks_path : path.Shrinks :=
  (progresses_one _).shrinks.bind fun _ => (shrinks_many _).bind fun _ => shrinks_pure _

theorem progresses_annotationRule : annotationRule.Progresses :=
  (progresses_one _).bind fun _ => (shrinks_notAhead _).bind fun _ => shrinks_path.bind fun _ =>
    (progresses_one _).shrinks.option.bind fun _ => shrinks_pure _

theorem progresses_importDecl : importDecl.Progresses := by
  have hstar : star.Shrinks := (progresses_one _).shrinks.bind fun _ => (progresses_one _).shrinks
  refine (progresses_one _).bind fun _ => (progresses_one _).shrinks.test.bind fun _ =>
    shrinks_path.bind fun _ => ?_
  exact hstar.test.bind fun _ => (progresses_one _).shrinks.bind fun _ => shrinks_pure _

end Tokens

section Rules

theorem mirrors_point :
    Mirrors (Scanner.text ".") (TokenReader.only (·.isSymbol '.')) .atToken .anywhere :=
  mirrors_text rfl (by decide)

theorem mirrors_semicolon :
    Mirrors (Scanner.text ";") (TokenReader.only (·.isSymbol ';')) .atToken .anywhere :=
  mirrors_text rfl (by decide)

theorem mirrors_path : Mirrors (Header.qualifiedName .java) Tokens.path .atToken .anywhere := by
  have hnext : Mirrors (Header.nextName .java) Tokens.nextName .anywhere .anywhere :=
    (mirrors_point.bind fun _ => mirrors_name.blanks_then).blanks_then
  exact mirrors_name.bind fun _ => (hnext.many Tokens.progresses_nextName).bind fun _ => .pure _

theorem mirrors_annotationRule : Mirrors annotation Tokens.annotationRule .atToken .anywhere := by
  have harguments : Mirrors (Header.blanks .java >>= fun _ =>
      Header.group .java .paren) Tokens.arguments .anywhere .anywhere :=
    (mirrors_group .paren).blanks_then
  have hname := mirrors_path.bind fun _ => harguments.option.bind fun _ => .pure ()
  exact (mirrors_text rfl (by decide)).bind fun _ => (mirrors_notAhead hname).blanks_then

theorem mirrors_package : Mirrors packageDecl Tokens.package .atToken .anywhere := by
  have hsigns : Mirrors ( annotation >>= fun _ =>
      Header.blanks .java) Tokens.annotationRule .atToken .atToken :=
    mirrors_annotationRule.then_blanks
  have hend (names : List String) :
      Mirrors (Header.blanks .java >>= fun _ => Scanner.text ";" >>= fun _ => pure names)
        (TokenReader.only (·.isSymbol ';') >>= fun _ => pure names) .anywhere .anywhere :=
    (mirrors_semicolon.bind fun _ => .pure names).blanks_then
  refine (hsigns.many Tokens.progresses_annotationRule).bind fun _ =>
    (mirrors_keyword (by decide)).bind fun _ => ?_
  exact (mirrors_path.bind fun names => hend names).blanks_then

def importTail (line : Nat) : Scanner Import := do
  Header.blanks .java
  let isStatic ← Scanner.test (Header.keyword .java "static")
  Header.blanks .java
  let path ← Header.qualifiedName .java
  Header.blanks .java
  let everything ← Scanner.test (Header.wildcard .java)
  Header.blanks .java
  Scanner.text ";"
  return { path := ".".intercalate path, wildcard := everything, isStatic, line }

theorem importDecl_eq : importDecl = keywordLine "import" >>= importTail := by
  have hunfold : importDecl = Scanner.here >>= fun start =>
      Header.keyword .java "import" >>= fun _ => importTail start.line := rfl
  funext p s
  rw [hunfold, Scan.bind_of_zero (a := p) rfl]
  cases hword : Header.keyword .java "import" p s with
  | none =>
    have hline : keywordLine "import" p s = none := by
      rw [keywordLine, Scan.bind_of_zero (a := p) rfl, Scan.bind_of_none hword]
    rw [Scan.bind_of_none hword, Scan.bind_of_none hline]
  | some found =>
    obtain ⟨u, n⟩ := found
    have hline : keywordLine "import" p s = some (p.line, n) := by
      rw [keywordLine, Scan.bind_of_zero (a := p) rfl]
      exact Scan.bind_pure_of_some hword
    rw [Scan.bind_of_some hword, Scan.bind_of_some hline]

theorem mirrors_importDecl : Mirrors importDecl Tokens.importDecl .atToken .anywhere := by
  have hstar : Mirrors (Header.wildcard .java) Tokens.star .atToken .anywhere :=
    mirrors_point.bind fun _ => (mirrors_text rfl (by decide)).blanks_then
  rw [importDecl_eq]
  refine (mirrors_keywordLine (by decide)).bind fun line => Mirrors.blanks_then ?_
  refine (mirrors_keyword (by decide)).test.bind fun isStatic => Mirrors.blanks_then ?_
  refine mirrors_path.bind fun names => Mirrors.blanks_then ?_
  exact hstar.test.bind fun everything => (mirrors_semicolon.bind fun _ => .pure _).blanks_then

/-- **Headers as tokens.** The header of a Java file is read as if only the tokens of the file
were seen. -/
theorem mirrors_header : Mirrors header Tokens.header .anywhere .atToken := by
  have himports := mirrors_importDecl.then_blanks.many Tokens.progresses_importDecl
  refine Mirrors.blanks_then (mirrors_package.option.bind fun package => Mirrors.blanks_then ?_)
  exact himports.bind fun imports => .pure _

theorem tokensAt_of_body? {p : Place} {s : List Char} {tokens : List Token}
    (h : body? .java p s = some tokens) :
    tokensAt p s = tokens := by
  unfold body? at h
  simp only at h
  split at h
  · exact Option.some.inj h
  · cases h

theorem body?_of_isSome {p : Place} {s : List Char} (h : (body? .java p s).isSome = true) :
    body? .java p s = some (tokensAt p s) := by
  obtain ⟨tokens, htokens⟩ := Option.isSome_iff_exists.1 h
  rw [htokens, tokensAt_of_body? htokens]

theorem exists_header (ts : List Token) : ∃ found rest, Tokens.header ts = some (found, rest) := by
  have hoption : ∃ package middle, TokenReader.option Tokens.package ts =
      some (package, middle) := by
    rw [TokenReader.option]
    split
    · exact ⟨_, _, rfl⟩
    · exact ⟨_, _, rfl⟩
  obtain ⟨package, middle, hpackage⟩ := hoption
  have himports : TokenReader.many Tokens.importDecl middle =
      some (TokenReader.many.go Tokens.importDecl middle) := rfl
  unfold Tokens.header
  rw [TokenReader.bind_of_some hpackage, TokenReader.bind_of_some himports]
  exact ⟨_, _, rfl⟩

theorem exists_leaves (s : List Char) :
    ∃ found rest text behind, Tokens.header (tokensAt (.start s) s) = some (found, rest) ∧
      Leaves (.start s) s text behind rest ∧
        header (.start s) s = some (found, text.length) := by
  obtain ⟨found, rest, hfound⟩ := exists_header (tokensAt (.start s) s)
  obtain ⟨text, behind, hleaves, hscan, -⟩ :=
    mirrors_header.some (p := .start s) (s := s) trivial hfound
  exact ⟨found, rest, text, behind, hfound, hleaves, hscan⟩

end Rules

end Java

/-- A Java file is accepted if its text, the header included, is a whole forest of tokens. The
package and the imports are those that are read off the tokens, and the other tokens are the
body. -/
theorem parse_java_eq_ok_iff {source file : String} {outline : Outline} :
    parse .java source file = .ok outline ↔
      ∃ tokens rest, body? .java (.start source.toList) source.toList = some tokens ∧
        Java.Tokens.header tokens = some ((outline.package, outline.imports), rest) ∧
        outline.calls = (findings .java rest).calls ∧
        outline.functions = (findings .java rest).functions := by
  obtain ⟨found, rest, text, behind, hfound, hleaves, hheader⟩ := Java.exists_leaves source.toList
  have hheader : header .java (.start source.toList) source.toList = some (found, text.length) :=
    hheader
  have hdrop : source.toList.drop text.length = behind := by rw [hleaves.split, drop_left]
  have htake : source.toList.take text.length = text := by rw [hleaves.split, take_left]
  rw [parse_eq_ok_iff]
  constructor
  · rintro ⟨n, tokens, hn, hbody, hcalls, hfunctions⟩
    cases hheader.symm.trans hn
    rw [htake, hdrop] at hbody
    have hrest := (Java.tokensAt_of_body? hbody).symm.trans hleaves.tokens
    subst hrest
    have hsome : (body? .java (.start source.toList) source.toList).isSome = true := by
      rw [hleaves.complete]
      exact Option.isSome_of_eq_some hbody
    exact ⟨_, _, Java.body?_of_isSome hsome, hfound, hcalls, hfunctions⟩
  · rintro ⟨tokens, rest', hbody, hread, hcalls, hfunctions⟩
    rw [Java.tokensAt_of_body? hbody, hread] at hfound
    cases hfound
    refine ⟨_, rest, hheader, ?_, hcalls, hfunctions⟩
    have hsome : (body? .java ((Place.start source.toList).after text) behind).isSome = true := by
      rw [← hleaves.complete]
      exact Option.isSome_of_eq_some hbody
    rw [htake, hdrop, ← hleaves.tokens]
    exact Java.body?_of_isSome hsome

theorem parse_eq_error {language : Language} {source file : String} {e : SyntaxError}
    (h : parse language source file = .error e) :
    e = ⟨file⟩ := by
  rw [parse] at h
  split at h
  · cases h
  · cases h
    rfl

theorem parse_java_eq_error_iff {source file : String} :
    parse .java source file = .error ⟨file⟩ ↔
      body? .java (.start source.toList) source.toList = none := by
  cases hbody : body? .java (.start source.toList) source.toList with
  | none =>
    refine iff_of_true ?_ rfl
    cases hparse : parse .java source file with
    | error e => rw [parse_eq_error hparse]
    | ok outline =>
      obtain ⟨tokens, rest, htokens, -⟩ := parse_java_eq_ok_iff.1 hparse
      cases hbody.symm.trans htokens
  | some tokens =>
    obtain ⟨found, rest, hfound⟩ := Java.exists_header tokens
    have hparse : parse .java source file =
        .ok ⟨found.1, found.2, (findings .java rest).calls, (findings .java rest).functions⟩ :=
      parse_java_eq_ok_iff.2 ⟨tokens, rest, hbody, hfound, rfl, rfl⟩
    rw [hparse]
    simp

end WitnessReplay.Source
