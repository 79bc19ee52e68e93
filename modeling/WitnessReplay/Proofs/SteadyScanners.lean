import WitnessReplay.Proofs.TextReplacement

/-!
# Scanners in front of a replaced part

A scanner that reads whole tokens of a Kotlin text does not see whether a part behind them is
replaced by an interchangeable one. It is steady: where it succeeds before that part, it gives
the same, and where it fails, it fails. That a sequence of scanners fails is decided by the one
that fails, so the ones in front of it have to end before the part; for this a `fun` in front
of the part is enough if none of them takes that word.
-/

namespace WitnessReplay.Source

open Text List

/-- The text `a` at `p` in front of `w`, with `y` behind `w`: the three are the items of a
forest, the item at the start of `w` does not begin in `a`, there is a `fun` in `a`, and `w'`
may stand in the place of `w`. -/
structure Precedes (w w' y : List Char) (p : Place) (a : List Char) : Prop where
  border : Interchangeable a w w'
  reads : ∃ front back ts, Lexicon.kotlin.Reads p a (w ++ y) front ∧
    Lexicon.kotlin.Reads (p.after a) (w ++ y) [] back ∧
    Token.itemsAll ts = front ++ back ∧ ∃ span line, .leaf (.word "fun" span line) ∈ front

theorem exists_of_append_eq {a x text rest : List Char} (h : a ++ x = text ++ rest)
    (hle : text.length ≤ a.length) :
    ∃ r, a = text ++ r ∧ rest = r ++ x := by
  obtain ⟨l, rfl, rfl⟩ | ⟨r, rfl, rfl⟩ := append_eq_append_iff.1 h
  · obtain rfl : l = [] := length_eq_zero_iff.1 (by rw [length_append] at hle; omega)
    exact ⟨[], by simp, rfl⟩
  · exact ⟨r, rfl, rfl⟩

section Precedes

variable {w w' y a s : List Char} {p : Place} {t : Token} {d : Delimiter}

theorem Interchangeable.append (h : Interchangeable a w w') (ha : a ≠ []) (x : List Char) :
    Interchangeable (x ++ a) w w' where
  left := h.left
  right := h.right
  head := h.head
  quote := h.quote
  border := h.border.imp_right fun ⟨hquote, hlast⟩ => ⟨hquote, fun c hc => hlast c (by
    obtain ⟨b, z, rfl⟩ : ∃ b z, a = b ++ [z] := ⟨_, _, (dropLast_concat_getLast ha).symm⟩
    simpa [getLast?_append] using hc)⟩

namespace Precedes

theorem ne_nil (h : Precedes w w' y p a) : a ≠ [] := by
  obtain ⟨front, back, ts, hfront, -, -, span, line, hfun⟩ := h.reads
  have hreads : (lexicon .kotlin).Reads p a (w ++ y) front := hfront
  exact ne_nil_of_reads hreads hfun

theorem append (h : Precedes w w' y (p.after s) a) (us : List Token)
    (hs : Lexicon.kotlin.Reads p s (a ++ (w ++ y)) (Token.itemsAll us)) :
    Precedes w w' y p (s ++ a) := by
  obtain ⟨front, back, ts, hfront, hback, hts, span, line, hfun⟩ := h.reads
  refine ⟨h.border.append h.ne_nil s, Token.itemsAll us ++ front, back, us ++ ts,
    hs.append hfront, ?_, ?_, span, line, ?_⟩
  · rwa [Place.after_append]
  · rw [Token.itemsAll_append, hts, append_assoc]
  · exact mem_append_right _ hfun

theorem leaf_append {text : List Char} (h : Precedes w w' y (p.after text) a)
    (hstarts : Lexicon.kotlin.Starts p (.leaf t) text (a ++ (w ++ y))) :
    Precedes w w' y p (text ++ a) := by
  refine h.append [t] ?_
  rw [Token.itemsAll_singleton, items_of_leaf hstarts.leaf_eq, ← append_nil text]
  exact .item hstarts .nil

/-- The first item of such a text, whichever part follows. What is behind it is such a text
too, if it is a leaf and no `fun`. -/
theorem exists_item (h : Precedes w w' y p a) :
    ∃ gap text r i, a = gap ++ (text ++ r) ∧ Precedes w w' y (p.after gap) (text ++ r) ∧
      (∀ v, v = w ∨ v = w' → Lexicon.kotlin.Skips gap (text ++ (r ++ (v ++ y))) ∧
        Lexicon.kotlin.Starts (p.after gap) i text (r ++ (v ++ y))) ∧
      ∀ t, i = .leaf t → t.isWord "fun" = false → Precedes w w' y (p.after (gap ++ text)) r := by
  obtain ⟨front, back, ts, hfront, hback, hts, span, line, hfun⟩ := h.reads
  cases front with
  | nil => cases hfun
  | cons i front =>
    obtain ⟨gap, text, r, rfl, hgap, hstarts, hr⟩ := hfront.exists_of_cons
    have hitems : Lexicon.kotlin.Reads (p.after gap) (text ++ r) (w ++ y) (i :: front) :=
      .item hstarts (by rwa [← Place.after_append])
    refine ⟨gap, text, r, i, rfl,
      ⟨h.border.of_append, i :: front, back, ts, hitems, ?_, hts, span, line, hfun⟩, ?_, ?_⟩
    · rwa [← Place.after_append]
    · rintro v (rfl | rfl)
      · exact ⟨hgap, hstarts⟩
      · refine ⟨?_, hstarts.of_interchangeable h.border.of_append⟩
        rw [← append_assoc] at hgap ⊢
        exact ((Lexicon.Reads.of_skips hgap p).of_interchangeable h.border).skips
    · rintro t rfl ht
      obtain ⟨us, -, hus⟩ := Token.itemsAll_eq_leaf_cons hts
      refine ⟨h.border.of_append.of_append, front, back, us, hr, ?_, hus, span, line, ?_⟩
      · rwa [← Place.after_append, append_assoc]
      · obtain heq | hfun := mem_cons.1 hfun
        · cases heq
          simp [Token.isWord, Token.word?] at ht
        · exact hfun

/-- The blanks and comments at the start of such a text are the same in front of both parts. -/
theorem exists_blanks (h : Precedes w w' y p a) :
    ∃ gap r, a = gap ++ r ∧ Precedes w w' y (p.after gap) r ∧
      Lexicon.kotlin.Skips gap (r ++ (w ++ y)) ∧
        ∀ v, v = w ∨ v = w' → Lexicon.kotlin.blanks (a ++ (v ++ y)) = gap.length := by
  obtain ⟨gap, text, r, i, rfl, hbehind, hitem, -⟩ := h.exists_item
  refine ⟨gap, text ++ r, rfl, hbehind, by simpa using (hitem w (.inl rfl)).1, fun v hv => ?_⟩
  obtain ⟨hskips, hstarts⟩ := hitem v hv
  simpa using Lexicon.blanks_of_skips hskips hstarts.blanks_eq

/-- A leaf other than `fun` at the start of such a text, in front of one of the parts, is in
the text. -/
theorem exists_of_starts {v text rest : List Char} (h : Precedes w w' y p a) (hv : v = w ∨ v = w')
    (hs : a ++ (v ++ y) = text ++ rest)
    (hstarts : Lexicon.kotlin.Starts p (.leaf t) text rest) (ht : t.isWord "fun" = false) :
    ∃ r, a = text ++ r ∧ rest = r ++ (v ++ y) ∧ Precedes w w' y (p.after text) r := by
  obtain ⟨gap, text', r, i, rfl, -, hitem, hnext⟩ := h.exists_item
  obtain ⟨hskips, hstarts'⟩ := hitem v hv
  have hsplit : gap ++ (text' ++ (r ++ (v ++ y))) = text ++ rest := by simpa using hs
  have hblanks := Lexicon.blanks_of_skips hskips hstarts'.blanks_eq
  rw [hsplit, hstarts.blanks_eq] at hblanks
  obtain rfl := length_eq_zero_iff.1 hblanks.symm
  have hleft : (lexicon .kotlin).Starts p i text' (r ++ (v ++ y)) := by
    rwa [Place.after_nil] at hstarts'
  have hright : (lexicon .kotlin).Starts p (.leaf t) text rest := hstarts
  rw [nil_append] at hsplit
  obtain ⟨rfl, rfl⟩ := starts_unique hsplit hleft hright
  exact ⟨r, rfl, (append_cancel_left hsplit).symm, hnext t rfl ht⟩

end Precedes

end Precedes

/-! ### Scanners that do not see the difference -/

section Scanners

variable {w w' y : List Char} {α β : Type}

/-- A scanner that takes whole tokens, gives in front of `w'` what it gives in front of `w` if
it ends before, and fails in front of `w'` where it fails in front of `w`. -/
structure Steady (w w' y : List Char) (x : Scanner α) : Prop where
  back {p : Place} {a : List Char} {v : α} {n : Nat}
    (h : x p (a ++ (w ++ y)) = some (v, n)) (hn : n ≤ a.length)
    (hafter : Precedes w w' y (p.after (a.take n)) (a.drop n)) : Precedes w w' y p a
  some_eq {p : Place} {a : List Char} {v : α} {n : Nat}
    (h : x p (a ++ (w ++ y)) = some (v, n)) (hn : n ≤ a.length)
    (hafter : Precedes w w' y (p.after (a.take n)) (a.drop n)) : x p (a ++ (w' ++ y)) = some (v, n)
  none_eq {p : Place} {a : List Char} (ha : Precedes w w' y p a)
    (h : x p (a ++ (w ++ y)) = none) : x p (a ++ (w' ++ y)) = none

/-- A steady scanner that ends before `w`, and before the first `fun`. -/
structure Firm (w w' y : List Char) (x : Scanner α) : Prop extends Steady w w' y x where
  forth {p : Place} {a : List Char} {v : α} {n : Nat} (ha : Precedes w w' y p a)
    (h : x p (a ++ (w ++ y)) = some (v, n)) :
    n ≤ a.length ∧ Precedes w w' y (p.after (a.take n)) (a.drop n)

/-- A steady scanner that never fails. -/
structure Sure (w w' y : List Char) (x : Scanner α) : Prop extends Steady w w' y x where
  ne_none (p : Place) (s : List Char) : x p s ≠ none

variable {x z : Scanner α} {f : α → Scanner β}

theorem exists_of_bind {p : Place} {a : List Char} {v : β} {n : Nat}
    (h : (x >>= f) p (a ++ (w ++ y)) = some (v, n)) (hn : n ≤ a.length) :
    ∃ u k m, n = k + m ∧ k ≤ a.length ∧ m ≤ (a.drop k).length ∧ x p (a ++ (w ++ y)) = some (u, k) ∧
      f u (p.after (a.take k)) (a.drop k ++ (w ++ y)) = some (v, m) := by
  obtain ⟨u, k, m, hx, hf, rfl⟩ := Scan.bind_eq_some_iff.1 h
  have hk : k ≤ a.length := by omega
  rw [take_append_of_le_length hk, drop_append_of_le_length hk] at hf
  exact ⟨u, k, m, rfl, hk, by simp only [length_drop]; omega, hx, hf⟩

theorem bind_eq_of_some {p : Place} {a : List Char} {u : α} {k : Nat}
    (h : x p (a ++ s) = some (u, k)) (hk : k ≤ a.length) :
    (x >>= f) p (a ++ s) = (f u (p.after (a.take k)) (a.drop k ++ s)).map fun (v, m) =>
    (v, k + m) := by
  rw [Scan.bind_of_some h, take_append_of_le_length hk, drop_append_of_le_length hk]

theorem Precedes.split {p : Place} {a : List Char} {k m : Nat}
    (h : Precedes w w' y (p.after (a.take (k + m))) (a.drop (k + m))) :
    Precedes w w' y ((p.after (a.take k)).after ((a.drop k).take m)) ((a.drop k).drop m) := by
  rwa [← Place.after_append, ← take_add, drop_drop]

namespace Steady

theorem bind_of (hx : Steady w w' y x) (hf : ∀ u, Steady w w' y (f u))
    (hnone : ∀ {p a}, Precedes w w' y p a → (x >>= f) p (a ++ (w ++ y)) = none →
    (x >>= f) p (a ++ (w' ++ y)) = none) :
    Steady w w' y (x >>= f) where
  back h hn hafter := by
    obtain ⟨u, k, m, rfl, hk, hm, hfirst, hsecond⟩ := exists_of_bind h hn
    exact hx.back hfirst hk ((hf u).back hsecond hm hafter.split)
  some_eq h hn hafter := by
    obtain ⟨u, k, m, rfl, hk, hm, hfirst, hsecond⟩ := exists_of_bind h hn
    have hmiddle := (hf u).back hsecond hm hafter.split
    rw [bind_eq_of_some (hx.some_eq hfirst hk hmiddle) hk, (hf u).some_eq hsecond hm hafter.split]
    rfl
  none_eq := hnone

theorem bind_sure (hx : Steady w w' y x) (hf : ∀ u, Sure w w' y (f u)) :
    Steady w w' y (x >>= f) := by
  refine hx.bind_of (fun u => (hf u).toSteady) fun {p a} ha h => ?_
  cases hfirst : x p (a ++ (w ++ y)) with
  | none => exact Scan.bind_of_none (hx.none_eq ha hfirst)
  | some found =>
    rw [Scan.bind_of_some hfirst, Option.map_eq_none_iff] at h
    exact absurd h ((hf found.1).ne_none _ _)

theorem option (hx : Steady w w' y x) : Sure w w' y (Scanner.option x) where
  back {p a v n} h hn hafter := by
    cases hfirst : x p (a ++ (w ++ y)) with
    | none =>
      rw [Scan.option_of_none hfirst] at h
      cases h
      simpa using hafter
    | some found =>
      simp only [Scanner.option, hfirst] at h
      cases h
      exact hx.back hfirst hn hafter
  some_eq {p a v n} h hn hafter := by
    cases hfirst : x p (a ++ (w ++ y)) with
    | none =>
      rw [Scan.option_of_none hfirst] at h
      cases h
      exact Scan.option_of_none (hx.none_eq (by simpa using hafter) hfirst)
    | some found =>
      simp only [Scanner.option, hfirst] at h
      cases h
      simp only [Scanner.option, hx.some_eq hfirst hn hafter]
  none_eq {p a} _ h := by
    simp only [Scanner.option] at h
    split at h <;> cases h
  ne_none p s h := by
    simp only [Scanner.option] at h
    split at h <;> cases h

theorem either (hx : Steady w w' y x) (hz : Steady w w' y z) :
    Steady w w' y (Scanner.either x z) where
  back {p a v n} h hn hafter := by
    cases hfirst : x p (a ++ (w ++ y)) with
    | none =>
      rw [Scanner.either, hfirst] at h
      exact hz.back h hn hafter
    | some found =>
      rw [Scanner.either, hfirst] at h
      cases h
      exact hx.back hfirst hn hafter
  some_eq {p a v n} h hn hafter := by
    cases hfirst : x p (a ++ (w ++ y)) with
    | none =>
      rw [Scanner.either, hfirst] at h
      rw [Scanner.either, hx.none_eq (hz.back h hn hafter) hfirst, hz.some_eq h hn hafter]
      rfl
    | some found =>
      rw [Scanner.either, hfirst] at h
      cases h
      rw [Scanner.either, hx.some_eq hfirst hn hafter]
      rfl
  none_eq {p a} ha h := by
    cases hfirst : x p (a ++ (w ++ y)) with
    | none =>
      rw [Scanner.either, hfirst] at h
      rw [Scanner.either, hx.none_eq ha hfirst, hz.none_eq ha h]
      rfl
    | some found =>
      rw [Scanner.either, hfirst] at h
      cases h

theorem many_go (hx : Steady w w' y x) {p : Place} {a : List Char}
    (hn : (Scanner.many.go x p (a ++ (w ++ y))).2 ≤ a.length)
    (hafter : Precedes w w' y (p.after (a.take (Scanner.many.go x p (a ++ (w ++ y))).2))
    (a.drop (Scanner.many.go x p (a ++ (w ++ y))).2)) :
    Precedes w w' y p a ∧
    Scanner.many.go x p (a ++ (w' ++ y)) = Scanner.many.go x p (a ++ (w ++ y)) := by
  induction hlen : a.length using Nat.strongRecOn generalizing a p with
  | _ len ih =>
    subst hlen
    cases hfirst : x p (a ++ (w ++ y)) with
    | none =>
      rw [Scan.many_go_of_none hfirst] at hafter ⊢
      have ha : Precedes w w' y p a := by simpa using hafter
      exact ⟨ha, Scan.many_go_of_none (hx.none_eq ha hfirst)⟩
    | some found =>
      obtain ⟨v, k⟩ := found
      by_cases hk : k = 0
      · subst hk
        rw [Scan.many_go_of_zero hfirst] at hafter ⊢
        have ha : Precedes w w' y p a := by simpa using hafter
        exact ⟨ha, Scan.many_go_of_zero (hx.some_eq hfirst (Nat.zero_le _) hafter)⟩
      · have hne : a ++ (w ++ y) ≠ [] := by simp [hafter.border.left.ne_nil]
        have hne' : a ++ (w' ++ y) ≠ [] := by simp [hafter.border.right.ne_nil]
        rw [Scan.many_go_of_some hfirst hk hne] at hn hafter ⊢
        have hkle : k ≤ a.length := Nat.le_trans (Nat.le_add_right _ _) hn
        rw [take_append_of_le_length hkle, drop_append_of_le_length hkle] at hn hafter ⊢
        obtain ⟨hmiddle, heq⟩ :=
          ih (a.drop k).length (by simp; omega) (by simp; omega) hafter.split rfl
        have hfirst' := hx.some_eq hfirst hkle hmiddle
        rw [Scan.many_go_of_some hfirst' hk hne', take_append_of_le_length hkle,
          drop_append_of_le_length hkle, heq]
        exact ⟨hx.back hfirst hkle hmiddle, rfl⟩

theorem many (hx : Steady w w' y x) : Sure w w' y (Scanner.many x) where
  back h hn hafter := by
    have hgo := Option.some.inj h
    exact (hx.many_go (by rwa [hgo]) (by rwa [hgo])).1
  some_eq h hn hafter := by
    have hgo := Option.some.inj h
    rw [Scanner.many, (hx.many_go (by rwa [hgo]) (by rwa [hgo])).2, hgo]
  none_eq _ h := by cases h
  ne_none _ _ h := by cases h

end Steady

namespace Sure

theorem pure (v : α) : Sure w w' y (Pure.pure v : Scanner α) where
  back h _ hafter := by
    cases h
    simpa using hafter
  some_eq h _ _ := by
    cases h
    rfl
  none_eq _ h := by cases h
  ne_none _ _ h := by cases h

theorem bind (hx : Sure w w' y x) (hf : ∀ u, Sure w w' y (f u)) : Sure w w' y (x >>= f) where
  toSteady := hx.toSteady.bind_sure hf
  ne_none p s h := by
    cases hfirst : x p s with
    | none => exact hx.ne_none p s hfirst
    | some found =>
      rw [Scan.bind_of_some hfirst, Option.map_eq_none_iff] at h
      exact (hf found.1).ne_none _ _ h

end Sure

namespace Firm

theorem bind_steady (hx : Firm w w' y x) (hf : ∀ u, Steady w w' y (f u)) :
    Steady w w' y (x >>= f) := by
  refine hx.toSteady.bind_of hf fun {p a} ha h => ?_
  cases hfirst : x p (a ++ (w ++ y)) with
  | none => exact Scan.bind_of_none (hx.none_eq ha hfirst)
  | some found =>
    obtain ⟨u, k⟩ := found
    obtain ⟨hk, hmiddle⟩ := hx.forth ha hfirst
    rw [bind_eq_of_some hfirst hk, Option.map_eq_none_iff] at h
    rw [bind_eq_of_some (hx.some_eq hfirst hk hmiddle) hk, (hf u).none_eq hmiddle h]
    rfl

end Firm

end Scanners

end WitnessReplay.Source
