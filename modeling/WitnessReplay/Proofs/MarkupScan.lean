import WitnessReplay.Proofs.Headers
import WitnessReplay.Xml.Document

/-!
# How far the scanners of a document see

A tag is read without a look behind the next opening bracket, and wherever it stands. So are
names, attributes and the XML declaration. What scanners see is kept when they are composed.
-/

namespace WitnessReplay.Xml

open Text Text.Scanner Source List

variable {α β : Type}

def IsStop (w : List Char) : Prop :=
  w = [] ∨ ∃ r, w = '<' :: r

/-- Two texts that are both at their ends, or both at opening brackets. -/
def SameStop (w w' : List Char) : Prop :=
  w = [] ∧ w' = [] ∨ (∃ r, w = '<' :: r) ∧ ∃ r', w' = '<' :: r'

theorem SameStop.left {w w' : List Char} (h : SameStop w w') : IsStop w :=
  h.imp And.left And.left

theorem SameStop.right {w w' : List Char} (h : SameStop w w') : IsStop w' :=
  h.imp And.right And.right

theorem SameStop.trans {w w' w'' : List Char} (h : SameStop w w') (h' : SameStop w' w'') :
    SameStop w w'' := by
  rcases h with ⟨rfl, rfl⟩ | ⟨hw, r, rfl⟩
  · exact .inl ⟨rfl, (h'.resolve_right (by simp)).2⟩
  · exact .inr ⟨hw, (h'.resolve_left (by simp)).2⟩

theorem IsStop.same {w : List Char} (h : IsStop w) : SameStop w w :=
  h.imp (fun hw => ⟨hw, hw⟩) fun hw => ⟨hw, hw⟩

theorem takeWhile_append_stop {q : Char → Bool} (hq : q '<' = false) (u : List Char)
    {w : List Char} (hw : IsStop w) :
    (u ++ w).takeWhile q = u.takeWhile q := by
  have hnil : w.takeWhile q = [] := by
    rcases hw with rfl | ⟨r, rfl⟩
    · rfl
    · simp [hq]
  rw [takeWhile_append, hnil, append_nil]
  split
  · rename_i hall
    exact ((List.takeWhile_prefix q).eq_of_length hall).symm
  · rfl

theorem isPrefixOf_append_stop {t : List Char} (ht : '<' ∉ t) (u : List Char) {w : List Char}
    (hw : IsStop w) :
    t.isPrefixOf (u ++ w) = t.isPrefixOf u := by
  induction t generalizing u with
  | nil => simp
  | cons c t ih =>
    obtain ⟨hc, ht⟩ := not_or.1 (mt mem_cons.2 ht)
    cases u with
    | nil =>
      rcases hw with rfl | ⟨r, rfl⟩
      · rfl
      · simp [List.isPrefixOf, Ne.symm hc]
    | cons d u => rw [cons_append, List.isPrefixOf, List.isPrefixOf, ih ht u]

/-- A scanner that does not see the next opening bracket, nor where it stands. -/
def Blind (x : Scanner α) : Prop :=
  ∀ p p' u w w', '<' ∉ u → SameStop w w' →
    x p (u ++ w) = x p' (u ++ w') ∧ ∀ a n, x p (u ++ w) = some (a, n) → n ≤ u.length

namespace Blind

variable {x y : Scanner α} {f : α → Scanner β}

theorem pure (a : α) : Blind (Pure.pure a : Scanner α) := by
  intro p p' u w w' _ _
  refine ⟨rfl, fun b n h => ?_⟩
  cases h
  exact Nat.zero_le _

theorem bind (hx : Blind x) (hf : ∀ a, (∃ p s n, x p s = some (a, n)) → Blind (f a)) :
    Blind (x >>= f) := by
  intro p p' u w w' hu hw
  obtain ⟨hsame, hle⟩ := hx p p' u w w' hu hw
  cases hfirst : x p (u ++ w) with
  | none =>
    rw [Scan.bind_of_none hfirst, Scan.bind_of_none (hsame.symm.trans hfirst)]
    refine ⟨rfl, fun _ _ h => ?_⟩
    cases h
  | some found =>
    obtain ⟨a, n⟩ := found
    have hn := hle a n hfirst
    have hdrop : '<' ∉ u.drop n := fun hmem => hu (mem_of_mem_drop hmem)
    obtain ⟨hsame', hle'⟩ :=
      hf a ⟨p, _, n, hfirst⟩ (p.after ((u ++ w).take n)) (p'.after ((u ++ w').take n))
      (u.drop n) w w'
      hdrop hw
    rw [Scan.bind_of_some hfirst, Scan.bind_of_some (hsame.symm.trans hfirst),
      drop_append_of_le_length hn, drop_append_of_le_length hn, hsame']
    refine ⟨rfl, fun b k h => ?_⟩
    obtain ⟨⟨b', m⟩, hrest, heq⟩ := Option.map_eq_some_iff.1 h
    cases heq
    have hm := hle' b m (hsame'.trans hrest)
    rw [length_drop] at hm
    omega

theorem andThen (hx : Blind x) (hf : ∀ a, Blind (f a)) : Blind (x >>= f) :=
  hx.bind fun a _ => hf a

theorem takeWhile {q : Char → Bool} (hq : q '<' = false) : Blind (Scanner.takeWhile q) := by
  intro p p' u w w' _ hw
  simp only [Scanner.takeWhile, takeWhile_append_stop hq u hw.left,
    takeWhile_append_stop hq u hw.right, true_and]
  intro a n h
  cases h
  exact (List.takeWhile_prefix q).length_le

theorem text {t : String} (ht : '<' ∉ t.toList) : Blind (Scanner.text t) := by
  intro p p' u w w' _ hw
  simp only [Scanner.text, isPrefixOf_append_stop ht u hw.left,
    isPrefixOf_append_stop ht u hw.right, true_and]
  intro a n h
  split at h
  · rename_i hstarts
    cases h
    exact (List.isPrefixOf_iff_prefix.1 hstarts).length_le
  · cases h

theorem ahead {t : String} (ht : '<' ∉ t.toList) : Blind (Scanner.ahead t) := by
  intro p p' u w w' _ hw
  simp only [Scanner.ahead, isPrefixOf_append_stop ht u hw.left,
    isPrefixOf_append_stop ht u hw.right, true_and]
  intro a n h
  cases h
  exact Nat.zero_le _

theorem one {q : Char → Bool} (hq : q '<' = false) : Blind (Scanner.one q) := by
  intro p p' u w w' _ hw
  cases u with
  | nil =>
    rcases hw with ⟨rfl, rfl⟩ | ⟨⟨r, rfl⟩, r', rfl⟩
    · refine ⟨rfl, fun _ _ h => ?_⟩
      cases h
    · simp [Scanner.one, hq]
  | cons c u =>
    refine ⟨rfl, fun a n h => ?_⟩
    simp only [Scanner.one, cons_append] at h
    split at h
    · cases h
      simp
    · cases h

theorem require (b : Bool) : Blind (Scanner.require b) := by
  intro p p' u w w' _ _
  refine ⟨rfl, fun a n h => ?_⟩
  cases b with
  | false => cases h
  | true =>
    cases h
    exact Nat.zero_le _

theorem option (hx : Blind x) : Blind (Scanner.option x) := by
  intro p p' u w w' hu hw
  obtain ⟨hsame, hle⟩ := hx p p' u w w' hu hw
  simp only [Scanner.option, ← hsame, true_and]
  intro a n h
  cases hfirst : x p (u ++ w) with
  | none =>
    rw [hfirst] at h
    cases h
    exact Nat.zero_le _
  | some found =>
    rw [hfirst] at h
    cases h
    exact hle _ _ hfirst

theorem test (hx : Blind x) : Blind (Scanner.test x) :=
  hx.option.andThen fun _ => .pure _

theorem many_go (hx : Blind x) (p p' : Place) (u w w' : List Char) (hu : '<' ∉ u)
    (hw : SameStop w w') :
    many.go x p (u ++ w) = many.go x p' (u ++ w') ∧ (many.go x p (u ++ w)).2 ≤ u.length := by
  obtain ⟨hsame, hle⟩ := hx p p' u w w' hu hw
  cases hfirst : x p (u ++ w) with
  | none =>
    rw [Scan.many_go_of_none hfirst, Scan.many_go_of_none (hsame.symm.trans hfirst)]
    exact ⟨rfl, Nat.zero_le _⟩
  | some found =>
    obtain ⟨a, n⟩ := found
    by_cases hn : n = 0
    · subst hn
      rw [Scan.many_go_of_zero hfirst, Scan.many_go_of_zero (hsame.symm.trans hfirst)]
      exact ⟨rfl, Nat.zero_le _⟩
    · have hnu := hle a n hfirst
      have hne (v : List Char) : u ++ v ≠ [] := by
        intro hnil
        rw [(append_eq_nil_iff.1 hnil).1] at hnu
        exact hn (Nat.le_zero.1 hnu)
      have hdrop : '<' ∉ u.drop n := fun hmem => hu (mem_of_mem_drop hmem)
      obtain ⟨hsame', hle'⟩ :=
        many_go hx (p.after ((u ++ w).take n)) (p'.after ((u ++ w').take n))
        (u.drop n) w w' hdrop hw
      rw [Scan.many_go_of_some hfirst hn (hne w),
        Scan.many_go_of_some (hsame.symm.trans hfirst) hn (hne w'),
        drop_append_of_le_length hnu, drop_append_of_le_length hnu, ← hsame']
      rw [length_drop] at hle'
      exact ⟨rfl, by dsimp only; omega⟩
termination_by u.length
decreasing_by rw [length_drop]; omega

theorem many (hx : Blind x) : Blind (Scanner.many x) := by
  intro p p' u w w' hu hw
  obtain ⟨hsame, hle⟩ := many_go hx p p' u w w' hu hw
  refine ⟨congrArg some hsame, fun a n h => ?_⟩
  have hn : (many.go x p (u ++ w)).2 = n := congrArg Prod.snd (Option.some.inj h)
  exact hn ▸ hle

end Blind

theorem blind_spaces : Blind spaces :=
  .takeWhile (by decide)

theorem blind_tagName : Blind tagName := by
  intro p p' u w w' _ hw
  have hname : isNameChar '<' = false := by decide
  simp only [tagName, takeWhile_append_stop hname u hw.left,
    takeWhile_append_stop hname u hw.right, true_and]
  intro a n h
  obtain ⟨name, -, heq⟩ := Option.map_eq_some_iff.1 h
  cases heq
  exact (List.takeWhile_prefix _).length_le

theorem blind_rawAttribute : Blind rawAttribute := by
  refine blind_tagName.andThen fun _ => blind_spaces.andThen fun _ =>
    (Blind.text (by decide)).andThen fun _ =>
    blind_spaces.andThen fun _ => (Blind.one (by decide)).bind fun quote hquote => ?_
  -- The quotation mark that ends the value is the one that starts it, so it is no bracket.
  have hne : quote ≠ '<' := by
    rintro rfl
    obtain ⟨p, s, n, h⟩ := hquote
    unfold Scanner.one at h
    split at h
    · split at h
      · rename_i hmark
        cases h
        exact absurd hmark (by decide)
      · cases h
    · cases h
  exact (Blind.takeWhile (by simp)).andThen fun _ => (Blind.require _).andThen fun _ =>
    (Blind.one (by simpa using hne.symm)).andThen fun _ => .pure _

/-- A scanner that sees an opening bracket and nothing of the next one. -/
def BlindTag (x : Scanner α) : Prop :=
  ∀ p p' u w w', '<' ∉ u → SameStop w w' →
    x p ('<' :: (u ++ w)) = x p' ('<' :: (u ++ w')) ∧ ∀ a n, x p ('<' :: (u ++ w)) = some (a, n) →
    0 < n ∧ n ≤ u.length + 1

theorem Blind.tag {t : String} {f : Unit → Scanner α} {r : List Char} (ht : t.toList = '<' :: r)
    (hr : '<' ∉ r) (hf : Blind (f ())) : BlindTag (Scanner.text t >>= f) := by
  intro p p' u w w' hu hw
  have hlength : t.length = r.length + 1 := by rw [← String.length_toList, ht, length_cons]
  have htext (p : Place) {v : List Char} (hv : IsStop v) :
      Scanner.text t p ('<' :: (u ++ v)) = if r.isPrefixOf u then some ((), r.length + 1) else
      none := by
    rw [Scanner.text, ht, List.isPrefixOf, isPrefixOf_append_stop hr u hv, hlength]
    simp
  by_cases hstarts : r.isPrefixOf u = true
  · obtain ⟨v, rfl⟩ := List.isPrefixOf_iff_prefix.1 hstarts
    have hv : '<' ∉ v := fun hmem => hu (mem_append_right _ hmem)
    have hdrop (z : List Char) : ('<' :: (r ++ v ++ z)).drop (r.length + 1) = v ++ z := by
      rw [drop_succ_cons, append_assoc, drop_left]
    have hread (p : Place) {z : List Char} (hz : IsStop z) :
        Scanner.text t p ('<' :: (r ++ v ++ z)) = some ((), r.length + 1) := by
          rw [htext p hz, if_pos hstarts]
    obtain ⟨hsame, hle⟩ := hf (p.after (('<' :: (r ++ v ++ w)).take (r.length + 1)))
      (p'.after (('<' :: (r ++ v ++ w')).take (r.length + 1))) v w w' hv hw
    rw [Scan.bind_of_some (hread p hw.left), Scan.bind_of_some (hread p' hw.right), hdrop, hdrop,
      ← hsame]
    refine ⟨rfl, fun a n h => ?_⟩
    obtain ⟨⟨b, m⟩, hrest, heq⟩ := Option.map_eq_some_iff.1 h
    cases heq
    have hm := hle a m hrest
    rw [length_append]
    omega
  · have hnone (p : Place) {z : List Char} (hz : IsStop z) :
        Scanner.text t p ('<' :: (u ++ z)) = none := by
      rw [htext p hz, if_neg hstarts]
    rw [Scan.bind_of_none (hnone p hw.left), Scan.bind_of_none (hnone p' hw.right)]
    refine ⟨rfl, fun _ _ h => ?_⟩
    cases h

theorem BlindTag.either {x y : Scanner α} (hx : BlindTag x) (hy : BlindTag y) :
    BlindTag (Scanner.either x y) := by
  intro p p' u w w' hu hw
  obtain ⟨hsame, hle⟩ := hx p p' u w w' hu hw
  obtain ⟨hsame', hle'⟩ := hy p p' u w w' hu hw
  simp only [Scanner.either, ← hsame, ← hsame', true_and]
  intro a n h
  cases hfirst : x p ('<' :: (u ++ w)) with
  | none =>
    rw [hfirst] at h
    exact hle' a n h
  | some found =>
    rw [hfirst] at h
    cases h
    exact hle _ _ hfirst

theorem blindTag_openingTag : BlindTag openingTag :=
  Blind.tag rfl not_mem_nil <| blind_tagName.andThen fun _ =>
    ((Blind.one (by decide)).andThen fun _ => blind_spaces.andThen fun _ =>
      blind_rawAttribute).many.andThen fun _ =>
      blind_spaces.andThen fun _ => (Blind.text (by decide)).test.andThen fun _ =>
        (Blind.text (by decide)).andThen fun _ => .pure _

theorem blindTag_closingTag : BlindTag closingTag :=
  Blind.tag rfl (by decide) <| blind_tagName.andThen fun _ => blind_spaces.andThen fun _ =>
    (Blind.text (by decide)).andThen fun _ =>
    .pure _

theorem blind_declarationPart {start : String} (h : '<' ∉ start.toList) :
    Blind (declarationPart start) :=
  (Blind.ahead h).andThen fun _ => (Blind.require _).andThen fun _ =>
    blind_rawAttribute.andThen fun _ => blind_spaces.andThen fun _ =>
    (Blind.ahead (by decide)).andThen fun _ => .require _

theorem blindTag_declaration : BlindTag declaration :=
  Blind.tag rfl (by decide) <| blind_spaces.andThen fun _ =>
    (blind_declarationPart (by decide)).andThen fun _ =>
    (blind_declarationPart (by decide)).option.andThen fun _ =>
      (blind_declarationPart (by decide)).option.andThen fun _ =>
      .text (by decide)

end WitnessReplay.Xml
