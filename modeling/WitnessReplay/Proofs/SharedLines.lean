import WitnessReplay.Proofs.UnchangedHeader

/-!
# Lines of a shared beginning

How much a scanner takes does not depend on where its text stands. What it gives may: a header
lists its imports with their lines. But these are lines of what it takes, so where two texts
begin alike, a header that ends in their common part is the same in both, and so are the items
behind it.
-/

namespace WitnessReplay.Source

open Text

/-- Two places have the same offset, and the same lines throughout a text. -/
structure SameLines (p q : Place) (text : List Char) : Prop where
  offset : p.offset = q.offset
  line {front : List Char} : front <+: text → (p.after front).line = (q.after front).line

namespace SameLines

variable {p q : Place} {a b text : List Char}

theorem start (h : SameLines p q text) : p.line = q.line := by
  have hline := h.line (List.nil_prefix : [] <+: text)
  rwa [Place.after_nil, Place.after_nil] at hline

theorem left (h : SameLines p q (a ++ b)) : SameLines p q a :=
  ⟨h.offset, fun hfront => h.line (hfront.trans (List.prefix_append a b))⟩

theorem right (h : SameLines p q (a ++ b)) : SameLines (p.after a) (q.after a) b where
  offset := congrArg (· + byteLength a) h.offset
  line := by
    intro front hfront
    rw [← Place.after_append, ← Place.after_append]
    exact h.line ((List.prefix_append_right_inj a).2 hfront)

theorem between (before text rest rest' : List Char) :
    SameLines (.between before (text ++ rest)) (.between before (text ++ rest')) text where
  offset := by rw [Place.offset_between, Place.offset_between]
  line := by
    rintro front ⟨more, rfl⟩
    rw [List.append_assoc, List.append_assoc, Place.after_between, Place.after_between,
      Place.line_between, Place.line_between]

end SameLines

/-! ### Items -/

section Items

variable {L : Lexicon} {p q : Place} {s text rest : List Char} {i : Item} {items : List Item}

theorem leaf_of_sameLines (h : SameLines p q text) (s : List Char) : L.leaf p s = L.leaf q s := by
  have hspan (x : List Char) : Span.of p x = Span.of q x := by
    simp only [Span.of, Place.after, h.offset]
  simp only [Lexicon.leaf, hspan, h.start]

theorem Lexicon.Starts.of_sameLines (hi : L.Starts p i text rest) (h : SameLines p q text) :
    L.Starts q i text rest := by
  cases hi with
  | opening =>
    rw [h.offset, h.start]
    exact .opening
  | @closing d =>
    have hstop : (p.after [d.closing]).offset = (q.after [d.closing]).offset :=
      congrArg (· + byteLength [d.closing]) h.offset
    rw [hstop]
    exact .closing
  | leaf hblanks hleaf => exact .leaf hblanks (leaf_of_sameLines h _ ▸ hleaf)

theorem Lexicon.Reads.of_sameLines (hreads : L.Reads p s rest items) (h : SameLines p q s) :
    L.Reads q s rest items := by
  induction hreads generalizing q with
  | nil => exact .nil
  | @blank p c s _ _ hc _ ih => exact .blank hc (ih (SameLines.right (a := [c]) h))
  | comment hx _ ih => exact .comment hx (ih h.right)
  | item hi _ ih => exact .item (hi.of_sameLines h.left) (ih h.right)

end Items

/-! ### Scanners -/

section Scanners

variable {α β : Type} {x : Scanner α} {f : α → Scanner β}

def SameLength (x : Scanner α) (y : Scanner β) : Prop :=
  ∀ p q s, (x p s).map (·.2) = (y q s).map (·.2)

def Placeless (x : Scanner α) : Prop :=
  ∀ p q s, x p s = x q s

/-- What a scanner takes does not depend on the place, and what it gives is the same at places
that are alike throughout what it takes. -/
structure DependsOn (Alike : Place → Place → List Char → Prop) (x : Scanner α) : Prop where
  length : SameLength x x
  value {p q : Place} {s : List Char} {v : α} {n : Nat} :
    x p s = some (v, n) → Alike p q (s.take n) → x q s = some (v, n)

/-- Places that are alike throughout a text are so throughout its parts. -/
def Splits (Alike : Place → Place → List Char → Prop) : Prop :=
  ∀ {p q a b}, Alike p q (a ++ b) → Alike p q a ∧ Alike (p.after a) (q.after a) b

namespace SameLength

variable {y : Scanner β}

theorem eq_none (h : SameLength x y) {p : Place} {s : List Char} (hx : x p s = none) (q : Place) :
    y q s = none := by
  have hmap := h p q s
  rw [hx] at hmap
  exact Option.map_eq_none_iff.1 hmap.symm

theorem exists_eq_some (h : SameLength x y) {p : Place} {s : List Char} {v : α} {n : Nat}
    (hx : x p s = some (v, n)) (q : Place) : ∃ u, y q s = some (u, n) := by
  have hmap := h p q s
  rw [hx] at hmap
  obtain ⟨⟨u, m⟩, hu, rfl⟩ := Option.map_eq_some_iff.1 hmap.symm
  exact ⟨u, hu⟩

theorem pure (a : α) (b : β) : SameLength (Pure.pure a : Scanner α) (Pure.pure b : Scanner β) :=
  fun _ _ _ => rfl

theorem option (h : SameLength x x) : SameLength (Scanner.option x) (Scanner.option x) := by
  intro p q s
  cases hx : x p s with
  | none => rw [Scan.option_of_none hx, Scan.option_of_none (h.eq_none hx q)]
  | some found =>
    obtain ⟨u, hu⟩ := h.exists_eq_some hx q
    rw [Scan.option_of_some hx, Scan.option_of_some hu]
    rfl

/-- What follows may depend on what is given only in what it gives itself. -/
theorem bind {γ δ : Type} {f : α → Scanner γ} {g : β → Scanner δ} (h : SameLength x y)
    (hf : ∀ u v, SameLength (f u) (g v)) : SameLength (x >>= f) (y >>= g) := by
  intro p q s
  cases hx : x p s with
  | none => rw [Scan.bind_of_none hx, Scan.bind_of_none (h.eq_none hx q)]; rfl
  | some found =>
    obtain ⟨v, n⟩ := found
    obtain ⟨u, hu⟩ := h.exists_eq_some hx q
    rw [Scan.bind_of_some hx, Scan.bind_of_some hu]
    cases hv : f v (p.after (s.take n)) (s.drop n) with
    | none => rw [(hf v u).eq_none hv]; rfl
    | some rest =>
      obtain ⟨w, hw⟩ := (hf v u).exists_eq_some hv (q.after (s.take n))
      rw [hw]
      rfl

end SameLength

namespace Placeless

theorem sameLength (h : Placeless x) : SameLength x x := by
  intro p q s
  rw [h p q s]

theorem bind (h : Placeless x) (hf : ∀ u, Placeless (f u)) : Placeless (x >>= f) := by
  intro p q s
  cases hx : x p s with
  | none => rw [Scan.bind_of_none hx, Scan.bind_of_none ((h q p s).trans hx)]
  | some found =>
    rw [Scan.bind_of_some hx, Scan.bind_of_some ((h q p s).trans hx),
      hf found.1 _ (q.after (s.take found.2))]

theorem sameLength_bind {g : α → Scanner β} (h : Placeless x) (hf : ∀ u, SameLength (f u) (g u)) :
    SameLength (x >>= f) (x >>= g) := by
  intro p q s
  cases hx : x p s with
  | none =>
    rw [Scan.bind_of_none hx, Scan.bind_of_none ((h q p s).trans hx)]
  | some found =>
    obtain ⟨u, n⟩ := found
    rw [Scan.bind_of_some hx, Scan.bind_of_some ((h q p s).trans hx)]
    cases hv : f u (p.after (s.take n)) (s.drop n) with
    | none => rw [(hf u).eq_none hv]
    | some rest =>
      obtain ⟨w, hw⟩ := (hf u).exists_eq_some hv (q.after (s.take n))
      rw [hw]
      rfl

theorem discard {y : Scanner β} (h : SameLength x x) (hy : Placeless y) :
    Placeless (x >>= fun _ => y) := by
  intro p q s
  cases hx : x p s with
  | none => rw [Scan.bind_of_none hx, Scan.bind_of_none (h.eq_none hx q)]
  | some found =>
    obtain ⟨u, hu⟩ := h.exists_eq_some hx q
    rw [Scan.bind_of_some hx, Scan.bind_of_some hu, hy _ (q.after (s.take found.2))]

theorem option (h : Placeless x) : Placeless (Scanner.option x) := by
  intro p q s
  rw [Scanner.option, Scanner.option, h p q s]

theorem either {y : Scanner α} (h : Placeless x) (hy : Placeless y) :
    Placeless (Scanner.either x y) := by
  intro p q s
  rw [Scanner.either, Scanner.either, h p q s, hy p q s]

theorem dependsOn (h : Placeless x) (Alike : Place → Place → List Char → Prop) :
    DependsOn Alike x :=
  ⟨h.sameLength, fun hx _ => (h _ _ _).trans hx⟩

end Placeless

namespace DependsOn

variable {Alike : Place → Place → List Char → Prop}

theorem split (hsplit : Splits Alike) {p q : Place} {s : List Char} {n m : Nat}
    (h : Alike p q (s.take (n + m))) :
    Alike p q (s.take n) ∧ Alike (p.after (s.take n)) (q.after (s.take n)) ((s.drop n).take m) := by
  rw [List.take_add] at h
  exact hsplit h

theorem bind (hsplit : Splits Alike) (hx : DependsOn Alike x) (hf : ∀ u, DependsOn Alike (f u))
    (hlength : SameLength (x >>= f) (x >>= f)) : DependsOn Alike (x >>= f) where
  length := hlength
  value := by
    intro p q s v n h halike
    obtain ⟨u, k, m, hfirst, hrest, rfl⟩ := Scan.bind_eq_some_iff.1 h
    obtain ⟨hfront, hback⟩ := split hsplit halike
    exact Scan.bind_eq_some_iff.2 ⟨u, k, m, hx.value hfirst hfront, (hf u).value hrest hback, rfl⟩

theorem bind_of_placeless (hsplit : Splits Alike) (hx : Placeless x)
    (hf : ∀ u, DependsOn Alike (f u)) :
    DependsOn Alike (x >>= f) :=
  (hx.dependsOn Alike).bind hsplit hf (hx.sameLength_bind fun u => (hf u).length)

theorem many_go (hsplit : Splits Alike) (hx : DependsOn Alike x) (p q : Place) (s : List Char) :
    (Scanner.many.go x q s).2 = (Scanner.many.go x p s).2 ∧
      (Alike p q (s.take (Scanner.many.go x p s).2) →
      Scanner.many.go x q s = Scanner.many.go x p s) := by
  induction hlen : s.length using Nat.strongRecOn generalizing p q s with
  | _ len ih =>
    subst hlen
    cases hfirst : x p s with
    | none =>
      rw [Scan.many_go_of_none hfirst, Scan.many_go_of_none (hx.length.eq_none hfirst q)]
      exact ⟨rfl, fun _ => rfl⟩
    | some found =>
      obtain ⟨v, n⟩ := found
      obtain ⟨u, hu⟩ := hx.length.exists_eq_some hfirst q
      by_cases hend : n = 0 ∨ s = []
      · rcases hend with rfl | rfl
        · rw [Scan.many_go_of_zero hfirst, Scan.many_go_of_zero hu]
          exact ⟨rfl, fun _ => rfl⟩
        · rw [Scanner.many.go, Scanner.many.go]
          exact ⟨rfl, fun _ => rfl⟩
      · rw [not_or] at hend
        have hpos := List.length_pos_iff.2 hend.2
        obtain ⟨hlength, heq⟩ :=
          ih (s.drop n).length (by rw [List.length_drop]; omega) (p.after (s.take n))
          (q.after (s.take n)) (s.drop n) rfl
        rw [Scan.many_go_of_some hfirst hend.1 hend.2, Scan.many_go_of_some hu hend.1 hend.2]
        refine ⟨congrArg (n + ·) hlength, fun halike => ?_⟩
        obtain ⟨hfront, hback⟩ := split hsplit halike
        obtain ⟨rfl, -⟩ := Prod.mk.inj (Option.some.inj (hu.symm.trans (hx.value hfirst hfront)))
        rw [heq hback]

theorem many (hsplit : Splits Alike) (hx : DependsOn Alike x) :
    DependsOn Alike (Scanner.many x) where
  length p q s := congrArg some (hx.many_go hsplit q p s).1
  value := by
    intro p q s v n h halike
    have hgo : Scanner.many.go x p s = (v, n) := Option.some.inj h
    rw [Scanner.many, (hx.many_go hsplit p q s).2 (by rwa [hgo]), hgo]

end DependsOn

theorem Placeless.many (h : Placeless x) : Placeless (Scanner.many x) := by
  intro p q s
  have hall : DependsOn (fun _ _ _ => True) (Scanner.many x) :=
    .many (fun _ => ⟨trivial, trivial⟩) (h.dependsOn _)
  exact (hall.value (p := p) (q := q) rfl trivial).symm

/-! ### The header of a file -/

theorem splits_sameLines : Splits SameLines :=
  fun h => ⟨h.left, h.right⟩

theorem DependsOn.here {f : Place → Scanner β} (hline : ∀ p q, p.line = q.line → f p = f q)
    (hlength : ∀ p q, SameLength (f p) (f q)) (hf : ∀ p, Placeless (f p)) :
    DependsOn SameLines (Scanner.here >>= f) where
  length p q s := by
    rw [Scan.bind_of_zero (x := Scanner.here) (a := p) rfl,
      Scan.bind_of_zero (x := Scanner.here) (a := q) rfl]
    exact hlength p q p q s
  value := by
    intro p q s v n h hlines
    rw [Scan.bind_of_zero (x := Scanner.here) (a := p) rfl] at h
    rw [Scan.bind_of_zero (x := Scanner.here) (a := q) rfl, ← hline p q hlines.start, hf p q p s]
    exact h

theorem placeless_blanks (L : Lexicon) : Placeless (Header.blanks L) :=
  fun _ _ _ => rfl

theorem placeless_text (t : String) : Placeless (Scanner.text t) :=
  fun _ _ _ => rfl

theorem placeless_keyword (L : Lexicon) (w : String) : Placeless (Header.keyword L w) :=
  fun _ _ _ => rfl

theorem placeless_name (L : Lexicon) : Placeless (Header.name L) :=
  fun _ _ _ => rfl

theorem placeless_pure (v : α) : Placeless (pure v : Scanner α) :=
  fun _ _ _ => rfl

theorem placeless_qualifiedName (L : Lexicon) : Placeless (Header.qualifiedName L) :=
  (placeless_name L).bind fun _ =>
    (Placeless.many ((placeless_blanks L).bind fun _ => (placeless_text ".").bind fun _ =>
    (placeless_blanks L).bind fun _ => placeless_name L)).bind fun _ => placeless_pure _

theorem exists_group_at {d : Delimiter} {p : Place} {s : List Char} {t : Token} {n : Nat}
    (h : Header.group .kotlin d p s = some (t, n))
    (q : Place) : ∃ u, Header.group .kotlin d q s = some (u, n) := by
  obtain ⟨inside, after, children, rfl, rfl, -, hreads⟩ := exists_of_group h
  obtain ⟨moved, hmoved, hsame⟩ := hreads.exists_at (q.after [d.opening])
  obtain ⟨children', rfl, -⟩ := exists_forest children hsame
  exact ⟨_, group_of_reads hmoved⟩

theorem sameLength_group (d : Delimiter) : SameLength (Header.group .kotlin d)
    (Header.group .kotlin d) := by
  intro p q s
  cases hp : Header.group .kotlin d p s with
  | some found =>
    obtain ⟨u, hu⟩ := exists_group_at hp q
    rw [hu]
    rfl
  | none =>
    cases hq : Header.group .kotlin d q s with
    | none => rfl
    | some found =>
      obtain ⟨u, hu⟩ := exists_group_at hq p
      cases hp.symm.trans hu

theorem placeless_fileAnnotation : Placeless Kotlin.fileAnnotation := by
  refine (placeless_text _).bind fun _ => (placeless_blanks _).bind fun _ =>
    (placeless_text _).bind fun _ =>
    (placeless_blanks _).bind fun _ => Placeless.either ?_ ?_
  · exact Placeless.discard (sameLength_group .bracket) (placeless_pure ())
  · refine (placeless_qualifiedName _).bind fun _ =>
      Placeless.discard (SameLength.option ?_) (placeless_pure ())
    exact (placeless_blanks _).sameLength.bind fun _ _ => sameLength_group .paren

theorem placeless_scriptLine : Placeless Kotlin.scriptLine := by
  have hchar : Placeless Kotlin.scriptChar :=
    Placeless.bind (x := Kotlin.noLineEnd) (fun _ _ _ => rfl) fun _ =>
      (placeless_blanks _).bind fun _ _ _ _ => rfl
  have hlater : Placeless Kotlin.laterScriptChar := (placeless_blanks _).bind fun _ => hchar
  exact (placeless_text _).bind fun _ => (placeless_blanks _).bind fun _ =>
    (hchar.bind fun _ => hlater.many.bind fun _ => placeless_pure _).option.bind fun _ =>
      placeless_pure _

theorem placeless_packageHeader : Placeless Kotlin.packageHeader :=
  (placeless_keyword _ _).bind fun _ => (placeless_blanks _).bind fun _ =>
    (placeless_qualifiedName _).bind fun _ =>
    (placeless_blanks _).bind fun _ => (placeless_text ";").option.bind fun _ => placeless_pure _

theorem placeless_wildcard (L : Lexicon) : Placeless (Scanner.test (Header.wildcard L)) :=
  ((placeless_text _).bind fun _ => (placeless_blanks L).bind fun _ => placeless_text _).option.bind
    fun _ => placeless_pure _

theorem placeless_importAlias : Placeless Kotlin.importAlias :=
  (placeless_keyword _ _).bind fun _ => (placeless_blanks _).bind fun _ => placeless_name _

theorem dependsOn_importHeader : DependsOn SameLines Kotlin.importHeader := by
  refine .here (fun p q hline => ?_) (fun p q => ?_) fun p => ?_
  · simp only [hline]
  · refine (placeless_keyword _ _).sameLength_bind fun _ =>
      (placeless_blanks _).sameLength_bind fun _ =>
      (placeless_qualifiedName _).sameLength_bind fun _ =>
        (placeless_blanks _).sameLength_bind fun _ =>
      (placeless_wildcard _).sameLength_bind fun everything => ?_
    have hend (i j : Import) : SameLength (do
        Header.blanks .kotlin
        let _ ← Scanner.option (Scanner.text ";")
        return i) (do
        Header.blanks .kotlin
        let _ ← Scanner.option (Scanner.text ";")
        return j) :=
      (placeless_blanks _).sameLength_bind fun _ =>
        (placeless_text ";").option.sameLength_bind fun _ => .pure i j
    cases everything with
    | false => exact placeless_importAlias.option.sameLength_bind fun _ => hend _ _
    | true => exact (placeless_pure none).sameLength_bind fun _ => hend _ _
  · refine (placeless_keyword _ _).bind fun _ => (placeless_blanks _).bind fun _ =>
      (placeless_qualifiedName _).bind fun _ => (placeless_blanks _).bind fun _ =>
      (placeless_wildcard _).bind fun everything => ?_
    have hend (i : Import) : Placeless (do
        Header.blanks .kotlin
        let _ ← Scanner.option (Scanner.text ";")
        return i) :=
      (placeless_blanks _).bind fun _ => (placeless_text ";").option.bind fun _ => placeless_pure i
    cases everything with
    | false => exact placeless_importAlias.option.bind fun _ => hend _
    | true => exact (placeless_pure none).bind fun _ => hend _

/-- **Headers of texts that begin alike.** A header depends on the lines of what it takes only. -/
theorem dependsOn_header : DependsOn SameLines Kotlin.header := by
  have hbind {α β : Type} {x : Scanner α} {f : α → Scanner β} (hx : Placeless x)
      (hf : ∀ u, DependsOn SameLines (f u)) : DependsOn SameLines (x >>= f) :=
    .bind_of_placeless splits_sameLines hx hf
  have hannotation : Placeless (do Kotlin.fileAnnotation; Header.blanks .kotlin) :=
    placeless_fileAnnotation.bind fun _ => placeless_blanks _
  have himport : DependsOn SameLines (do
      let i ← Kotlin.importHeader
      Header.blanks .kotlin
      return i) := by
    have hend (i : Import) : Placeless (do Header.blanks .kotlin; return i) :=
      (placeless_blanks _).bind fun _ => placeless_pure i
    refine dependsOn_importHeader.bind splits_sameLines (fun i => (hend i).dependsOn _) ?_
    exact dependsOn_importHeader.length.bind fun i j =>
      (placeless_blanks _).sameLength.bind fun _ _ => .pure i j
  refine hbind (placeless_blanks _) fun _ => hbind placeless_scriptLine.option fun _ =>
    hbind (placeless_blanks _)
    fun _ => hbind hannotation.many fun _ => hbind placeless_packageHeader.option fun package =>
    hbind (placeless_blanks _) fun _ => ?_
  have himports := himport.many splits_sameLines
  exact himports.bind splits_sameLines (fun _ => (placeless_pure _).dependsOn _)
    (himports.length.bind fun _ _ => .pure _ _)

end Scanners

end WitnessReplay.Source
