import WitnessReplay.Proofs.LexicalRules

/-!
# Headers

How scanners go on one after another, and what the header of a file is when the file has none:
then the text starts, behind blanks and comments, with something that is neither an annotation
nor a package or import declaration.
-/

namespace WitnessReplay.Source

open Text

namespace Scan

variable {α β : Type} {x : Scanner α} {f : α → Scanner β} {p : Place} {s : List Char}

theorem bind_of_some {a : α} {n : Nat} (h : x p s = some (a, n)) :
    (x >>= f) p s = (f a (p.after (s.take n)) (s.drop n)).map fun (b, m) => (b, n + m) := by
  simp only [bind, h]
  cases f a (p.after (s.take n)) (s.drop n) <;> rfl

theorem bind_of_none (h : x p s = none) : (x >>= f) p s = none := by
  simp only [bind, h]

theorem bind_eq_some_iff {b : β} {k : Nat} :
    (x >>= f) p s = some (b, k) ↔
      ∃ a n m, x p s = some (a, n) ∧ f a (p.after (s.take n)) (s.drop n) = some (b, m) ∧
        k = n + m := by
  constructor
  · intro h
    cases hfirst : x p s with
    | none =>
      rw [bind_of_none hfirst] at h
      cases h
    | some found =>
      obtain ⟨a, n⟩ := found
      rw [bind_of_some hfirst] at h
      obtain ⟨⟨b', m⟩, hrest, heq⟩ := Option.map_eq_some_iff.1 h
      cases heq
      exact ⟨a, n, m, rfl, hrest, rfl⟩
  · rintro ⟨a, n, m, hfirst, hrest, rfl⟩
    rw [bind_of_some hfirst, hrest]
    rfl

theorem bind_of_zero {a : α} (h : x p s = some (a, 0)) : (x >>= f) p s = f a p s := by
  rw [bind_of_some h, List.take_zero, Place.after_nil, List.drop_zero]
  simp

theorem many_go_of_none (h : x p s = none) : Scanner.many.go x p s = ([], 0) := by
  cases s with
  | nil => rw [Scanner.many.go]
  | cons c r => rw [Scanner.many.go, h]

theorem many_go_of_zero {a : α} (h : x p s = some (a, 0)) : Scanner.many.go x p s = ([], 0) := by
  cases s with
  | nil => rw [Scanner.many.go]
  | cons c r =>
    rw [Scanner.many.go, h]
    rfl

theorem many_go_of_some {a : α} {n : Nat} (h : x p s = some (a, n)) (hn : n ≠ 0) (hs : s ≠ []) :
    Scanner.many.go x p s =
      (a :: (Scanner.many.go x (p.after (s.take n)) (s.drop n)).1,
        n + (Scanner.many.go x (p.after (s.take n)) (s.drop n)).2) := by
  cases s with
  | nil => exact absurd rfl hs
  | cons c r =>
    obtain ⟨m, rfl⟩ := Nat.exists_eq_succ_of_ne_zero hn
    rw [Scanner.many.go, h]
    rfl

theorem many_of_none (h : x p s = none) : Scanner.many x p s = some ([], 0) :=
  congrArg some (many_go_of_none h)

theorem option_of_some {a : α} {n : Nat} (h : x p s = some (a, n)) :
    Scanner.option x p s = some (some a, n) := by
  rw [Scanner.option, h]

theorem option_of_none (h : x p s = none) : Scanner.option x p s = some (none, 0) := by
  rw [Scanner.option, h]

end Scan

/-! ### The parts of a header -/

theorem bind_append {α β : Type} {x : Scanner α} {f : α → Scanner β} {p : Place} {a s : List Char}
    {u : α} (h : x p (a ++ s) = some (u, a.length)) :
    (x >>= f) p (a ++ s) = (f u (p.after a) s).map fun (v, m) => (v, a.length + m) := by
  rw [Scan.bind_of_some h, List.take_left, List.drop_left]

theorem text_eq_some_iff {t : String} {p : Place} {s : List Char} {v : Unit} {n : Nat} :
    Scanner.text t p s = some (v, n) ↔ n = t.toList.length ∧ ∃ r, s = t.toList ++ r := by
  rw [Scanner.text, String.length_toList]
  split
  next hstarts =>
    obtain ⟨r, rfl⟩ := List.isPrefixOf_iff_prefix.1 hstarts
    simp [eq_comm]
  next hstarts =>
    refine iff_of_false (by simp) ?_
    rintro ⟨-, r, rfl⟩
    exact hstarts (List.isPrefixOf_iff_prefix.2 (List.prefix_append _ r))

theorem text_eq_none {t : String} {p : Place} {s : List Char} (h : ∀ r, s ≠ t.toList ++ r) :
    Scanner.text t p s = none := by
  by_contra hsome
  obtain ⟨⟨v, n⟩, hn⟩ := Option.ne_none_iff_exists'.1 hsome
  obtain ⟨-, r, hr⟩ := text_eq_some_iff.1 hn
  exact h r hr

section Lexicons

variable {L : Lexicon} {p : Place} {s : List Char} {n : Nat}

theorem keyword_eq_some_iff {k : String} {v : Unit} :
    Header.keyword L k p s = some (v, n) ↔
      n = k.toList.length ∧ ∃ r, s = k.toList ++ r ∧ ∀ c ∈ r.head?, L.isNameChar c = false := by
  have hbehind (r : List Char) : ((k.toList ++ r).drop k.length).head?.any L.isNameChar = false ↔
      ∀ c ∈ r.head?, L.isNameChar c = false := by
    rw [← String.length_toList, List.drop_left]
    cases r with
    | nil => simp
    | cons d r => simp
  constructor
  · intro h
    simp only [Header.keyword] at h
    split at h
    next hkeyword =>
      cases h
      rw [Bool.and_eq_true, List.isPrefixOf_iff_prefix, Bool.not_eq_true'] at hkeyword
      obtain ⟨⟨r, rfl⟩, hr⟩ := hkeyword
      exact ⟨String.length_toList.symm, r, rfl, (hbehind r).1 hr⟩
    · cases h
  · rintro ⟨rfl, r, rfl, hr⟩
    simp only [Header.keyword]
    rw [if_pos, String.length_toList]
    rw [Bool.and_eq_true, List.isPrefixOf_iff_prefix, Bool.not_eq_true']
    exact ⟨List.prefix_append _ _, (hbehind r).2 hr⟩

theorem name_eq_some_iff {v : String} :
    Header.name L p s = some (v, n) ↔ L.word s = some n ∧ v = Lexicon.bareName (s.take n) := by
  simp only [Header.name, Option.map_eq_some_iff, Prod.mk.injEq]
  constructor
  · rintro ⟨m, hm, rfl, rfl⟩
    exact ⟨hm, rfl⟩
  · rintro ⟨hn, rfl⟩
    exact ⟨n, hn, rfl, rfl⟩

theorem group_eq_some_iff {d : Delimiter} {t : Token} :
    Header.group L d p s = some (t, n) ↔ L.token p s = some (t, n) ∧ t.isGroup d = true := by
  simp only [Header.group]
  constructor
  · intro h
    split at h
    next htoken =>
      split at h
      next hgroup =>
        cases h
        exact ⟨htoken, hgroup⟩
      · cases h
    · cases h
  · rintro ⟨htoken, hgroup⟩
    rw [htoken]
    simp [hgroup]

end Lexicons

/-! ### Files without a header -/

/-- Nothing that belongs to a header stands at the start of a text. -/
structure NoHeader (L : Lexicon) (body : List Char) : Prop where
  blanks : L.blanks body = 0
  sign : body.head? ≠ some '@'
  script : ['#', '!'].isPrefixOf body = false
  package : ∀ p, Header.keyword L "package" p body = none
  imports : ∀ p, Header.keyword L "import" p body = none

theorem text_at {t : String} {rest body : List Char} (ht : t.toList = '@' :: rest)
    (h : body.head? ≠ some '@') (p : Place) :
    Scanner.text t p body = none := by
  rw [Scanner.text, ht, if_neg]
  cases body with
  | nil => simp
  | cons c r =>
    have hc : c ≠ '@' := by simpa using h
    simp [List.isPrefixOf, hc.symm]

theorem NoHeader.skip {L : Lexicon} {body : List Char} (h : NoHeader L body) (p : Place) :
    Header.blanks L p body = some ((), 0) := by
  rw [Header.blanks, h.blanks]

variable {gap body : List Char}

theorem Kotlin.scriptLine_eq_none (h : ['#', '!'].isPrefixOf body = false) (p : Place) :
    scriptLine p body = none := by
  have hsign : Scanner.text "#!" p body = none := by
    apply text_eq_none
    rintro r rfl
    cases h
  exact Scan.bind_of_none hsign

theorem Java.header_of_noHeader (hgap : Lexicon.java.blanks (gap ++ body) = gap.length)
    (h : NoHeader .java body) (p : Place) :
    Java.header p (gap ++ body) = some ((none, []), gap.length) := by
  have hsign (p : Place) : Java.annotation p body = none :=
    Scan.bind_of_none (text_at rfl h.sign p)
  have hpackage (p : Place) : Java.packageDecl p body = none := by
    unfold Java.packageDecl
    rw [Scan.bind_of_zero (Scan.many_of_none (Scan.bind_of_none (hsign p))),
      Scan.bind_of_none (h.package p)]
  have himport (p : Place) : Java.importDecl p body = none := by
    unfold Java.importDecl
    rw [Scan.bind_of_zero (a := p) rfl, Scan.bind_of_none (h.imports p)]
  have hskip : Header.blanks .java p (gap ++ body) = some ((), gap.length) := by
    rw [Header.blanks, hgap]
  unfold Java.header
  rw [Scan.bind_of_some hskip, List.drop_left, Scan.bind_of_zero (Scan.option_of_none (hpackage _)),
    Scan.bind_of_zero (h.skip _),
    Scan.bind_of_zero (Scan.many_of_none (Scan.bind_of_none (himport _)))]
  rfl

theorem Kotlin.header_of_noHeader (hgap : Lexicon.kotlin.blanks (gap ++ body) = gap.length)
    (h : NoHeader .kotlin body)
    (p : Place) : Kotlin.header p (gap ++ body) = some ((none, []), gap.length) := by
  have hscript (p : Place) : Kotlin.scriptLine p body = none := scriptLine_eq_none h.script p
  have hsign (p : Place) : Kotlin.fileAnnotation p body = none :=
    Scan.bind_of_none (text_at rfl h.sign p)
  have hpackage (p : Place) : Kotlin.packageHeader p body = none :=
    Scan.bind_of_none (h.package p)
  have himport (p : Place) : Kotlin.importHeader p body = none := by
    unfold Kotlin.importHeader
    rw [Scan.bind_of_zero (a := p) rfl, Scan.bind_of_none (h.imports p)]
  have hskip : Header.blanks .kotlin p (gap ++ body) = some ((), gap.length) := by
    rw [Header.blanks, hgap]
  unfold Kotlin.header
  rw [Scan.bind_of_some hskip, List.drop_left, Scan.bind_of_zero (Scan.option_of_none (hscript _)),
    Scan.bind_of_zero (h.skip _),
    Scan.bind_of_zero (Scan.many_of_none (Scan.bind_of_none (hsign _))),
    Scan.bind_of_zero (Scan.option_of_none (hpackage _)), Scan.bind_of_zero (h.skip _),
    Scan.bind_of_zero (Scan.many_of_none (Scan.bind_of_none (himport _)))]
  rfl

/-- A file without a header has no package and no imports, and its body starts behind the blanks. -/
theorem header_of_noHeader {language : Language}
    (hgap : (lexicon language).blanks (gap ++ body) = gap.length)
    (h : NoHeader (lexicon language) body)
    (p : Place) : header language p (gap ++ body) = some ((none, []), gap.length) := by
  cases language
  · exact Java.header_of_noHeader hgap h p
  · exact Kotlin.header_of_noHeader hgap h p

end WitnessReplay.Source
