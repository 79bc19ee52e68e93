import WitnessReplay.Proofs.DocumentPieces
import WitnessReplay.Witness.GraphML

/-!
# Brackets that are escaped inside remarks

Before a witness is read, some angle brackets of its text are escaped. This is meant for texts
that are no documents yet. In a document it can change what is read, since an escaped bracket
may have been the bracket of a tag. It changes nothing as long as the escaped brackets stand
inside comments and processing instructions: the document has the same pieces then.
-/

namespace WitnessReplay.Xml

open Text Text.Scanner List

/-- The parts of a document in which markup has no meaning. -/
inductive Enclosure where
  | comment
  | cdata
  | instruction
deriving DecidableEq, Repr

namespace Enclosure

def opening : Enclosure → List Char
  | comment => "<!--".toList
  | cdata => "<![CDATA[".toList
  | instruction => "<?".toList

def ending : Enclosure → List Char
  | comment => "-->".toList
  | cdata => "]]>".toList
  | instruction => "?>".toList

def isRemark : Enclosure → Bool
  | comment | instruction => true
  | cdata => false

/-- What starts at the beginning of a text; the XML declaration is not an instruction. -/
def at? (s : List Char) : Option Enclosure :=
  if "<!--".toList.isPrefixOf s then some comment
  else if "<![CDATA[".toList.isPrefixOf s then some cdata
  else if "<?".toList.isPrefixOf s && !"<?xml ".toList.isPrefixOf s then some instruction
  else none

end Enclosure

/-- Which characters of a document are the contents of a remark, if the next `skip` characters
are delimiters and an enclosure may be open behind them. -/
def remarkMarks (skip : Nat) (within : Option Enclosure) : List Char → List Bool
  | [] => []
  | c :: r =>
    match skip, within with
    | k + 1, within => false :: remarkMarks k within r
    | 0, some e =>
      if e.ending.isPrefixOf (c :: r) then false :: remarkMarks (e.ending.length - 1) none r
      else e.isRemark :: remarkMarks 0 (some e) r
    | 0, none =>
      match Enclosure.at? (c :: r) with
      | some e => false :: remarkMarks (e.opening.length - 1) (some e) r
      | none => false :: remarkMarks 0 none r

/-- A text, and the same text with some of the marked angle brackets escaped. -/
inductive EscapedWithin : List Bool → List Char → List Char → Prop where
  | nil : EscapedWithin [] [] []
  | keep {ms : List Bool} {s s' : List Char} (m : Bool) (c : Char) (h : EscapedWithin ms s s') :
      EscapedWithin (m :: ms) (c :: s) (c :: s')
  | less {ms : List Bool} {s s' : List Char} (h : EscapedWithin ms s s') :
      EscapedWithin (true :: ms) ('<' :: s) ('&' :: 'l' :: 't' :: ';' :: s')
  | greater {ms : List Bool} {s s' : List Char} (h : EscapedWithin ms s s') :
      EscapedWithin (true :: ms) ('>' :: s) ('&' :: 'g' :: 't' :: ';' :: s')

/-- Whether a text is another one with some of the marked angle brackets escaped. -/
def isEscapedWithin : List Bool → List Char → List Char → Bool
  | [], [], s' => s'.isEmpty
  | m :: ms, c :: s, s' =>
    s'.head? == some c && isEscapedWithin ms s s'.tail ||
    m && c == '<' && ['&', 'l', 't', ';'].isPrefixOf s' && isEscapedWithin ms s (s'.drop 4) ||
    m && c == '>' && ['&', 'g', 't', ';'].isPrefixOf s' && isEscapedWithin ms s (s'.drop 4)
  | _, _, _ => false

theorem isEscapedWithin_iff {ms : List Bool} {s s' : List Char} : isEscapedWithin ms s s' = true ↔
    EscapedWithin ms s s' := by
  constructor
  · intro h
    induction s generalizing ms s' with
    | nil =>
      cases ms with
      | nil =>
        obtain rfl := isEmpty_iff.1 h
        exact .nil
      | cons => cases h
    | cons c s ih =>
      cases ms with
      | nil => cases h
      | cons m ms =>
        simp only [isEscapedWithin, Bool.or_eq_true, Bool.and_eq_true, beq_iff_eq,
          List.isPrefixOf_iff_prefix] at h
        rcases h with (⟨hhead, h⟩ | ⟨⟨⟨rfl, rfl⟩, r, rfl⟩, h⟩) | ⟨⟨⟨rfl, rfl⟩, r, rfl⟩, h⟩
        · obtain ⟨r, rfl⟩ := head?_eq_some_iff.1 hhead
          exact .keep m c (ih h)
        · exact .less (ih h)
        · exact .greater (ih h)
  · intro h
    induction h with
    | nil => rfl
    | keep m c _ ih => simp [isEscapedWithin, ih]
    | less _ ih => simp [isEscapedWithin, ih]
    | greater _ ih => simp [isEscapedWithin, ih]

instance (ms : List Bool) (s s' : List Char) : Decidable (EscapedWithin ms s s') :=
  decidable_of_iff _ isEscapedWithin_iff

section Marks

variable {e : Enclosure} {within : Option Enclosure}

theorem remarkMarks_skip (t r : List Char) :
    remarkMarks t.length within (t ++ r) =
      List.replicate t.length false ++ remarkMarks 0 within r := by
  induction t with
  | nil => rfl
  | cons c t ih =>
    rw [cons_append, length_cons, remarkMarks, ih]
    rfl

theorem remarkMarks_opening {r : List Char} (h : Enclosure.at? (e.opening ++ r) = some e) :
    remarkMarks 0 none (e.opening ++ r) =
      List.replicate e.opening.length false ++ remarkMarks 0 (some e) r := by
  obtain ⟨c, t, ht⟩ : ∃ c t, e.opening = c :: t := by cases e <;> exact ⟨_, _, rfl⟩
  rw [ht] at h ⊢
  rw [cons_append] at h ⊢
  rw [remarkMarks, h]
  dsimp only
  rw [ht, length_cons, Nat.add_sub_cancel, remarkMarks_skip]
  rfl

theorem remarkMarks_ending (r : List Char) :
    remarkMarks 0 (some e) (e.ending ++ r) =
      List.replicate e.ending.length false ++ remarkMarks 0 none r := by
  obtain ⟨c, t, ht⟩ : ∃ c t, e.ending = c :: t := by cases e <;> exact ⟨_, _, rfl⟩
  have hstarts : e.ending.isPrefixOf (c :: (t ++ r)) = true := by
    rw [ht]
    exact List.isPrefixOf_iff_prefix.2 (prefix_append (c :: t) r)
  rw [ht, cons_append, remarkMarks, if_pos hstarts, ht, length_cons, Nat.add_sub_cancel,
    remarkMarks_skip]
  rfl

theorem remarkMarks_cons {c : Char} {r : List Char} (h : ¬ e.ending <+: c :: r) :
    remarkMarks 0 (some e) (c :: r) = e.isRemark :: remarkMarks 0 (some e) r := by
  rw [remarkMarks, if_neg (mt List.isPrefixOf_iff_prefix.1 h)]

theorem remarkMarks_of_none {c : Char} {r : List Char} (h : Enclosure.at? (c :: r) = none) :
    remarkMarks 0 none (c :: r) = false :: remarkMarks 0 none r := by
  rw [remarkMarks, h]

theorem at?_cons_of_ne {c : Char} (h : c ≠ '<') (r : List Char) :
    Enclosure.at? (c :: r) = none := by
  have hno (t : List Char) : ('<' :: t).isPrefixOf (c :: r) = false := by
    simp [List.isPrefixOf, h.symm]
  simp [Enclosure.at?, hno]

theorem remarkMarks_plain {u : List Char} (hu : '<' ∉ u) (w : List Char) :
    remarkMarks 0 none (u ++ w) = List.replicate u.length false ++ remarkMarks 0 none w := by
  induction u with
  | nil => rfl
  | cons c u ih =>
    obtain ⟨hc, hu⟩ := not_or.1 (mt mem_cons.2 hu)
    rw [cons_append, remarkMarks_of_none (at?_cons_of_ne (Ne.symm hc) _), ih hu]
    rfl

end Marks

namespace EscapedWithin

variable {ms ms' : List Bool} {a a' b b' s s' : List Char}

theorem append (ha : EscapedWithin ms a a') (hb : EscapedWithin ms' b b') :
    EscapedWithin (ms ++ ms') (a ++ b) (a' ++ b') := by
  induction ha with
  | nil => exact hb
  | keep m c _ ih => exact .keep m c ih
  | less _ ih => exact .less ih
  | greater _ ih => exact .greater ih

theorem keepAll (t : List Char) (m : Bool) (h : EscapedWithin ms s s') :
    EscapedWithin (List.replicate t.length m ++ ms) (t ++ s) (t ++ s') := by
  induction t with
  | nil => exact h
  | cons c t ih => exact .keep m c ih

theorem exists_append (hlength : ms.length = a.length) (h : EscapedWithin (ms ++ ms') (a ++ b) s') :
    ∃ a' b', s' = a' ++ b' ∧ EscapedWithin ms a a' ∧ EscapedWithin ms' b b' := by
  induction a generalizing ms s' with
  | nil =>
    obtain rfl := length_eq_zero_iff.1 hlength
    exact ⟨[], s', rfl, .nil, h⟩
  | cons c a ih =>
    cases ms with
    | nil => cases hlength
    | cons m ms =>
      cases h with
      | keep _ _ h =>
        obtain ⟨a', b', rfl, ha, hb⟩ := ih (Nat.succ.inj hlength) h
        exact ⟨c :: a', b', rfl, .keep m c ha, hb⟩
      | less h =>
        obtain ⟨a', b', rfl, ha, hb⟩ := ih (Nat.succ.inj hlength) h
        exact ⟨_, b', rfl, .less ha, hb⟩
      | greater h =>
        obtain ⟨a', b', rfl, ha, hb⟩ := ih (Nat.succ.inj hlength) h
        exact ⟨_, b', rfl, .greater ha, hb⟩

theorem exists_unmarked (t : List Char)
    (h : EscapedWithin (List.replicate t.length false ++ ms) (t ++ s) s') :
    ∃ r, s' = t ++ r ∧ EscapedWithin ms s r := by
  induction t generalizing s' with
  | nil => exact ⟨s', rfl, h⟩
  | cons c t ih =>
    cases h with
    | keep _ _ h =>
      obtain ⟨r, rfl, hr⟩ := ih h
      exact ⟨r, rfl, hr⟩

theorem eq_of_unmarked {t : List Char} (h : EscapedWithin (List.replicate t.length false) t s') :
    s' = t := by
  have hall : EscapedWithin (List.replicate t.length false ++ []) (t ++ []) s' := by simpa using h
  obtain ⟨r, rfl, hr⟩ := exists_unmarked t hall
  cases hr
  exact append_nil t

theorem eq_of_notMem (hless : '<' ∉ s) (hgreater : '>' ∉ s) (h : EscapedWithin ms s s') :
    s' = s := by
  induction h with
  | nil => rfl
  | keep m c _ ih => rw [ih (mt (mem_cons_of_mem c) hless) (mt (mem_cons_of_mem c) hgreater)]
  | less => exact absurd mem_cons_self hless
  | greater => exact absurd mem_cons_self hgreater

/-- A text without ampersands with which the escaped text starts is one with which the text
starts. -/
theorem isPrefix {t : List Char} (h : EscapedWithin ms s s') (ht : '&' ∉ t) (hstarts : t <+: s') :
    t <+: s := by
  induction h generalizing t with
  | nil => exact hstarts
  | keep m c _ ih =>
    cases t with
    | nil => exact List.nil_prefix
    | cons d t =>
      obtain ⟨rfl, htail⟩ := cons_prefix_cons.1 hstarts
      exact cons_prefix_cons.2 ⟨rfl, ih (mt (mem_cons_of_mem d) ht) htail⟩
  | less | greater =>
    cases t with
    | nil => exact List.nil_prefix
    | cons d t =>
      obtain ⟨rfl, -⟩ := cons_prefix_cons.1 hstarts
      exact absurd mem_cons_self ht

theorem head_not_name (h : EscapedWithin ms s s') (hs : s.head?.any isNameChar = false) :
    s'.head?.any isNameChar = false := by
  cases h with
  | nil => exact hs
  | keep => exact hs
  | less => exact (by decide : isNameChar '&' = false)
  | greater => exact (by decide : isNameChar '&' = false)

end EscapedWithin

theorem enclosed_nil {stop : List Char} (h : stop ≠ []) (rest : List Char) :
    Enclosed stop [] rest := by
  cases stop with
  | nil => exact absurd rfl h
  | cons c t =>
    have hstarts : (c :: t).isPrefixOf (c :: (t ++ rest)) = true :=
      List.isPrefixOf_iff_prefix.2 (prefix_append (c :: t) rest)
    exact if_pos hstarts

theorem enclosed_cons_iff {stop content rest : List Char} {c : Char} :
    Enclosed stop (c :: content) rest ↔
      ¬ stop <+: c :: (content ++ (stop ++ rest)) ∧ isDocumentChar c = true ∧
      Enclosed stop content rest := by
  rw [Enclosed, cons_append, lengthUntil, ← List.isPrefixOf_iff_prefix, length_cons, Enclosed]
  split
  · simp_all
  · split
    · simp_all
    · simp_all

theorem Enclosed.cons_of_ne {d c : Char} {t content rest : List Char}
    (h : Enclosed (d :: t) content rest) (hne : d ≠ c)
    (hc : isDocumentChar c = true) : Enclosed (d :: t) (c :: content) rest :=
  enclosed_cons_iff.2 ⟨fun hstarts => hne (cons_prefix_cons.1 hstarts).1, hc, h⟩

/-- The contents of an enclosure still reach up to the first end mark when brackets in them are
escaped. -/
theorem EscapedWithin.enclosed {ms ms' : List Bool} {d : Char}
    {t content content' rest rest' : List Char} (hd : d ∉ ['&', 'l', 'g', 't', ';'])
    (ht : '&' ∉ t) (hcontent : EscapedWithin ms content content')
    (hrest : EscapedWithin ms' (d :: t ++ rest) (d :: t ++ rest'))
    (h : Enclosed (d :: t) content rest) :
    Enclosed (d :: t) content' rest' := by
  simp only [mem_cons, not_mem_nil, or_false, not_or] at hd
  obtain ⟨hamp, hl, hg, ht', hsemicolon⟩ := hd
  have hstop : '&' ∉ d :: t := by simp [Ne.symm hamp, ht]
  induction hcontent with
  | nil => exact enclosed_nil (cons_ne_nil d t) rest'
  | keep m c hcontent ih =>
    -- An end mark that began here would have begun here before the brackets were escaped,
    -- since it has no ampersand.
    obtain ⟨hno, hc, h⟩ := enclosed_cons_iff.1 h
    refine enclosed_cons_iff.2 ⟨fun hstarts => hno ?_, hc, ih h⟩
    exact (EscapedWithin.keep m c (hcontent.append hrest)).isPrefix hstop hstarts
  | less _ ih =>
    have h := ih (enclosed_cons_iff.1 h).2.2
    exact (((h.cons_of_ne hsemicolon (by decide)).cons_of_ne ht' (by decide)).cons_of_ne hl
      (by decide)).cons_of_ne hamp
      (by decide)
  | greater _ ih =>
    have h := ih (enclosed_cons_iff.1 h).2.2
    exact (((h.cons_of_ne hsemicolon (by decide)).cons_of_ne ht' (by decide)).cons_of_ne hg
      (by decide)).cons_of_ne hamp
      (by decide)

theorem hasDoubleHyphen_cons (c : Char) (r : List Char) :
    comment.hasDoubleHyphen (c :: r) =
      (c == '-' && (r.isEmpty || r.head? == some '-') || comment.hasDoubleHyphen r) := by
  by_cases hc : c = '-'
  · subst hc
    cases r with
    | nil => rfl
    | cons d r =>
      by_cases hd : d = '-'
      · subst hd
        rfl
      · simp [comment.hasDoubleHyphen, hd]
  · simp [comment.hasDoubleHyphen, hc]

theorem EscapedWithin.hasDoubleHyphen {ms : List Bool} {content content' : List Char}
    (h : EscapedWithin ms content content') (hcontent : comment.hasDoubleHyphen content = false) :
    comment.hasDoubleHyphen content' = false := by
  induction h with
  | nil => rfl
  | keep m c h ih =>
    rw [hasDoubleHyphen_cons, Bool.or_eq_false_iff] at hcontent ⊢
    refine ⟨?_, ih hcontent.2⟩
    cases h with
    | nil => exact hcontent.1
    | keep => exact hcontent.1
    | less | greater => simp
  | less _ ih | greater _ ih =>
    rw [hasDoubleHyphen_cons, Bool.or_eq_false_iff] at hcontent
    simpa [hasDoubleHyphen_cons] using ih hcontent.2

theorem remarkMarks_enclosed {e : Enclosure} {content rest : List Char}
    (h : Enclosed e.ending content rest) :
    remarkMarks 0 (some e) (content ++ (e.ending ++ rest)) =
      List.replicate content.length e.isRemark ++ remarkMarks 0 (some e) (e.ending ++ rest) := by
  induction content with
  | nil => rfl
  | cons c content ih =>
    obtain ⟨hno, -, h⟩ := enclosed_cons_iff.1 h
    rw [cons_append, remarkMarks_cons hno, ih h]
    rfl

theorem NameAt.notMem {name rest : List Char} {c : Char} (h : NameAt name rest)
    (hstart : isNameStart c = false) (hchar : isNameChar c = false) : c ∉ name := by
  obtain ⟨d, run, rfl, hd, hrun, -⟩ := h
  intro hmem
  rcases mem_cons.1 hmem with rfl | hmem
  · exact Bool.false_ne_true (hstart.symm.trans hd)
  · exact Bool.false_ne_true (hchar.symm.trans (all_eq_true.1 hrun c hmem))

theorem NameAt.escaped {name rest rest' : List Char} {ms : List Bool} (h : NameAt name rest)
    (hrest : EscapedWithin ms rest rest') : NameAt name rest' := by
  obtain ⟨c, run, rfl, hc, hrun, hstop⟩ := h
  exact ⟨c, run, rfl, hc, hrun, hrest.head_not_name hstop⟩

theorem remarkMarks_name {name : List Char} (h : '?' ∉ name) (r : List Char) :
    remarkMarks 0 (some .instruction) (name ++ r) =
      List.replicate name.length true ++ remarkMarks 0 (some .instruction) r := by
  induction name with
  | nil => rfl
  | cons c name ih =>
    obtain ⟨hc, h⟩ := not_or.1 (mt mem_cons.2 h)
    have hno : ¬ Enclosure.instruction.ending <+: c :: (name ++ r) := fun hstarts =>
      hc (cons_prefix_cons.1 hstarts).1
    rw [cons_append, remarkMarks_cons hno, ih h]
    rfl

theorem remarkMarks_instruction {name content rest : List Char}
    (hname : NameAt name (content ++ ("?>".toList ++ rest)))
    (hcontent : Enclosed "?>".toList content rest) :
    remarkMarks 0 (some .instruction) (name ++ content ++ ("?>".toList ++ rest)) =
      List.replicate (name ++ content).length true ++ remarkMarks 0 (some .instruction)
      ("?>".toList ++ rest) := by
  rw [append_assoc, remarkMarks_name (hname.notMem (by decide) (by decide)),
    length_append, ← replicate_append_replicate, append_assoc]
  exact congrArg _ (remarkMarks_enclosed (e := .instruction) hcontent)

theorem EscapedWithin.exists_enclosure {e : Enclosure} {inner rest s' : List Char}
    (hat : Enclosure.at? (e.opening ++ (inner ++ (e.ending ++ rest))) = some e)
    (hinner : remarkMarks 0 (some e) (inner ++ (e.ending ++ rest)) =
      List.replicate inner.length e.isRemark ++ remarkMarks 0 (some e) (e.ending ++ rest))
    (h : EscapedWithin (remarkMarks 0 none (e.opening ++ (inner ++ (e.ending ++ rest))))
      (e.opening ++ (inner ++ (e.ending ++ rest))) s') :
    ∃ inner' rest', s' = e.opening ++ (inner' ++ (e.ending ++ rest')) ∧
      EscapedWithin (List.replicate inner.length e.isRemark) inner inner' ∧
      EscapedWithin (remarkMarks 0 none rest) rest rest' := by
  rw [remarkMarks_opening hat, hinner, remarkMarks_ending] at h
  obtain ⟨_, rfl, hbehind⟩ := h.exists_unmarked e.opening
  obtain ⟨inner', _, rfl, hinner', hending⟩ := exists_append length_replicate hbehind
  obtain ⟨rest', rfl, hrest⟩ := hending.exists_unmarked e.ending
  exact ⟨inner', rest', rfl, hinner', hrest⟩

theorem at?_comment (r : List Char) : Enclosure.at? ("<!--".toList ++ r) = some .comment :=
  if_pos (List.isPrefixOf_iff_prefix.2 (prefix_append _ r))

theorem isPrefixOf_eq_false {t s : List Char} (h : ¬ t <+: s) : t.isPrefixOf s = false :=
  Bool.eq_false_iff.2 (mt List.isPrefixOf_iff_prefix.1 h)

theorem at?_cdata (r : List Char) : Enclosure.at? ("<![CDATA[".toList ++ r) = some .cdata := by
  have hcomment : ¬ "<!--".toList <+: "<![CDATA[".toList ++ r :=
    not_prefix_append (by decide) (by decide) r
  rw [Enclosure.at?, isPrefixOf_eq_false hcomment, List.isPrefixOf_iff_prefix.2 (prefix_append _ r)]
  rfl

theorem at?_instruction {r : List Char} (h : ¬ "<?xml ".toList <+: "<?".toList ++ r) :
    Enclosure.at? ("<?".toList ++ r) = some .instruction := by
  have hcomment : ¬ "<!--".toList <+: "<?".toList ++ r :=
    not_prefix_append (by decide) (by decide) r
  have hcdata : ¬ "<![CDATA[".toList <+: "<?".toList ++ r :=
    not_prefix_append (by decide) (by decide) r
  rw [Enclosure.at?, isPrefixOf_eq_false hcomment, isPrefixOf_eq_false hcdata,
    isPrefixOf_eq_false h, List.isPrefixOf_iff_prefix.2 (prefix_append _ r)]
  rfl

theorem at?_of_plain_start {s : List Char} (hmark : ¬ "<!".toList <+: s)
    (hquestion : ¬ "<?".toList <+: s) :
    Enclosure.at? s = none := by
  have hcomment : ¬ "<!--".toList <+: s := mt (List.IsPrefix.trans (by decide)) hmark
  have hcdata : ¬ "<![CDATA[".toList <+: s := mt (List.IsPrefix.trans (by decide)) hmark
  rw [Enclosure.at?, isPrefixOf_eq_false hcomment, isPrefixOf_eq_false hcdata,
    isPrefixOf_eq_false hquestion]
  rfl

theorem at?_of_declaration {s : List Char} (h : "<?xml ".toList <+: s) :
    Enclosure.at? s = none := by
  obtain ⟨r, rfl⟩ := h
  have hcomment : ¬ "<!--".toList <+: "<?xml ".toList ++ r :=
    not_prefix_append (by decide) (by decide) r
  have hcdata : ¬ "<![CDATA[".toList <+: "<?xml ".toList ++ r :=
    not_prefix_append (by decide) (by decide) r
  rw [Enclosure.at?, isPrefixOf_eq_false hcomment, isPrefixOf_eq_false hcdata,
    List.isPrefixOf_iff_prefix.2 (prefix_append _ r), Bool.not_true, Bool.and_false]
  rfl

theorem EscapedWithin.head?_eq {s s' : List Char}
    (h : EscapedWithin (remarkMarks 0 none s) s s') : s'.head? = s.head? := by
  cases s with
  | nil =>
    cases h
    rfl
  | cons c r =>
    obtain ⟨ms, hms⟩ : ∃ ms, remarkMarks 0 none (c :: r) = false :: ms := by
      rw [remarkMarks]
      split <;> exact ⟨_, rfl⟩
    rw [hms] at h
    cases h
    rfl

theorem sameStop_of_head? {s s' : List Char} (hs : IsStop s) (h : s'.head? = s.head?) :
    SameStop s s' := by
  rcases hs with rfl | ⟨r, rfl⟩
  · exact .inl ⟨rfl, head?_eq_none_iff.1 h⟩
  · exact .inr ⟨⟨r, rfl⟩, head?_eq_some_iff.1 h⟩

theorem TagAt.escaped {α : Type} {x : Scanner α} {a : α} {taken behind rest s' : List Char}
    (htag : TagAt x a taken behind rest)
    (hat : Enclosure.at? ('<' :: (taken ++ (behind ++ rest))) = none)
    (h : EscapedWithin (remarkMarks 0 none ('<' :: (taken ++ (behind ++ rest))))
    ('<' :: (taken ++ (behind ++ rest))) s') :
    ∃ rest', s' = '<' :: (taken ++ (behind ++ rest')) ∧ TagAt x a taken behind rest' ∧
      EscapedWithin (remarkMarks 0 none (behind ++ rest)) (behind ++ rest) (behind ++ rest') := by
  have hplain := htag.plain
  rw [mem_append, not_or] at hplain
  rw [remarkMarks_of_none hat, remarkMarks_plain hplain.1, remarkMarks_plain hplain.2] at h
  cases h with
  | keep _ _ h =>
    obtain ⟨_, rfl, hbehind⟩ := h.exists_unmarked taken
    obtain ⟨rest', rfl, hrest⟩ := hbehind.exists_unmarked behind
    have hsame := sameStop_of_head? htag.stop hrest.head?_eq
    refine ⟨rest', rfl, ⟨htag.plain, hsame.right, fun p rest'' hsame' =>
      htag.read p rest'' (hsame.trans hsame')⟩, ?_⟩
    rw [remarkMarks_plain hplain.2]
    exact hrest.keepAll behind false

theorem PieceAt.escaped {taken rest s' : List Char} {q : Piece} (hpiece : PieceAt taken q rest)
    (h : EscapedWithin (remarkMarks 0 none (taken ++ rest)) (taken ++ rest) s') :
    ∃ taken' rest', s' = taken' ++ rest' ∧ PieceAt taken' q rest' ∧
      EscapedWithin (remarkMarks 0 none rest) rest rest' := by
  cases hpiece with
  | @comment content _ hcontent hhyphens =>
    rw [append_assoc, append_assoc] at h
    obtain ⟨content', rest', rfl, hinner, hrest⟩ :=
      h.exists_enclosure (e := .comment) (at?_comment _) (remarkMarks_enclosed hcontent)
    refine ⟨_, rest', by simp only [append_assoc]; rfl,
      .comment ?_ (hinner.hasDoubleHyphen hhyphens), hrest⟩
    exact hinner.enclosed (by decide) (by decide) (hrest.keepAll "-->".toList false) hcontent
  | @cdata content _ hcontent =>
    rw [append_assoc, append_assoc] at h
    obtain ⟨content', rest', rfl, hinner, hrest⟩ :=
      h.exists_enclosure (e := .cdata) (at?_cdata _) (remarkMarks_enclosed hcontent)
    obtain rfl := hinner.eq_of_unmarked
    refine ⟨_, rest', by simp only [append_assoc]; rfl, .cdata ?_, hrest⟩
    exact hinner.enclosed (by decide) (by decide) (hrest.keepAll "]]>".toList false) hcontent
  | @instruction name content _ hdeclaration hname hcontent =>
    -- The name is part of what is marked, but there are no brackets in it.
    have hno : ¬ "<?xml ".toList <+: s' :=
      fun hstarts => hdeclaration (h.isPrefix (by decide) hstarts)
    have hwhole : "<?".toList ++ (name ++ (content ++ "?>".toList)) ++ rest =
        "<?".toList ++ (name ++ content ++ ("?>".toList ++ rest)) := by simp only [append_assoc]
    rw [hwhole] at h hdeclaration
    obtain ⟨inner', rest', rfl, hinner, hrest⟩ :=
      h.exists_enclosure (e := .instruction) (at?_instruction hdeclaration)
        (remarkMarks_instruction hname hcontent)
    rw [length_append, ← replicate_append_replicate] at hinner
    obtain ⟨name', content', rfl, hname', hcontent'⟩ := hinner.exists_append length_replicate
    obtain rfl : name = name' :=
      (hname'.eq_of_notMem (hname.notMem (by decide) (by decide))
        (hname.notMem (by decide) (by decide))).symm
    have hending := hrest.keepAll "?>".toList false
    have hwhole' : Enclosure.instruction.opening ++
        (name ++ content' ++ (Enclosure.instruction.ending ++ rest')) =
          "<?".toList ++ (name ++ (content' ++ "?>".toList)) ++ rest' := by
      simp only [append_assoc]
      rfl
    rw [hwhole'] at hno ⊢
    exact ⟨_, rest', rfl, .instruction hno (hname.escaped (hcontent'.append hending))
      (hcontent'.enclosed (by decide) (by decide) hending hcontent), hrest⟩
  | @tag taken behind rest _ htag =>
    obtain ⟨-, hmark, hquestion⟩ := exists_of_tag (htag.read (.start []) rest htag.stop.same)
    obtain ⟨rest', rfl, htag', hrest⟩ := htag.escaped (at?_of_plain_start hmark hquestion) h
    exact ⟨'<' :: taken, behind ++ rest', rfl, .tag htag', hrest⟩
  | characters hchars hraw hstop =>
    have hplain : '<' ∉ taken := fun hmem => by simpa using all_eq_true.1 hraw '<' hmem
    rw [remarkMarks_plain hplain] at h
    obtain ⟨rest', rfl, hrest⟩ := h.exists_unmarked taken
    exact ⟨taken, rest', rfl, .characters hchars hraw (by rw [hrest.head?_eq, hstop]), hrest⟩

theorem Pieces.escaped {s s' : List Char} {qs : List Piece} (hs : Pieces s qs)
    (h : EscapedWithin (remarkMarks 0 none s) s s') : Pieces s' qs := by
  induction hs generalizing s' with
  | nil =>
    cases h
    exact .nil
  | cons hfirst _ ih =>
    obtain ⟨taken', rest', rfl, hfirst', hrest⟩ := hfirst.escaped h
    exact .cons hfirst' (ih hrest)

theorem Prologue.escaped {prologue body s' : List Char} (hprologue : Prologue prologue body)
    (h : EscapedWithin (remarkMarks 0 none (prologue ++ body)) (prologue ++ body) s') :
    ∃ body', s' = prologue ++ body' ∧ Prologue prologue body' ∧
      EscapedWithin (remarkMarks 0 none body) body body' := by
  cases hprologue with
  | absent hno => exact ⟨s', rfl, .absent fun hstarts => hno (h.isPrefix (by decide) hstarts), h⟩
  | @declared taken behind rest hstart htag =>
    obtain ⟨rest', rfl, htag', hrest⟩ := htag.escaped (at?_of_declaration hstart) h
    refine ⟨behind ++ rest', rfl, .declared ?_ htag', hrest⟩
    -- The start of the declaration has only one opening bracket, so it lies in front of the
    -- next stop.
    have hplain (w : List Char) (hw : IsStop w) :
        "<?xml ".toList <+: '<' :: (taken ++ (behind ++ w)) ↔
          "?xml ".toList <+: taken ++ behind := by
      rw [← append_assoc, ← List.isPrefixOf_iff_prefix, ← List.isPrefixOf_iff_prefix,
        ← isPrefixOf_append_stop (t := "?xml ".toList) (by decide) (taken ++ behind) hw]
      rfl
    exact (hplain rest' htag'.stop).2 ((hplain rest htag.stop).1 hstart)

theorem Document.escaped {s s' : List Char} {qs : List Piece} (hs : Document s qs)
    (h : EscapedWithin (remarkMarks 0 none s) s s') : Document s' qs := by
  have hhead := h.head?_eq
  cases hs with
  | marked hprologue hbody =>
    rw [remarkMarks_of_none (at?_cons_of_ne (by decide) _)] at h
    cases h with
    | keep _ _ h =>
      obtain ⟨body', rfl, hprologue', hbody'⟩ := hprologue.escaped h
      exact .marked hprologue' (hbody.escaped hbody')
  | unmarked hmark hprologue hbody =>
    obtain ⟨body', rfl, hprologue', hbody'⟩ := hprologue.escaped h
    exact .unmarked (hhead ▸ hmark) hprologue' (hbody.escaped hbody')

theorem parse?_of_escaped {text text' : String} {root : Node} (hroot : parse? text = some root)
    (h : EscapedWithin (remarkMarks 0 none text.toList) text.toList text'.toList) :
    parse? text' = some root := by
  unfold parse? at hroot ⊢
  obtain ⟨qs, hqs, hreading⟩ := Option.bind_eq_some_iff.1 hroot
  have hdocument := (runAll_document_eq_some_iff.1 hqs).escaped h
  rw [runAll_document_eq_some_iff.2 hdocument]
  exact hreading

end WitnessReplay.Xml

namespace WitnessReplay.Witness

/-- The brackets that are escaped in a text stand inside its comments and processing
instructions. -/
def EscapesInRemarks (text : String) : Prop :=
  Xml.EscapedWithin (Xml.remarkMarks 0 none text.toList) text.toList (sanitize text).toList

instance (text : String) : Decidable (EscapesInRemarks text) :=
  inferInstanceAs (Decidable (Xml.EscapedWithin _ _ _))

/-- A document in which only brackets inside remarks are escaped is read as if they were not. -/
theorem ofText_eq_ofXml {text origin : String} (hroot : ∃ root, Xml.parse? text = some root)
    (h : EscapesInRemarks text) :
    Graph.ofText text origin = Graph.ofXml text origin := by
  obtain ⟨root, hroot⟩ := hroot
  rw [Graph.ofText, Graph.ofXml, Graph.ofXml, hroot, Xml.parse?_of_escaped hroot h]

theorem exists_root_of_isOk {document origin : String}
    (h : (Graph.ofXml document origin).isOk = true) :
    ∃ root, Xml.parse? document = some root := by
  cases hroot : Xml.parse? document with
  | none =>
    rw [Graph.ofXml, hroot] at h
    cases h
  | some root => exact ⟨root, rfl⟩

def annotatedDocument : String :=
  "<graphml><!--(\"<a>\")--><graph/></graphml>"

theorem ofText_annotatedDocument :
    (∃ root, Xml.parse? annotatedDocument = some root) ∧ EscapesInRemarks annotatedDocument ∧
      sanitize annotatedDocument ≠ annotatedDocument ∧
      (Graph.ofXml annotatedDocument "w").isOk = true ∧
      Graph.ofText annotatedDocument "w" = Graph.ofXml annotatedDocument "w" := by
  have hread : (Graph.ofXml annotatedDocument "w").isOk = true := by decide +kernel
  have hescapes : EscapesInRemarks annotatedDocument := by decide +kernel
  have hlength : (sanitize annotatedDocument).toList.length ≠
      annotatedDocument.toList.length := by decide +kernel
  have hroot := exists_root_of_isOk hread
  exact ⟨hroot, hescapes, fun hsame => hlength (by rw [hsame]), hread,
    ofText_eq_ofXml hroot hescapes⟩

/-- A document in which the brackets of a tag stand in quotation marks and parentheses. -/
def quotedTagDocument : String :=
  "<graphml><graph>(\"<a>\")</a></graph></graphml>"

/-- Where the brackets of a tag are escaped, a document is no longer one. -/
theorem not_ofText_eq_ofXml :
    ¬ ∀ text origin : String, (∃ root, Xml.parse? text = some root) →
      Graph.ofText text origin = Graph.ofXml text origin := by
  intro h
  have hxml : (Graph.ofXml quotedTagDocument "w").isOk = true := by decide +kernel
  have htext : (Graph.ofText quotedTagDocument "w").isOk = false := by decide +kernel
  rw [h quotedTagDocument "w" (exists_root_of_isOk hxml), hxml] at htext
  cases htext

end WitnessReplay.Witness
