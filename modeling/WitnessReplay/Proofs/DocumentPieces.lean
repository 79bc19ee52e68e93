import WitnessReplay.Proofs.MarkupScan

/-!
# The pieces of a document

What a piece of a document looks like, with what stands behind it: a comment, a CDATA section
or a processing instruction goes up to the first end mark, a tag or character data does not go
beyond the next opening bracket. The scanner of documents finds exactly the pieces into which a
text can be cut in this way.
-/

namespace WitnessReplay.Xml

open Text Text.Scanner Source List

variable {α β : Type}

/-- A scanner succeeds exactly where a text, a value and what stands behind the text are
related, and it takes that text. -/
def Takes (x : Scanner α) (P : List Char → α → List Char → Prop) : Prop :=
  ∀ p s a n, x p s = some (a, n) ↔ ∃ taken rest, s = taken ++ rest ∧ n = taken.length ∧
    P taken a rest

namespace Takes

variable {x : Scanner α} {f : α → Scanner β} {P P' : List Char → α → List Char → Prop}
  {Q : α → List Char → β → List Char → Prop}

theorem congr (hx : Takes x P) (h : ∀ taken a rest, P taken a rest ↔ P' taken a rest) :
    Takes x P' := by
  intro p s a n
  simp only [hx p s a n, h]

theorem bind (hx : Takes x P) (hf : ∀ a, Takes (f a) (Q a)) :
    Takes (x >>= f) fun taken b rest =>
      ∃ first second, taken = first ++ second ∧ ∃ a, P first a (second ++ rest) ∧
        Q a second b rest := by
  intro p s b k
  rw [Scan.bind_eq_some_iff]
  constructor
  · rintro ⟨a, n, m, hfirst, hsecond, rfl⟩
    obtain ⟨first, behind, rfl, rfl, hP⟩ := (hx p s a n).1 hfirst
    rw [drop_left] at hsecond
    obtain ⟨second, rest, rfl, rfl, hQ⟩ := (hf a _ _ b m).1 hsecond
    exact ⟨first ++ second, rest, (append_assoc _ _ _).symm, length_append.symm, first,
      second, rfl, a, hP, hQ⟩
  · rintro ⟨_, rest, rfl, rfl, first, second, rfl, a, hP, hQ⟩
    refine ⟨a, first.length, second.length,
      (hx p _ a _).2 ⟨first, second ++ rest, append_assoc _ _ _, rfl, hP⟩, ?_,
      length_append⟩
    rw [append_assoc, drop_left]
    exact (hf a _ _ b _).2 ⟨second, rest, rfl, rfl, hQ⟩

theorem pure (a : α) : Takes (Pure.pure a) fun taken b _ => taken = [] ∧ b = a := by
  intro p s b n
  constructor
  · intro h
    cases h
    exact ⟨[], s, rfl, rfl, rfl, rfl⟩
  · rintro ⟨_, rest, rfl, rfl, rfl, rfl⟩
    rfl

theorem require (b : Bool) : Takes (Scanner.require b) fun taken _ _ => taken = [] ∧ b = true := by
  intro p s a n
  cases b with
  | false =>
    constructor
    · intro h
      cases h
    · rintro ⟨_, _, _, _, _, h⟩
      cases h
  | true => exact (pure () p s a n).trans (by simp)

theorem ahead (t : String) : Takes (Scanner.ahead t) fun taken b rest => taken =
    [] ∧ b = t.toList.isPrefixOf rest := by
  intro p s b n
  constructor
  · intro h
    cases h
    exact ⟨[], s, rfl, rfl, rfl, rfl⟩
  · rintro ⟨_, rest, rfl, rfl, rfl, rfl⟩
    rfl

theorem text (t : String) : Takes (Scanner.text t) fun taken _ _ => taken = t.toList := by
  intro p s a n
  rw [Scanner.text, ← String.length_toList]
  constructor
  · intro h
    split at h
    · rename_i hstarts
      obtain ⟨rest, rfl⟩ := List.isPrefixOf_iff_prefix.1 hstarts
      cases h
      exact ⟨_, rest, rfl, rfl, rfl⟩
    · cases h
  · rintro ⟨_, rest, rfl, rfl, rfl⟩
    rw [if_pos (List.isPrefixOf_iff_prefix.2 (prefix_append _ rest))]

theorem one (q : Char → Bool) : Takes (Scanner.one q) fun taken c _ => taken =
    [c] ∧ q c = true := by
  intro p s a n
  constructor
  · intro h
    unfold Scanner.one at h
    split at h
    · split at h
      · rename_i c rest hc
        cases h
        exact ⟨[a], rest, rfl, rfl, rfl, hc⟩
      · cases h
    · cases h
  · rintro ⟨_, rest, rfl, rfl, rfl, hq⟩
    simp [Scanner.one, hq]

theorem takeWhile (q : Char → Bool) :
    Takes (Scanner.takeWhile q) fun taken run rest => run = taken ∧ taken.all q = true ∧
    rest.head?.any q = false := by
  intro p s a n
  constructor
  · intro h
    cases h
    refine ⟨s.takeWhile q, s.dropWhile q, takeWhile_append_dropWhile.symm, rfl, rfl,
      all_eq_true.2 fun c hc => mem_takeWhile_imp hc, ?_⟩
    cases hrest : s.dropWhile q with
    | nil => rfl
    | cons c r =>
      have hc := head?_dropWhile_not q s
      rw [hrest] at hc
      simpa using hc
  · rintro ⟨_, rest, rfl, rfl, rfl, hall, hstop⟩
    have hrest : rest.takeWhile q = [] := by
      cases rest with
      | nil => rfl
      | cons c r =>
        have hc : q c = false := by simpa using hstop
        simp [hc]
    rw [Scanner.takeWhile, takeWhile_append_of_pos (all_eq_true.1 hall), hrest, append_nil]

/-- A scanner fails where a text does not start as everything does that the scanner takes. -/
theorem eq_none {t : List Char} (hx : Takes x P)
    (hP : ∀ taken a rest, P taken a rest → t <+: taken) {p : Place}
    {s : List Char} (hs : ¬ t <+: s) : x p s = none := by
  cases hread : x p s with
  | none => rfl
  | some found =>
    obtain ⟨a, n⟩ := found
    obtain ⟨taken, rest, rfl, -, htaken⟩ := (hx p s a n).1 hread
    exact absurd ((hP taken a rest htaken).trans (prefix_append taken rest)) hs

end Takes

/-- The first `stop` in a text stands behind `content`, which has document characters only. -/
def Enclosed (stop content rest : List Char) : Prop :=
  lengthUntil stop (content ++ (stop ++ rest)) = some content.length

theorem exists_of_lengthUntil {stop s : List Char} {n : Nat} (h : lengthUntil stop s = some n) :
    ∃ content rest, s = content ++ (stop ++ rest) ∧ content.length = n := by
  induction s generalizing n with
  | nil => cases h
  | cons c r ih =>
    unfold lengthUntil at h
    split at h
    · rename_i hstarts
      obtain ⟨rest, hrest⟩ := List.isPrefixOf_iff_prefix.1 hstarts
      cases h
      exact ⟨[], rest, hrest.symm, rfl⟩
    · split at h
      · obtain ⟨m, hm, rfl⟩ := Option.map_eq_some_iff.1 h
        obtain ⟨content, rest, rfl, rfl⟩ := ih hm
        exact ⟨c :: content, rest, rfl, rfl⟩
      · cases h

theorem takes_upTo (stop : String) :
    Takes (upTo stop) fun taken content rest => taken = content ++ stop.toList ∧
    Enclosed stop.toList content rest := by
  intro p s a n
  constructor
  · intro h
    obtain ⟨m, hlength, heq⟩ := Option.map_eq_some_iff.1 h
    obtain ⟨content, rest, rfl, rfl⟩ := exists_of_lengthUntil hlength
    rw [take_left] at heq
    cases heq
    exact ⟨_, rest, (append_assoc _ _ _).symm, by
      rw [length_append, String.length_toList], rfl, hlength⟩
  · rintro ⟨_, rest, rfl, rfl, rfl, henclosed⟩
    have hlength : lengthUntil stop.toList (a ++ stop.toList ++ rest) = some a.length := by
      rw [append_assoc]
      exact henclosed
    rw [upTo, hlength, Option.map_some, append_assoc, take_left, length_append,
      String.length_toList]

/-- A name, and something behind it that does not go on with the name. -/
def NameAt (name rest : List Char) : Prop :=
  ∃ c run, name = c :: run ∧ isNameStart c = true ∧ run.all isNameChar = true ∧
    rest.head?.any isNameChar = false

theorem takes_plainName : Takes plainName fun taken _ rest => NameAt taken rest := by
  have h := (Takes.one isNameStart).bind fun _ => (Takes.takeWhile isNameChar).bind fun _ =>
    .pure ()
  refine h.congr fun taken _ rest => ?_
  constructor
  · rintro ⟨_, _, rfl, c, ⟨rfl, hc⟩, _, _, rfl, run, ⟨rfl, hrun, hstop⟩, rfl, -⟩
    exact ⟨c, run, by simp, hc, hrun, hstop⟩
  · rintro ⟨c, run, rfl, hc, hrun, hstop⟩
    exact ⟨[c], run, rfl, c, ⟨rfl, hc⟩, run, [], by simp, run, ⟨rfl, hrun, hstop⟩, rfl, rfl⟩

theorem takes_comment :
    Takes comment fun taken q rest =>
      ∃ content, taken = "<!--".toList ++ (content ++ "-->".toList) ∧
        Enclosed "-->".toList content rest ∧
        comment.hasDoubleHyphen content = false ∧ q = .remark := by
  have h := (Takes.text "<!--").bind fun _ => (takes_upTo "-->").bind fun content =>
    (Takes.require (!comment.hasDoubleHyphen content)).bind fun _ => .pure Piece.remark
  refine h.congr fun taken q rest => ?_
  constructor
  · rintro ⟨_, _, rfl, -, rfl, _, _, rfl, content, ⟨rfl, henclosed⟩, _, _, rfl, -,
      ⟨rfl, hhyphens⟩, rfl, rfl⟩
    exact ⟨content, by simp, henclosed, by simpa using hhyphens, rfl⟩
  · rintro ⟨content, rfl, henclosed, hhyphens, rfl⟩
    exact ⟨_, _, rfl, (), rfl, _, [], by simp, content, ⟨rfl, henclosed⟩, [], [], rfl, (),
      ⟨rfl, by simpa using hhyphens⟩,
      rfl, rfl⟩

theorem takes_cdataSection :
    Takes cdataSection fun taken q rest =>
      ∃ content, taken = "<![CDATA[".toList ++ (content ++ "]]>".toList) ∧
        Enclosed "]]>".toList content rest ∧
        q = .cdata content := by
  have h := (Takes.text "<![CDATA[").bind fun _ => (takes_upTo "]]>").bind fun content =>
    .pure (Piece.cdata content)
  refine h.congr fun taken q rest => ?_
  constructor
  · rintro ⟨_, _, rfl, -, rfl, _, _, rfl, content, ⟨rfl, henclosed⟩, rfl, rfl⟩
    exact ⟨content, by simp, henclosed, rfl⟩
  · rintro ⟨content, rfl, henclosed, rfl⟩
    exact ⟨_, _, rfl, (), rfl, _, [], by simp, content, ⟨rfl, henclosed⟩, rfl, rfl⟩

theorem takes_instruction :
    Takes instruction fun taken q rest =>
      ∃ name content, taken = "<?".toList ++ (name ++ (content ++ "?>".toList)) ∧
        ¬ "<?xml ".toList <+: taken ++ rest ∧
        NameAt name (content ++ ("?>".toList ++ rest)) ∧ Enclosed "?>".toList content rest ∧
        q = .remark := by
  have h := (Takes.ahead "<?xml ").bind fun declared => (Takes.require (!declared)).bind fun _ =>
    (Takes.text "<?").bind fun _ => takes_plainName.bind fun _ => (takes_upTo "?>").bind fun _ =>
      .pure Piece.remark
  refine h.congr fun taken q rest => ?_
  simp only [← List.isPrefixOf_iff_prefix, Bool.not_eq_true]
  constructor
  · rintro ⟨_, _, rfl, _, ⟨rfl, rfl⟩, _, _, rfl, -, ⟨rfl, hdeclaration⟩, _, _, rfl, -, rfl, name,
      _, rfl, -, hname, _, _,
      rfl, content, ⟨rfl, henclosed⟩, rfl, rfl⟩
    exact ⟨name, content, by simp, by simpa using hdeclaration,
      by simpa using hname, henclosed, rfl⟩
  · rintro ⟨name, content, rfl, hdeclaration, hname, henclosed, rfl⟩
    exact ⟨[], _, (nil_append _).symm, _, ⟨rfl, rfl⟩, [], _, (nil_append _).symm, (),
      ⟨rfl, by simpa only [Bool.not_eq_true'] using hdeclaration⟩, _, _, rfl, (), rfl, name, _,
      rfl, (), by simpa using hname, _, [], by simp, content, ⟨rfl, henclosed⟩, rfl, rfl⟩

theorem takes_characterData :
    Takes characterData fun taken q rest =>
      (!taken.isEmpty && taken.all isDocumentChar && (lengthUntil "]]>".toList taken).isNone) =
        true ∧
        taken.all (· != '<') = true ∧ rest.head?.any (· != '<') = false ∧
        q = .characters taken := by
  have h := (Takes.takeWhile (· != '<')).bind fun raw =>
    (Takes.require (!raw.isEmpty && raw.all isDocumentChar &&
    (lengthUntil "]]>".toList raw).isNone)).bind fun _ => .pure (Piece.characters raw)
  refine h.congr fun taken q rest => ?_
  constructor
  · rintro ⟨_, _, rfl, raw, ⟨rfl, hraw, hstop⟩, _, _, rfl, -, ⟨rfl, hchars⟩, rfl, rfl⟩
    rw [append_nil, append_nil]
    exact ⟨hchars, hraw, hstop, rfl⟩
  · rintro ⟨hchars, hraw, hstop, rfl⟩
    exact ⟨taken, [], (append_nil _).symm, taken, ⟨rfl, hraw, hstop⟩, [], [], rfl, (),
      ⟨rfl, hchars⟩, rfl, rfl⟩

theorem exists_stop (s : List Char) : ∃ u w, s = u ++ w ∧ '<' ∉ u ∧ IsStop w := by
  induction s with
  | nil => exact ⟨[], [], rfl, not_mem_nil, .inl rfl⟩
  | cons c r ih =>
    by_cases hc : c = '<'
    · exact ⟨[], c :: r, rfl, not_mem_nil, .inr ⟨r, by rw [hc]⟩⟩
    · obtain ⟨u, w, rfl, hu, hw⟩ := ih
      exact ⟨c :: u, w, rfl, by simp [Ne.symm hc, hu], hw⟩

/-- What a scanner of tags takes behind the opening bracket, the plain text behind that, and
the rest from the next stop on. Another rest would make no difference. -/
structure TagAt (x : Scanner α) (a : α) (taken behind rest : List Char) : Prop where
  plain : '<' ∉ taken ++ behind
  stop : IsStop rest
  read : ∀ p rest', SameStop rest rest' → x p ('<' :: (taken ++ (behind ++ rest'))) =
    some (a, taken.length + 1)

theorem BlindTag.tagAt {x : Scanner α} (hx : BlindTag x) {p : Place} {s : List Char} {a : α}
    {n : Nat} (h : x p ('<' :: s) = some (a, n)) :
    ∃ taken behind rest, s = taken ++ (behind ++ rest) ∧ n = taken.length + 1 ∧
      TagAt x a taken behind rest := by
  obtain ⟨u, w, rfl, hu, hw⟩ := exists_stop s
  obtain ⟨hpos, hle⟩ := (hx p p u w w hu hw.same).2 a n h
  have hlength : n = (u.take (n - 1)).length + 1 := by
    rw [length_take]
    omega
  refine ⟨u.take (n - 1), u.drop (n - 1), w, ?_, hlength, ?_, hw, fun p' w' hw' => ?_⟩
  · rw [← append_assoc, take_append_drop]
  · rwa [take_append_drop]
  · rw [← append_assoc, take_append_drop, ← (hx p p' u w w' hu hw').1, h, ← hlength]

def tag : Scanner Piece :=
  either closingTag openingTag

theorem blindTag_tag : BlindTag tag :=
  blindTag_closingTag.either blindTag_openingTag

theorem tag_eq (p : Place) (s : List Char) : tag p s = (closingTag p s).or (openingTag p s) := by
  simp only [tag, either, Option.orElse_eq_orElse, Option.orElse_eq_or]

theorem piece_eq (p : Place) (s : List Char) :
    piece p s = (comment p s).or
    ((cdataSection p s).or ((instruction p s).or ((tag p s).or (characterData p s)))) := by
  simp only [piece, tag, either, Option.orElse_eq_orElse, Option.orElse_eq_or, Option.or_assoc]

/-- Two texts that differ do not start alike, unless one starts with the other. -/
theorem not_prefix_append {a b : List Char} (hab : ¬ a <+: b) (hba : ¬ b <+: a) (r : List Char) :
    ¬ a <+: b ++ r := by
  intro h
  exact (List.prefix_or_prefix_of_prefix h (prefix_append b r)).elim hab hba

section Failure

variable {p : Place} {s : List Char}

theorem comment_eq_none (h : ¬ "<!--".toList <+: s) : comment p s = none := by
  refine takes_comment.eq_none ?_ h
  rintro _ _ _ ⟨content, rfl, -⟩
  exact prefix_append _ _

theorem cdataSection_eq_none (h : ¬ "<![CDATA[".toList <+: s) : cdataSection p s = none := by
  refine takes_cdataSection.eq_none ?_ h
  rintro _ _ _ ⟨content, rfl, -⟩
  exact prefix_append _ _

theorem instruction_eq_none (h : ¬ "<?".toList <+: s) : instruction p s = none := by
  refine takes_instruction.eq_none ?_ h
  rintro _ _ _ ⟨name, content, rfl, -⟩
  exact prefix_append _ _

theorem piece_eq_of_plain_start (hmark : ¬ "<!".toList <+: s) (hquestion : ¬ "<?".toList <+: s) :
    piece p s = (tag p s).or (characterData p s) := by
  have hcomment : ¬ "<!--".toList <+: s := mt (List.IsPrefix.trans (by decide)) hmark
  have hcdata : ¬ "<![CDATA[".toList <+: s := mt (List.IsPrefix.trans (by decide)) hmark
  rw [piece_eq, comment_eq_none hcomment, cdataSection_eq_none hcdata,
    instruction_eq_none hquestion, Option.none_or, Option.none_or, Option.none_or]

end Failure

theorem head_of_tagName {p : Place} {s : List Char} {name : TagName} {n : Nat}
    (h : tagName p s = some (name, n)) :
    s.head?.any isNameChar = true := by
  obtain ⟨_, hname, -⟩ := Option.map_eq_some_iff.1 h
  cases s with
  | nil => cases hname
  | cons c r =>
    by_cases hc : isNameChar c = true
    · exact hc
    · rw [takeWhile_cons_of_neg hc] at hname
      cases hname

/-- Behind the opening bracket of a tag there is neither an exclamation mark nor a question mark. -/
theorem exists_of_tag {p : Place} {s : List Char} {q : Piece} {n : Nat}
    (h : tag p s = some (q, n)) :
    (∃ r, s = '<' :: r) ∧ ¬ "<!".toList <+: s ∧ ¬ "<?".toList <+: s := by
  rw [tag_eq] at h
  rcases Option.or_eq_some_iff.1 h with hclosing | ⟨-, hopening⟩
  · obtain ⟨_, _, _, htext, -, -⟩ := Scan.bind_eq_some_iff.1 hclosing
    obtain ⟨_, rest, rfl, -, rfl⟩ := (Takes.text _ _ _ _ _).1 htext
    exact ⟨⟨_, rfl⟩, not_prefix_append (by decide) (by decide) rest,
      not_prefix_append (by decide) (by decide) rest⟩
  · obtain ⟨_, _, _, htext, hname, -⟩ := Scan.bind_eq_some_iff.1 hopening
    obtain ⟨_, rest, rfl, rfl, rfl⟩ := (Takes.text _ _ _ _ _).1 htext
    rw [drop_left] at hname
    obtain ⟨_, _, _, hname, -, -⟩ := Scan.bind_eq_some_iff.1 hname
    have hhead := head_of_tagName hname
    have hno {c : Char} (hc : isNameChar c = false) : ¬ ['<', c] <+: '<' :: rest := by
      rintro ⟨r, hr⟩
      rw [← (List.cons.inj hr).2] at hhead
      exact absurd hhead (by simp [hc])
    exact ⟨⟨_, rfl⟩, hno (by decide), hno (by decide)⟩

/-- A piece of a document and what stands behind it. -/
inductive PieceAt : List Char → Piece → List Char → Prop where
  | comment {content rest : List Char} (hcontent : Enclosed "-->".toList content rest)
      (hhyphens : comment.hasDoubleHyphen content = false) :
      PieceAt ("<!--".toList ++ (content ++ "-->".toList)) .remark rest
  | cdata {content rest : List Char} (hcontent : Enclosed "]]>".toList content rest) :
      PieceAt ("<![CDATA[".toList ++ (content ++ "]]>".toList)) (.cdata content) rest
  | instruction {name content rest : List Char}
      (hdeclaration : ¬ "<?xml ".toList <+: "<?".toList ++ (name ++ (content ++ "?>".toList)) ++
        rest)
      (hname : NameAt name (content ++ ("?>".toList ++ rest)))
      (hcontent : Enclosed "?>".toList content rest) :
      PieceAt ("<?".toList ++ (name ++ (content ++ "?>".toList))) .remark rest
  | tag {taken behind rest : List Char} {q : Piece} (htag : TagAt tag q taken behind rest) :
      PieceAt ('<' :: taken) q (behind ++ rest)
  | characters {raw rest : List Char}
      (hchars : (!raw.isEmpty && raw.all isDocumentChar &&
        (lengthUntil "]]>".toList raw).isNone) = true)
      (hraw : raw.all (· != '<') = true) (hstop : rest.head?.any (· != '<') = false) :
      PieceAt raw (.characters raw) rest

theorem exists_pieceAt {p : Place} {s : List Char} {q : Piece} {n : Nat}
    (h : piece p s = some (q, n)) :
    ∃ taken rest, s = taken ++ rest ∧ n = taken.length ∧ PieceAt taken q rest := by
  rw [piece_eq] at h
  -- The kinds of pieces are tried in this order, and the first one that is there is taken.
  rcases Option.or_eq_some_iff.1 h with hcomment | ⟨-, h⟩
  · obtain ⟨_, rest, rfl, rfl, content, rfl, hcontent, hhyphens, rfl⟩ :=
      (takes_comment _ _ _ _).1 hcomment
    exact ⟨_, rest, rfl, rfl, .comment hcontent hhyphens⟩
  rcases Option.or_eq_some_iff.1 h with hcdata | ⟨-, h⟩
  · obtain ⟨_, rest, rfl, rfl, content, rfl, hcontent, rfl⟩ := (takes_cdataSection _ _ _ _).1 hcdata
    exact ⟨_, rest, rfl, rfl, .cdata hcontent⟩
  rcases Option.or_eq_some_iff.1 h with hinstruction | ⟨-, h⟩
  · obtain ⟨_, rest, rfl, rfl, name, content, rfl, hdeclaration, hname, hcontent, rfl⟩ :=
      (takes_instruction _ _ _ _).1 hinstruction
    exact ⟨_, rest, rfl, rfl, .instruction hdeclaration hname hcontent⟩
  rcases Option.or_eq_some_iff.1 h with htag | ⟨-, hcharacters⟩
  · obtain ⟨⟨r, rfl⟩, -, -⟩ := exists_of_tag htag
    obtain ⟨taken, behind, rest, rfl, rfl, hread⟩ := blindTag_tag.tagAt htag
    exact ⟨'<' :: taken, behind ++ rest, rfl, rfl, .tag hread⟩
  · obtain ⟨_, rest, rfl, rfl, hchars, hraw, hstop, rfl⟩ :=
      (takes_characterData _ _ _ _).1 hcharacters
    exact ⟨_, rest, rfl, rfl, .characters hchars hraw hstop⟩

theorem PieceAt.read {taken rest : List Char} {q : Piece} (h : PieceAt taken q rest) (p : Place) :
    piece p (taken ++ rest) = some (q, taken.length) := by
  cases h with
  | comment hcontent hhyphens =>
    rw [piece_eq, (takes_comment _ _ _ _).2 ⟨_, rest, rfl, rfl, _, rfl, hcontent, hhyphens, rfl⟩,
      Option.some_or]
  | cdata hcontent =>
    have hread := (takes_cdataSection p _ _ _).2 ⟨_, rest, rfl, rfl, _, rfl, hcontent, rfl⟩
    rw [piece_eq, hread, append_assoc,
      comment_eq_none (not_prefix_append (by decide) (by decide) _), Option.none_or,
      Option.some_or]
  | instruction hdeclaration hname hcontent =>
    have hread := (takes_instruction p _ _ _).2 ⟨_, rest, rfl, rfl, _, _, rfl, hdeclaration,
      hname, hcontent, rfl⟩
    rw [piece_eq, hread, append_assoc,
      comment_eq_none (not_prefix_append (by decide) (by decide) _),
      cdataSection_eq_none (not_prefix_append (by decide) (by decide) _), Option.none_or,
      Option.none_or, Option.some_or]
  | tag htag =>
    have hread := htag.read p _ htag.stop.same
    obtain ⟨-, hmark, hquestion⟩ := exists_of_tag hread
    rw [cons_append, piece_eq_of_plain_start hmark hquestion, hread, Option.some_or]
    rfl
  | characters hchars hraw hstop =>
    have hread := (takes_characterData p _ _ _).2 ⟨_, rest, rfl, rfl, hchars, hraw, hstop, rfl⟩
    cases taken with
    | nil => cases hchars
    | cons c raw =>
      have hc : c ≠ '<' := by simpa using all_eq_true.1 hraw c mem_cons_self
      have hno (t : List Char) : ¬ '<' :: t <+: c :: raw ++ rest := by
        simp [cons_prefix_cons, hc.symm]
      have htag : Xml.tag p (c :: raw ++ rest) = none := by
        refine Option.eq_none_iff_forall_ne_some.2 fun found hfound => ?_
        obtain ⟨⟨r, hr⟩, -⟩ := exists_of_tag hfound
        exact hc (List.cons.inj hr).1
      rw [piece_eq_of_plain_start (hno _) (hno _), htag, hread, Option.none_or]

inductive Pieces : List Char → List Piece → Prop where
  | nil : Pieces [] []
  | cons {taken rest : List Char} {q : Piece} {qs : List Piece} (hfirst : PieceAt taken q rest)
      (hrest : Pieces rest qs) :
      Pieces (taken ++ rest) (q :: qs)

theorem PieceAt.ne_nil {taken rest : List Char} {q : Piece} (h : PieceAt taken q rest) :
    taken ≠ [] := by
  cases h with
  | comment => simp
  | cdata => simp
  | instruction => simp
  | tag => simp
  | characters hchars =>
    rintro rfl
    cases hchars

theorem Pieces.many_go {s : List Char} {qs : List Piece} (h : Pieces s qs) (p : Place) :
    many.go piece p s = (qs, s.length) := by
  induction h generalizing p with
  | nil => rw [many.go]; rfl
  | @cons taken rest q qs hfirst hrest ih =>
    have hread := hfirst.read p
    have hlength : taken.length ≠ 0 := mt length_eq_zero_iff.1 hfirst.ne_nil
    rw [Scan.many_go_of_some hread hlength (append_ne_nil_of_left_ne_nil hfirst.ne_nil rest),
      drop_left, ih, length_append]

theorem pieces_of_many_go {s : List Char} {qs : List Piece} {p : Place}
    (h : many.go piece p s = (qs, s.length)) :
    Pieces s qs := by
  induction hlength : s.length using Nat.strongRecOn generalizing s qs p with
  | ind length ih =>
    cases hread : piece p s with
    | none =>
      rw [Scan.many_go_of_none hread] at h
      obtain ⟨rfl, hzero⟩ := Prod.mk.inj h
      rw [length_eq_zero_iff.1 hzero.symm]
      exact .nil
    | some found =>
      obtain ⟨q, n⟩ := found
      obtain ⟨taken, rest, rfl, rfl, hfirst⟩ := exists_pieceAt hread
      have hpos : taken.length ≠ 0 := mt length_eq_zero_iff.1 hfirst.ne_nil
      rw [Scan.many_go_of_some hread hpos (append_ne_nil_of_left_ne_nil hfirst.ne_nil rest),
        drop_left, length_append] at h
      obtain ⟨rfl, hrest⟩ := Prod.mk.inj h
      rw [length_append] at hlength
      exact .cons hfirst (ih rest.length (by omega) (Prod.ext rfl (Nat.add_left_cancel hrest)) rfl)

/-- The XML declaration of a document, if it has one, and what stands behind it. -/
inductive Prologue : List Char → List Char → Prop where
  | absent {rest : List Char} (h : ¬ "<?xml ".toList <+: rest) : Prologue [] rest
  | declared {taken behind rest : List Char}
      (hstart : "<?xml ".toList <+: '<' :: (taken ++ (behind ++ rest)))
      (hread : TagAt declaration () taken behind rest) : Prologue ('<' :: taken) (behind ++ rest)

/-- A document: possibly a byte order mark, then the declaration, then the pieces. -/
inductive Document : List Char → List Piece → Prop where
  | marked {prologue body : List Char} {qs : List Piece} (hprologue : Prologue prologue body)
      (hbody : Pieces body qs) :
      Document ('\ufeff' :: (prologue ++ body)) qs
  | unmarked {prologue body : List Char} {qs : List Piece}
      (hmark : (prologue ++ body).head? ≠ some '\ufeff')
      (hprologue : Prologue prologue body) (hbody : Pieces body qs) : Document (prologue ++ body) qs

def contents : Scanner (List Piece) := do
  if ← ahead "<?xml " then declaration
  many piece

theorem contents_of_declared {s : List Char} (h : "<?xml ".toList <+: s) (p : Place) :
    contents p s = (declaration >>= fun _ => many piece) p s := by
  have hahead : ahead "<?xml " p s = some (true, 0) := by rw [ahead, List.isPrefixOf_iff_prefix.2 h]
  exact Scan.bind_of_zero hahead

theorem contents_of_undeclared {s : List Char} (h : ¬ "<?xml ".toList <+: s) (p : Place) :
    contents p s = many piece p s := by
  have hahead : ahead "<?xml " p s = some (false, 0) := by
    rw [ahead, Bool.eq_false_iff.2 (mt List.isPrefixOf_iff_prefix.1 h)]
  exact Scan.bind_of_zero hahead

theorem many_piece_eq_some_iff {p : Place} {s : List Char} {qs : List Piece} :
    many piece p s = some (qs, s.length) ↔ Pieces s qs :=
  ⟨fun h => pieces_of_many_go (Option.some.inj h), fun h => congrArg some (h.many_go p)⟩

theorem contents_eq_some_iff {p : Place} {s : List Char} {qs : List Piece} :
    contents p s = some (qs, s.length) ↔ ∃ prologue body, s = prologue ++ body ∧
    Prologue prologue body ∧ Pieces body qs := by
  by_cases hstart : "<?xml ".toList <+: s
  · rw [contents_of_declared hstart, Scan.bind_eq_some_iff]
    constructor
    · rintro ⟨_, n, m, hread, hmany, hlength⟩
      obtain ⟨r, rfl⟩ : ∃ r, s = '<' :: r := by
        obtain ⟨r, rfl⟩ := hstart
        exact ⟨"?xml ".toList ++ r, rfl⟩
      obtain ⟨taken, behind, rest, rfl, rfl, htag⟩ := blindTag_declaration.tagAt hread
      rw [drop_succ_cons, drop_left] at hmany
      have hm : m = (behind ++ rest).length := by
        rw [length_cons, length_append] at hlength
        omega
      exact ⟨'<' :: taken, behind ++ rest, rfl, .declared hstart htag,
        many_piece_eq_some_iff.1 (hm ▸ hmany)⟩
    · rintro ⟨prologue, body, rfl, hprologue, hbody⟩
      cases hprologue with
      | absent h => exact absurd hstart h
      | @declared taken behind rest _ hread =>
        refine ⟨(), taken.length + 1, (behind ++ rest).length, hread.read p rest hread.stop.same,
          ?_, ?_⟩
        · rw [cons_append, drop_succ_cons, drop_left]
          exact many_piece_eq_some_iff.2 hbody
        · simp
          omega
  · rw [contents_of_undeclared hstart, many_piece_eq_some_iff]
    constructor
    · intro hbody
      exact ⟨[], s, rfl, .absent hstart, hbody⟩
    · rintro ⟨prologue, body, rfl, hprologue, hbody⟩
      cases hprologue with
      | absent => exact hbody
      | declared h => exact absurd h hstart

theorem runAll_eq_some_iff {x : Scanner α} {s : List Char} {a : α} :
    x.runAll s = some a ↔ x (.start s) s = some (a, s.length) := by
  unfold runAll
  constructor
  · intro h
    split at h
    · split at h
      · rename_i hread hlength
        cases h
        rw [hread, hlength]
      · cases h
    · cases h
  · intro h
    rw [h]
    simp

theorem document_cons_mark (p : Place) (r : List Char) :
    document p ('\ufeff' :: r) = (contents (p.after ['\ufeff']) r).map fun (qs, m) =>
    (qs, 1 + m) := by
  have htext : Scanner.text "\ufeff" p ('\ufeff' :: r) = some ((), 1) :=
    (Takes.text _ _ _ _ _).2 ⟨['\ufeff'], r, rfl, rfl, rfl⟩
  have hoption : Scanner.option (Scanner.text "\ufeff") p ('\ufeff' :: r) = some (some (), 1) := by
    rw [Scanner.option, htext]
  exact Scan.bind_of_some hoption

theorem document_of_no_mark {s : List Char} (h : s.head? ≠ some '\ufeff') (p : Place) :
    document p s = contents p s := by
  have htext : Scanner.text "\ufeff" p s = none := by
    refine (Takes.text "\ufeff").eq_none (t := ['\ufeff']) ?_ ?_
    · rintro _ _ _ rfl
      exact prefix_refl _
    · rintro ⟨r, rfl⟩
      exact h rfl
  exact Scan.bind_of_zero (Scan.option_of_none htext)

theorem runAll_document_eq_some_iff {s : List Char} {qs : List Piece} :
    document.runAll s = some qs ↔ Document s qs := by
  rw [runAll_eq_some_iff]
  constructor
  · intro h
    by_cases hmark : s.head? = some '\ufeff'
    · obtain ⟨r, rfl⟩ := head?_eq_some_iff.1 hmark
      rw [document_cons_mark] at h
      obtain ⟨⟨_, m⟩, hcontents, heq⟩ := Option.map_eq_some_iff.1 h
      obtain ⟨rfl, hm⟩ := Prod.mk.inj heq
      rw [length_cons, Nat.add_comm, Nat.add_right_cancel_iff] at hm
      obtain ⟨prologue, body, rfl, hprologue, hbody⟩ := contents_eq_some_iff.1 (hm ▸ hcontents)
      exact .marked hprologue hbody
    · rw [document_of_no_mark hmark] at h
      obtain ⟨prologue, body, rfl, hprologue, hbody⟩ := contents_eq_some_iff.1 h
      exact .unmarked hmark hprologue hbody
  · intro h
    cases h with
    | marked hprologue hbody =>
      rw [document_cons_mark, contents_eq_some_iff.2 ⟨_, _, rfl, hprologue, hbody⟩,
        Option.map_some, length_cons, Nat.add_comm]
    | unmarked hmark hprologue hbody =>
      rw [document_of_no_mark hmark, contents_eq_some_iff.2 ⟨_, _, rfl, hprologue, hbody⟩]

end WitnessReplay.Xml
