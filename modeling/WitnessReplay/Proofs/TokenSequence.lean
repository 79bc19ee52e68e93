import WitnessReplay.Proofs.DelimiterScan

/-!
# Forests as sequences

Read from left to right, a text is a sequence of delimiters and of tokens without children,
with blanks and comments between them. `Lexicon.Reads` says which sequence a part of a text is,
given what follows it. A body is read to a forest exactly if its text is the sequence of that
forest; so where a part of a text is replaced, only the sequence of that part has to be
compared.
-/

namespace WitnessReplay.Source

open Text Lexicon List

/-- A part of a text as it is read from left to right, with its position: a delimiter, or a
token without children. -/
inductive Item where
  | opening (d : Delimiter) (start line : Nat)
  | closing (d : Delimiter) (stop : Nat)
  | leaf (t : Token)

def Item.unplaced : Item → Item
  | opening d _ _ => opening d 0 0
  | closing d _ => closing d 0
  | leaf t => leaf t.unplaced

namespace Token

mutual

def items : Token → List Item
  | group d children span line =>
    .opening d span.start line :: (itemsAll children ++ [.closing d span.stop])
  | word text span line => [.leaf (word text span line)]
  | literal text span line => [.leaf (literal text span line)]
  | symbol c span line => [.leaf (symbol c span line)]

def itemsAll : List Token → List Item
  | [] => []
  | t :: ts => t.items ++ itemsAll ts

end

theorem itemsAll_append (ts us : List Token) :
    itemsAll (ts ++ us) = itemsAll ts ++ itemsAll us := by
  induction ts with
  | nil => rfl
  | cons t ts ih => rw [cons_append, itemsAll, itemsAll, ih, append_assoc]

theorem itemsAll_singleton (t : Token) : itemsAll [t] = t.items :=
  append_nil _

theorem items_of_not_group {t : Token}
    (h : ∀ d children span line, t ≠ group d children span line) : t.items = [.leaf t] := by
  cases t with
  | group d children span line => exact absurd rfl (h d children span line)
  | _ => rfl

theorem itemsAll_eq_leaf_cons {ts : List Token} {t : Token} {more : List Item}
    (h : itemsAll ts = .leaf t :: more) :
    ∃ us, ts = t :: us ∧ itemsAll us = more := by
  cases ts with
  | nil => cases h
  | cons u us =>
    cases u with
    | group => cases h
    | _ =>
      obtain ⟨hleaf, rfl⟩ := List.cons.inj h
      cases hleaf
      exact ⟨us, rfl, rfl⟩

/-- Items that start with an opening delimiter are those of a forest that starts with a group. -/
theorem itemsAll_eq_opening_cons {ts : List Token} {d : Delimiter} {start line : Nat}
    {more : List Item} (h : itemsAll ts = .opening d start line :: more) :
    ∃ children stop us, ts = group d children ⟨start, stop⟩ line :: us ∧
      itemsAll children ++ .closing d stop :: itemsAll us = more := by
  cases ts with
  | nil => cases h
  | cons u us =>
    cases u with
    | group d' children span line' =>
      obtain ⟨hopening, hmore⟩ := List.cons.inj h
      cases hopening
      exact ⟨children, span.stop, us, rfl, by simpa using hmore⟩
    | _ => cases h

end Token

/-- What an item takes of a text that starts with it. -/
inductive Lexicon.Starts (L : Lexicon) (p : Place) : Item → List Char → List Char → Prop where
  | opening {d : Delimiter} {rest : List Char} :
      L.Starts p (.opening d p.offset p.line) [d.opening] rest
  | closing {d : Delimiter} {rest : List Char} :
      L.Starts p (.closing d (p.after [d.closing]).offset) [d.closing] rest
  | leaf {t : Token} {text rest : List Char} (hblanks : L.blanks (text ++ rest) = 0)
      (h : L.leaf p (text ++ rest) = some (t, text.length)) : L.Starts p (.leaf t) text rest

/-- The items of a text that stands at a place, in front of a rest. -/
inductive Lexicon.Reads (L : Lexicon) : Place → List Char → List Char → List Item → Prop where
  | nil {p : Place} {rest : List Char} : L.Reads p [] rest []
  | blank {p : Place} {c : Char} {s rest : List Char} {items : List Item} (hc : isBlank c = true)
      (h : L.Reads (p.after [c]) s rest items) : L.Reads p (c :: s) rest items
  | comment {p : Place} {x s rest : List Char} {items : List Item} (hx : L.IsComment x (s ++ rest))
      (h : L.Reads (p.after x) s rest items) : L.Reads p (x ++ s) rest items
  | item {p : Place} {i : Item} {text s rest : List Char} {items : List Item}
      (hi : L.Starts p i text (s ++ rest))
      (h : L.Reads (p.after text) s rest items) : L.Reads p (text ++ s) rest (i :: items)

variable {L : Lexicon} {p q : Place} {s s' text gap rest : List Char} {i j : Item}
    {items more : List Item} {t : Token}
  {d : Delimiter} {n : Nat}

namespace Lexicon

theorem Starts.blanks_eq (h : L.Starts p i text rest) : L.blanks (text ++ rest) = 0 := by
  cases h with
  | opening => exact Delimiter.blanks_opening _ L rest
  | closing => exact L.blanks_of_startsLeaf (Delimiter.startsLeaf_closing _) rest
  | leaf hblanks => exact hblanks

theorem Starts.eq_of_opening {start line : Nat} (h : L.Starts p (.opening d start line) text rest) :
    text = [d.opening] ∧ start = p.offset ∧ line = p.line := by
  cases h
  exact ⟨rfl, rfl, rfl⟩

theorem Starts.eq_of_closing {stop : Nat} (h : L.Starts p (.closing d stop) text rest) :
    text = [d.closing] ∧ stop = (p.after [d.closing]).offset := by
  cases h
  exact ⟨rfl, rfl⟩

theorem Starts.leaf_eq (h : L.Starts p (.leaf t) text rest) :
    L.leaf p (text ++ rest) = some (t, text.length) := by
  cases h with
  | leaf _ h => exact h

theorem Starts.ne_nil (hL : L.Lawful) (h : L.Starts p i text rest) : text ≠ [] := by
  cases h with
  | leaf _ hleaf => exact ne_nil_of_length_pos (hL.leaf_bounds hleaf).1
  | _ => simp

namespace Reads

theorem append (h : L.Reads p s (s' ++ rest) items) (h' : L.Reads (p.after s) s' rest more) :
    L.Reads p (s ++ s') rest (items ++ more) := by
  generalize hbehind : s' ++ rest = behind at h
  induction h with
  | nil =>
    rw [Place.after_nil] at h'
    exact h'
  | @blank p c s _ _ hc _ ih => exact .blank hc (ih (Place.after_append p [c] s ▸ h') hbehind)
  | comment hx _ ih =>
    subst hbehind
    rw [Place.after_append] at h'
    rw [append_assoc]
    exact .comment (by rwa [append_assoc]) (ih h' rfl)
  | item hi _ ih =>
    subst hbehind
    rw [Place.after_append] at h'
    rw [append_assoc]
    exact .item (by rwa [append_assoc]) (ih h' rfl)

theorem of_skips (h : L.Skips gap rest) (p : Place) : L.Reads p gap rest [] := by
  induction h generalizing p with
  | nil => exact .nil
  | blank hc _ ih => exact .blank hc (ih _)
  | comment hx _ ih => exact .comment hx (ih _)

theorem skips (h : L.Reads p gap rest []) : L.Skips gap rest := by
  generalize hitems : ([] : List Item) = items at h
  induction h with
  | nil => exact .nil
  | blank hc _ ih => exact .blank hc (ih hitems)
  | comment hx _ ih => exact .comment hx (ih hitems)
  | item => cases hitems

theorem exists_of_cons (h : L.Reads p s rest (i :: items)) :
    ∃ gap text after, s = gap ++ (text ++ after) ∧ L.Skips gap (text ++ (after ++ rest)) ∧
      L.Starts (p.after gap) i text (after ++ rest) ∧
      L.Reads (p.after (gap ++ text)) after rest items := by
  generalize hitems : i :: items = all at h
  induction h with
  | nil => cases hitems
  | @blank p c s rest _ hc _ ih =>
    obtain ⟨gap, text, after, rfl, hgap, hstarts, hrest⟩ := ih hitems
    rw [← Place.after_append] at hstarts hrest
    exact ⟨c :: gap, text, after, rfl, .blank hc (by simpa using hgap), hstarts, hrest⟩
  | @comment p x s rest _ hx _ ih =>
    obtain ⟨gap, text, after, rfl, hgap, hstarts, hrest⟩ := ih hitems
    rw [← Place.after_append] at hstarts hrest
    rw [← append_assoc] at hrest
    refine ⟨x ++ gap, text, after, by simp, .comment (by simpa using hx) hgap, hstarts, hrest⟩
  | @item p i' text s rest _ hi hrest ih =>
    cases hitems
    exact ⟨[], text, s, rfl, .nil, by rwa [Place.after_nil], hrest⟩

theorem exists_of_append (h : L.Reads p s rest (items ++ more)) :
    ∃ front back, s = front ++ back ∧ L.Reads p front (back ++ rest) items ∧
      L.Reads (p.after front) back rest more := by
  induction items generalizing p s with
  | nil => exact ⟨[], s, rfl, .nil, by rwa [Place.after_nil]⟩
  | cons i items ih =>
    obtain ⟨gap, text, after, rfl, hgap, hstarts, hrest⟩ := h.exists_of_cons
    obtain ⟨front, back, rfl, hfront, hback⟩ := ih hrest
    refine ⟨gap ++ (text ++ front), back, by simp, ?_, ?_⟩
    · refine (of_skips (by simpa using hgap) p).append (.item (by simpa using hstarts) ?_)
      rwa [← Place.after_append]
    · rwa [← append_assoc, Place.after_append]

theorem exists_at_item (h : L.Reads p s rest (items ++ i :: more)) :
    ∃ front text back, s = front ++ (text ++ back) ∧
      L.Reads p front (text ++ (back ++ rest)) items ∧
        L.Starts (p.after front) i text (back ++ rest) ∧
        L.Reads (p.after (front ++ text)) back rest more := by
  obtain ⟨front, behind, rfl, hfront, hbehind⟩ := h.exists_of_append
  obtain ⟨gap, text, back, rfl, hgap, hstarts, hback⟩ := hbehind.exists_of_cons
  rw [← Place.after_append] at hstarts hback
  rw [← append_assoc] at hback
  refine ⟨front ++ gap, text, back, by simp, ?_, hstarts, hback⟩
  rw [← append_nil items]
  exact Reads.append (by simpa using hfront) (.of_skips hgap _)

end Reads

end Lexicon

/-! ### Forests and their sequences -/

section Forests

variable {language : Language} {ts : List Token}

theorem ofOpening?_of_leaf {c : Char} {r : List Char}
    (h : (lexicon language).leaf p (c :: r) = some (t, n)) :
    Delimiter.ofOpening? c = none := by
  unfold leaf at h
  split at h
  · rename_i hliteral
    exact (startsLeaf_of_startsLiteral (startsLiteral_of_literal hliteral)).opening
  · rename_i hword
    exact (startsLeaf_of_startsWord (startsWord_of_word hword)).opening
  · rename_i hsymbol _
    exact ofOpening?_of_symbol hsymbol
  · cases h

theorem token_of_leaf (h : (lexicon language).leaf p s = some (t, n)) :
    (lexicon language).token p s = some (t, n) := by
  cases s with
  | nil =>
    have hbounds := (lawful_lexicon language).leaf_bounds h
    exact absurd hbounds.1 (Nat.not_lt.2 hbounds.2)
  | cons c r => rw [token_of_not_opening (ofOpening?_of_leaf h), h]

theorem items_of_leaf (h : L.leaf p s = some (t, n)) : t.items = [.leaf t] := by
  refine Token.items_of_not_group fun d children span line heq => ?_
  unfold leaf at h
  subst heq
  split at h <;> cases h

/-- A forest is all of a text in front of a rest, but for blanks and comments behind the forest. -/
def ForestOf (L : Lexicon) (p : Place) (s rest : List Char) (ts : List Token) : Prop :=
  ∃ front gap, s = front ++ gap ∧ L.forest p (s ++ rest) = (ts, front.length) ∧ L.Skips gap rest

theorem ForestOf.cons {after : List Char} (hgap : L.Skips gap (text ++ (after ++ rest)))
    (hblanks : L.blanks (text ++ (after ++ rest)) = 0)
    (htoken : L.token (p.after gap) (text ++ (after ++ rest)) = some (t, text.length))
    (hne : text ≠ []) (h : ForestOf L (p.after (gap ++ text)) after rest ts) :
    ForestOf L p (gap ++ (text ++ after)) rest (t :: ts) := by
  obtain ⟨front, back, rfl, hforest, hback⟩ := h
  have hsplit : gap ++ (text ++ (front ++ back)) ++ rest =
      gap ++ (text ++ (front ++ back ++ rest)) := by simp
  refine ⟨gap ++ text ++ front, back, by simp, ?_, hback⟩
  rw [hsplit, forest_of_some (blanks_of_skips hgap hblanks) htoken hne, hforest]
  simp only [length_append]

theorem Closes.closing (d : Delimiter) (r : List Char) : Closes (d.closing :: r) := by
  rintro c ⟨⟩
  exact ⟨d, rfl⟩

theorem token_of_forestOf {children : List Token} {inside : List Char}
    (h : ForestOf (lexicon language) (p.after [d.opening]) inside (d.closing :: rest) children) :
    (lexicon language).token p (d.opening :: (inside ++ d.closing :: rest)) =
      some (.group d children (Span.of p (d.opening :: (inside ++ [d.closing]))) p.line,
      inside.length + 2) := by
  obtain ⟨read, gap, rfl, hread, hgap⟩ := h
  refine token_opening_eq_some_iff.2 ⟨children, read.length, (read ++ gap).length, hread,
    ?_, ?_, rfl, ?_⟩
  · rw [append_assoc, drop_left, blanks_of_skips hgap
      ((lexicon language).blanks_of_startsLeaf d.startsLeaf_closing _), length_append]
  · rw [drop_left]
    rfl
  · rw [take_length_add_append]
    rfl

theorem token_of_reads {children : List Token} {stop : Nat}
    (hforest : ∀ {p s rest}, Closes rest →
    (lexicon language).Reads p s rest (Token.itemsAll children) →
      ForestOf (lexicon language) p s rest children)
    (h : (lexicon language).Reads (p.after [d.opening]) s rest
    (Token.itemsAll children ++ .closing d stop :: more)) :
    ∃ inside after, s = inside ++ d.closing :: after ∧
      (lexicon language).token p (d.opening :: (s ++ rest)) =
        some (.group d children ⟨p.offset, stop⟩ p.line, inside.length + 2) ∧
      (lexicon language).Reads (p.after (d.opening :: (inside ++ [d.closing]))) after rest
      more := by
  obtain ⟨front, back, rfl, hfront, hback⟩ := h.exists_of_append
  obtain ⟨gap, text, after, rfl, hgap, hstarts, hafter⟩ := hback.exists_of_cons
  obtain ⟨rfl, rfl⟩ := hstarts.eq_of_closing
  have hinside : (lexicon language).Reads (p.after [d.opening]) (front ++ gap)
      (d.closing :: (after ++ rest))
        (Token.itemsAll children) := by
    simpa using Lexicon.Reads.append (by simpa using hfront) (.of_skips hgap _)
  have htext : front ++ (gap ++ ([d.closing] ++ after)) ++ rest =
      front ++ gap ++ d.closing :: (after ++ rest) := by simp
  refine ⟨front ++ gap, after, by simp, ?_, ?_⟩
  · rw [htext, token_of_forestOf (hforest (.closing d _) hinside)]
    simp [Span.of, ← Place.after_append]
  · simpa [← Place.after_append] using hafter

/-- The items of a forest that is followed by a closing delimiter, or by nothing, are read to
that forest. -/
theorem forest_of_reads (ts : List Token) {p : Place} {s rest : List Char} (hrest : Closes rest)
    (h : (lexicon language).Reads p s rest (Token.itemsAll ts)) :
    ForestOf (lexicon language) p s rest ts := by
  match ts, h with
  | [], h =>
    obtain ⟨hblanks, htoken⟩ := hrest.reads language (p.after s)
    have hskips := h.skips
    exact ⟨[], s, rfl, forest_of_none (blanks_of_skips hskips hblanks) htoken, hskips⟩
  | t :: ts, h =>
    rw [Token.itemsAll] at h
    by_cases hgroup : ∃ d children span line, t = .group d children span line
    · obtain ⟨d, children, ⟨start, stop⟩, line, rfl⟩ := hgroup
      rw [Token.items, cons_append, append_assoc] at h
      obtain ⟨gap, text, after, rfl, hgap, hstarts, hafter⟩ := h.exists_of_cons
      have hblanks := hstarts.blanks_eq
      obtain ⟨rfl, rfl, rfl⟩ := hstarts.eq_of_opening
      rw [Place.after_append] at hafter
      obtain ⟨inside, behind, rfl, htoken, hbehind⟩ :=
        token_of_reads (forest_of_reads children) hafter
      rw [← Place.after_append] at hbehind
      have htext : [d.opening] ++ (inside ++ d.closing :: behind) =
          d.opening :: (inside ++ [d.closing]) ++ behind := by simp
      rw [htext]
      exact .cons (by simpa using hgap) (by simpa using hblanks) (by simpa using htoken) (by simp)
        (forest_of_reads ts hrest hbehind)
    · have hitems : t.items = [.leaf t] := Token.items_of_not_group (by simpa using hgroup)
      rw [hitems, singleton_append] at h
      obtain ⟨gap, text, after, rfl, hgap, hstarts, hafter⟩ := h.exists_of_cons
      exact .cons hgap hstarts.blanks_eq (token_of_leaf hstarts.leaf_eq)
        (hstarts.ne_nil (lawful_lexicon language))
        (forest_of_reads ts hrest hafter)
termination_by sizeOf ts

theorem reads_group {children : List Token}
    (h : L.Reads (p.after [d.opening]) s (d.closing :: rest) (Token.itemsAll children)) :
    L.Reads p (d.opening :: (s ++ [d.closing])) rest
      (Token.group d children (Span.of p (d.opening :: (s ++ [d.closing]))) p.line).items := by
  have hclosing : L.Reads ((p.after [d.opening]).after s) [d.closing] rest
      [.closing d (p.after (d.opening :: (s ++ [d.closing]))).offset] := by
    have hplace : p.after (d.opening :: (s ++ [d.closing])) =
        ((p.after [d.opening]).after s).after [d.closing] := by
      simp [← Place.after_append]
    rw [hplace]
    exact .item .closing .nil
  exact .item .opening (h.append hclosing)

/-- The items of a forest that is at the start of a text are read from it. -/
def ReadsForest (language : Language) (p : Place) (s : List Char) : Prop :=
  ∃ text after, s = text ++ after ∧ ((lexicon language).forest p s).2 = text.length ∧
    (lexicon language).Reads p text after (Token.itemsAll ((lexicon language).forest p s).1)

theorem exists_inside {r : List Char} (hforest : ReadsForest language (p.after [d.opening]) r)
    (h : (lexicon language).token p (d.opening :: r) = some (t, n)) :
    ∃ inside after children, r = inside ++ d.closing :: after ∧ n = inside.length + 2 ∧
      t = .group d children (Span.of p (d.opening :: (inside ++ [d.closing]))) p.line ∧
      (lexicon language).Reads (p.after [d.opening]) inside (d.closing :: after)
      (Token.itemsAll children) := by
  obtain ⟨children, m, k, hinside, hk, hclosing, rfl, rfl⟩ := token_opening_eq_some_iff.1 h
  obtain ⟨inside, behind, rfl, hm, hreads⟩ := hforest
  rw [hinside] at hm hreads
  obtain rfl : m = inside.length := hm
  obtain ⟨gap, rest, rfl, hgap, hskips⟩ := (lawful_lexicon language).skips_blanks behind
  obtain rfl : (inside ++ gap).length = k := by simpa [hgap] using hk
  rw [← append_assoc, drop_left] at hclosing
  obtain ⟨after, rfl⟩ := head?_eq_some_iff.1 hclosing
  have hchildren := hreads.append (.of_skips hskips _)
  rw [append_nil] at hchildren
  refine ⟨inside ++ gap, after, children, by simp, rfl, ?_, hchildren⟩
  rw [← append_assoc, take_length_add_append]
  rfl

/-- The items of a token that is at the start of a text are read from it. -/
def ReadsToken (language : Language) (p : Place) (s : List Char) : Prop :=
  ∀ t n, (lexicon language).token p s = some (t, n) →
    ∃ text after, s = text ++ after ∧ n = text.length ∧ text ≠ [] ∧
      (lexicon language).Reads p text after t.items

theorem readsToken_leaf {c : Char} {r : List Char}
    (hblanks : (lexicon language).blanks (c :: r) = 0)
    (hc : Delimiter.ofOpening? c = none) : ReadsToken language p (c :: r) := by
  intro t n h
  rw [token_of_not_opening hc] at h
  have hbounds := (lawful_lexicon language).leaf_bounds h
  have hlength : ((c :: r).take n).length = n := length_take_of_le hbounds.2
  refine ⟨(c :: r).take n, (c :: r).drop n, (take_append_drop n _).symm, hlength.symm, ?_, ?_⟩
  · exact ne_nil_of_length_pos (hlength.symm ▸ hbounds.1)
  · rw [items_of_leaf h, ← append_nil ((c :: r).take n)]
    refine .item (.leaf ?_ ?_) .nil
    · simpa using hblanks
    · simpa [hlength] using h

theorem reads_tokens (language : Language) :
    (∀ p s, (lexicon language).blanks s = 0 → ReadsToken language p s) ∧
    ∀ p s, ReadsForest language p s := by
  refine (lawful_lexicon language).forest_induction ?_ ?_ ?_ ?_ ?_
  · intro p t n h
    rw [token] at h
    cases h
  · exact fun p c r hblanks hc => readsToken_leaf hblanks hc
  · intro p d r hforest t n h
    obtain ⟨inside, after, children, rfl, rfl, rfl, hchildren⟩ := exists_inside hforest h
    exact ⟨d.opening :: (inside ++ [d.closing]), after, by simp, by simp,
      by simp, reads_group hchildren⟩
  · intro p gap rest hgap hlength htoken _
    rw [ReadsForest, forest_of_none hlength htoken]
    exact ⟨[], gap ++ rest, rfl, rfl, .nil⟩
  · rintro p gap text after t hgap hlength htoken hne hfirst ⟨more, behind, rfl, hmore, hafter⟩
    obtain ⟨text', after', hsplit, hlength', -, hreads⟩ := hfirst t text.length htoken
    obtain ⟨rfl, rfl⟩ := append_inj hsplit hlength'
    rw [ReadsForest, forest_of_some hlength htoken hne]
    refine ⟨gap ++ (text ++ more), behind, by simp, by simp [hmore]; omega, ?_⟩
    refine (Lexicon.Reads.of_skips (by simpa using hgap) p).append (hreads.append ?_)
    rwa [← Place.after_append]

theorem forest_skips (language : Language) (h : (lexicon language).Skips gap rest) (p : Place) :
    ((lexicon language).forest p (gap ++ rest)).1 =
      ((lexicon language).forest (p.after gap) rest).1 := by
  obtain ⟨more, text, rfl, hmore, hskips⟩ := (lawful_lexicon language).skips_blanks rest
  have hall : (lexicon language).blanks (gap ++ more ++ text) = (gap ++ more).length := by
    rw [append_assoc, blanks_append_of_skips h, hmore, length_append]
  have hblanks : (lexicon language).blanks text = 0 := by
    rw [blanks_append_of_skips hskips] at hmore
    omega
  rw [← append_assoc]
  cases htoken : (lexicon language).token (p.after (gap ++ more)) text with
  | none => rw [forest_of_none hall htoken, forest_of_none hmore (by rwa [← Place.after_append])]
  | some found =>
    obtain ⟨t, n⟩ := found
    obtain ⟨taken, behind, rfl, rfl, hne, -⟩ := (reads_tokens language).1 _ _ hblanks _ _ htoken
    rw [forest_of_some hall htoken hne, forest_of_some hmore (by rwa [← Place.after_append]) hne]
    simp only [← Place.after_append, append_assoc]

/-- **Forests as sequences.** A body is read to a forest exactly if its text is the sequence of
the forest's items. -/
theorem body?_eq_some_iff : body? (lexicon language) p s = some ts ↔ (lexicon language).Reads p s
    [] (Token.itemsAll ts) := by
  constructor
  · intro h
    obtain ⟨text, after, rfl, hlength, hreads⟩ := (reads_tokens language).2 p s
    unfold body? at h
    rcases hforest : (lexicon language).forest p (text ++ after) with ⟨found, m⟩
    rw [hforest] at h hlength hreads
    obtain rfl : m = text.length := hlength
    simp only [drop_left] at h
    split at h
    · rename_i hblanks
      cases h
      obtain ⟨gap, rest, rfl, hgap, hskips⟩ := (lawful_lexicon language).skips_blanks after
      obtain rfl : rest = [] := by simpa using hgap.symm.trans hblanks
      rw [append_nil] at hreads ⊢
      simpa using Lexicon.Reads.append (by simpa using hreads) (.of_skips hskips _)
    · cases h
  · intro h
    obtain ⟨front, gap, rfl, hforest, hgap⟩ := forest_of_reads ts (by simp [Closes]) h
    have hblanks : (lexicon language).blanks gap = gap.length := by
      simpa using blanks_of_skips hgap (by rw [blanks])
    rw [append_nil] at hforest
    simp only [body?, hforest, drop_left, hblanks, if_true]

/-! ### Sequences are unique, and do not depend on places -/

theorem Delimiter.opening_injective {d d' : Delimiter} (h : d.opening = d'.opening) : d = d' := by
  have hd := ofOpening?_eq_some_iff.2 h
  rw [ofOpening?_eq_some_iff.2 rfl] at hd
  exact Option.some.inj hd

theorem Delimiter.closing_injective {d d' : Delimiter} (h : d.closing = d'.closing) : d = d' := by
  have hd := ofClosing?_eq_some_iff.2 h
  rw [ofClosing?_eq_some_iff.2 rfl] at hd
  exact Option.some.inj hd

theorem Delimiter.opening_ne_closing (d d' : Delimiter) : d.opening ≠ d'.closing := by
  cases d <;> cases d' <;> decide

theorem leaf_opening (d : Delimiter) (p : Place) (r : List Char) :
    (lexicon language).leaf p (d.opening :: r) = none := by
  cases hleaf : (lexicon language).leaf p (d.opening :: r) with
  | none => rfl
  | some found =>
    cases (Delimiter.ofOpening?_eq_some_iff.2 rfl).symm.trans (ofOpening?_of_leaf hleaf)

theorem starts_unique {text' after after' : List Char} (htext : text ++ after = text' ++ after')
    (h : (lexicon language).Starts p i text after)
    (h' : (lexicon language).Starts p j text' after') : text = text' ∧ i = j := by
  cases h with
  | @opening d =>
    cases h' with
    | opening =>
      obtain rfl := Delimiter.opening_injective (List.cons.inj htext).1
      exact ⟨rfl, rfl⟩
    | @closing d' => exact absurd (List.cons.inj htext).1 (d.opening_ne_closing d')
    | leaf _ hleaf =>
      rw [← htext] at hleaf
      cases (leaf_opening d p after).symm.trans hleaf
  | @closing d =>
    cases h' with
    | @opening d' => exact absurd (List.cons.inj htext).1.symm (d'.opening_ne_closing d)
    | closing =>
      obtain rfl := Delimiter.closing_injective (List.cons.inj htext).1
      exact ⟨rfl, rfl⟩
    | leaf _ hleaf =>
      rw [← htext] at hleaf
      cases (leaf_closing d p after).symm.trans hleaf
  | leaf _ hleaf =>
    rw [htext] at hleaf
    cases h' with
    | @opening d => cases (leaf_opening d p after').symm.trans hleaf
    | @closing d => cases (leaf_closing d p after').symm.trans hleaf
    | leaf _ hleaf' =>
      obtain ⟨rfl, hlength⟩ := Prod.mk.inj (Option.some.inj (hleaf.symm.trans hleaf'))
      exact ⟨(append_inj htext hlength).1, rfl⟩

theorem blanks_of_reads_cons (h : (lexicon language).Reads p s rest (i :: items)) :
    (lexicon language).blanks (s ++ rest) < s.length := by
  obtain ⟨gap, text, after, rfl, hgap, hstarts, -⟩ := h.exists_of_cons
  have hpos := length_pos_iff.2 (hstarts.ne_nil (lawful_lexicon language))
  have hblanks := blanks_of_skips hgap hstarts.blanks_eq
  have htext : gap ++ (text ++ after) ++ rest = gap ++ (text ++ (after ++ rest)) := by simp
  rw [htext, hblanks]
  simp only [length_append]
  omega

theorem ne_nil_of_reads (h : (lexicon language).Reads p s rest items) (hi : i ∈ items) :
    s ≠ [] := by
  rintro rfl
  cases items with
  | nil => cases hi
  | cons j items => exact absurd (blanks_of_reads_cons h) (Nat.not_lt_zero _)

theorem le_blanks_of_skips (h : L.Skips s rest) : s.length ≤ L.blanks (s ++ rest) := by
  rw [blanks_append_of_skips h]
  exact Nat.le_add_right _ _

theorem reads_item_iff (hgap : (lexicon language).Skips gap (text ++ (s ++ rest)))
    (hi : (lexicon language).Starts (p.after gap) i text (s ++ rest)) :
    (lexicon language).Reads p (gap ++ (text ++ s)) rest items ↔
      ∃ more, items = i :: more ∧ (lexicon language).Reads (p.after (gap ++ text)) s rest more := by
  constructor
  · intro h
    have hwhole : gap ++ (text ++ s) ++ rest = gap ++ (text ++ (s ++ rest)) := by simp
    have hblanks := blanks_of_skips hgap hi.blanks_eq
    cases items with
    | nil =>
      have hlength := le_blanks_of_skips h.skips
      have hpos := length_pos_iff.2 (hi.ne_nil (lawful_lexicon language))
      rw [hwhole, hblanks] at hlength
      simp only [length_append] at hlength
      omega
    | cons j more =>
      obtain ⟨gap', text', after, hsplit, hgap', hstarts, hafter⟩ := h.exists_of_cons
      have hblanks' := blanks_of_skips hgap' hstarts.blanks_eq
      have hsame : gap ++ (text ++ (s ++ rest)) = gap' ++ (text' ++ (after ++ rest)) := by
        simpa using congrArg (· ++ rest) hsplit
      rw [← hsame, hblanks] at hblanks'
      obtain ⟨rfl, htext⟩ := append_inj hsame hblanks'
      obtain ⟨rfl, rfl⟩ := starts_unique htext hi hstarts
      obtain rfl : s = after := by simpa using hsplit
      exact ⟨more, rfl, hafter⟩
  · rintro ⟨more, rfl, h⟩
    rw [Place.after_append] at h
    exact Lexicon.Reads.append (by simpa using Lexicon.Reads.of_skips hgap p) (.item hi h)

theorem reads_unique (h : (lexicon language).Reads p s rest items)
    (h' : (lexicon language).Reads p s rest more) :
    items = more := by
  induction items generalizing p s more with
  | nil =>
    cases more with
    | nil => rfl
    | cons j more =>
      exact absurd (le_blanks_of_skips h.skips) (Nat.not_le.2 (blanks_of_reads_cons h'))
  | cons i items ih =>
    obtain ⟨gap, text, after, rfl, hgap, hstarts, hafter⟩ := h.exists_of_cons
    obtain ⟨more, rfl, hafter'⟩ := (reads_item_iff hgap hstarts).1 h'
    rw [ih hafter hafter']

theorem leaf_at (h : L.leaf p s = some (t, n)) (q : Place) :
    ∃ t', L.leaf q s = some (t', n) ∧ t'.unplaced = t.unplaced := by
  unfold leaf at h ⊢
  split at h
  · cases h
    exact ⟨_, rfl, rfl⟩
  · cases h
    exact ⟨_, rfl, rfl⟩
  · cases h
    exact ⟨_, rfl, rfl⟩
  · cases h

theorem Lexicon.Reads.exists_at (h : L.Reads p s rest items) (q : Place) :
    ∃ moved, L.Reads q s rest moved ∧ moved.map Item.unplaced = items.map Item.unplaced := by
  induction h generalizing q with
  | nil => exact ⟨[], .nil, rfl⟩
  | @blank _ c _ _ _ hc _ ih =>
    obtain ⟨moved, hmoved, heq⟩ := ih (q.after [c])
    exact ⟨moved, .blank hc hmoved, heq⟩
  | @comment _ x _ _ _ hx _ ih =>
    obtain ⟨moved, hmoved, heq⟩ := ih (q.after x)
    exact ⟨moved, .comment hx hmoved, heq⟩
  | @item _ i text _ _ _ hi _ ih =>
    obtain ⟨moved, hmoved, heq⟩ := ih (q.after text)
    cases hi with
    | opening => exact ⟨_, .item .opening hmoved, by rw [map_cons, map_cons, heq]; rfl⟩
    | closing => exact ⟨_, .item .closing hmoved, by rw [map_cons, map_cons, heq]; rfl⟩
    | leaf hblanks hleaf =>
      obtain ⟨t', hleaf', ht'⟩ := leaf_at hleaf q
      exact ⟨_, .item (.leaf hblanks hleaf') hmoved, by
        rw [map_cons, map_cons, heq, Item.unplaced, ht']; rfl⟩

/-- Items that differ from those of a forest in their positions only are the items of a forest
that differs from it in positions only. -/
theorem exists_forest (ts : List Token) {moved : List Item}
    (h : moved.map Item.unplaced = (Token.itemsAll ts).map Item.unplaced) :
    ∃ us, Token.itemsAll us = moved ∧ us.map Token.unplaced = ts.map Token.unplaced := by
  match ts, h with
  | [], h =>
    obtain rfl := map_eq_nil_iff.1 h
    exact ⟨[], rfl, rfl⟩
  | t :: ts, h =>
    rw [Token.itemsAll, map_append] at h
    obtain ⟨front, back, rfl, hfront, hback⟩ := map_eq_append_iff.1 h
    obtain ⟨us, rfl, hus⟩ := exists_forest ts hback
    by_cases hgroup : ∃ d children span line, t = .group d children span line
    · obtain ⟨d, children, span, line, rfl⟩ := hgroup
      rw [Token.items, map_cons, map_append] at hfront
      obtain ⟨o, behind, rfl, ho, hbehind⟩ := map_eq_cons_iff.1 hfront
      obtain ⟨inside, last, rfl, hinside, hlast⟩ := map_eq_append_iff.1 hbehind
      obtain ⟨c, nothing, rfl, hc, hnil⟩ := map_eq_cons_iff.1 hlast
      obtain rfl := map_eq_nil_iff.1 hnil
      obtain ⟨children', rfl, hchildren'⟩ := exists_forest children hinside
      cases o with
      | opening d' start line' =>
        cases ho
        cases c with
        | closing d' stop =>
          cases hc
          exact ⟨.group d children' ⟨start, stop⟩ line' :: us, rfl, by
            rw [map_cons, map_cons, hus, Token.unplaced_group, Token.unplaced_group, hchildren']⟩
        | _ => cases hc
      | _ => cases ho
    · rw [Token.items_of_not_group (by simpa using hgroup)] at hfront
      obtain ⟨o, nothing, rfl, ho, hnil⟩ := map_eq_cons_iff.1 hfront
      obtain rfl := map_eq_nil_iff.1 hnil
      cases o with
      | leaf t' =>
        have ht : t'.unplaced = t.unplaced := Item.leaf.inj ho
        refine ⟨t' :: us, ?_, by rw [map_cons, map_cons, hus, ht]⟩
        rw [Token.itemsAll, Token.items_of_not_group]
        rintro d children span line rfl
        rw [Token.unplaced_group] at ht
        cases t with
        | group d' children' span' line' => exact hgroup ⟨_, _, _, _, rfl⟩
        | _ => cases ht
      | _ => cases ho
termination_by sizeOf ts

end Forests

end WitnessReplay.Source
