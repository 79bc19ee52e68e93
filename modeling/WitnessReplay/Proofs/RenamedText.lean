import WitnessReplay.Proofs.EntryPointRenaming
import WitnessReplay.Proofs.RenamedFunctions
import WitnessReplay.Proofs.UnchangedHeader

/-!
# The texts of the entry point

How the name and the parameter list of the entry point are written, and how what is put in
their place is read: the name `main`, maybe between backticks, and a list without parameters
are interchangeable with the new ones, as long as no name goes on with the new name.
-/

namespace WitnessReplay.Benchmark

open Text Source List

section Leaves

variable {p : Place} {text rest : List Char} {span : Span} {line : Nat}

theorem word_of_starts {k : String}
    (h : Lexicon.kotlin.Starts p (.leaf (.word k span line)) text rest) :
    Lexicon.bareName text = k ∧ (∃ name, Encloses text name) ∧ span = Span.of p text := by
  have hleaf := h.leaf_eq
  unfold Lexicon.leaf at hleaf
  split at hleaf
  · cases hleaf
  next hword =>
    obtain ⟨htoken, hn⟩ := Prod.mk.inj (Option.some.inj hleaf)
    subst hn
    have hencloses := (Kotlin.encloses_word hword).2.2
    rw [take_left] at htoken hencloses
    cases htoken
    exact ⟨rfl, hencloses, rfl⟩
  · cases hleaf
  · cases hleaf

theorem eq_of_starts_main (h : Lexicon.kotlin.Starts p (.leaf (.word "main" span line)) text rest) :
    text = "main".toList ∨ text = '\x60' :: "main".toList ++ ['\x60'] := by
  obtain ⟨hbare, ⟨name, hname⟩, -⟩ := word_of_starts h
  rw [bareName_of_encloses hname] at hbare
  have hmain : name = "main".toList := by rw [← hbare, String.toList_ofList]
  subst hmain
  cases hname with
  | plain => exact .inl rfl
  | quoted => exact .inr rfl

theorem eq_of_starts_symbol {c : Char}
    (h : Lexicon.kotlin.Starts p (.leaf (.symbol c span line)) text rest) : text = [c] := by
  have hleaf := h.leaf_eq
  unfold Lexicon.leaf at hleaf
  split at hleaf
  · cases hleaf
  · cases hleaf
  next hsymbol heq =>
    obtain ⟨htoken, hn⟩ := Prod.mk.inj (Option.some.inj hleaf)
    obtain ⟨h1, -⟩ := symbol_eq_some hsymbol
    cases htoken
    obtain ⟨d, rfl⟩ := length_eq_one_iff.1 (hn.symm.trans h1)
    rw [(List.cons.inj heq).1]
  · cases hleaf

end Leaves

theorem forall_head?_of_cons {P : Char → Prop} {c : Char} (hc : P c) (r : List Char) :
    ∀ d ∈ (c :: r).head?, P d := by
  rintro d ⟨⟩
  exact hc

/-! ### The name -/

/-- The new name may stand in the place of the old one, unless it would go on with a name that
ends right in front of backticks. -/
theorem interchangeable_name {name a : List Char}
    (hname : name = "main".toList ∨ name = '\x60' :: "main".toList ++ ['\x60'])
    (ha : name.head? = some '\x60' → ∀ c ∈ a.getLast?, isIdentifierContinue c = false ∧
    c ≠ '\x60') :
    Interchangeable a name renamedMain.toList := by
  have hneutral : NeutralText renamedMain.toList := ⟨by decide, all_eq_true.1 (by decide)⟩
  have hnew : ∀ c ∈ renamedMain.toList.head?, isBlank c = false ∧ c ≠ '.' ∧ c.isDigit = false :=
    forall_head?_of_cons (by decide) "olywit_main".toList
  obtain rfl | rfl := hname
  · have hold : ∀ c ∈ "main".toList.head?, isBlank c = false ∧ c ≠ '.' ∧ c.isDigit = false :=
      forall_head?_of_cons (by decide) "ain".toList
    have hletter : ∀ c ∈ "main".toList.head?, c.isAlphanum = true :=
      forall_head?_of_cons (by decide) "ain".toList
    exact ⟨⟨by decide, all_eq_true.1 (by decide)⟩, hneutral, Or.rec (hold _) (hnew _), by
      decide, .inl ⟨by decide, .inr hletter⟩⟩
  · have hold : ∀ c ∈ ('\x60' :: "main".toList ++ ['\x60']).head?, isBlank c = false ∧ c ≠ '.' ∧
        c.isDigit = false :=
      forall_head?_of_cons (by decide) ("main".toList ++ ['\x60'])
    exact ⟨⟨by decide, all_eq_true.1 (by decide)⟩, hneutral, Or.rec (hold _) (hnew _), by
      decide, .inr ⟨rfl, ha rfl⟩⟩

/-! ### The parameter list -/

/-- Between the parentheses of a list without parameters and without comments there are commas
and blanks. -/
theorem forall_comma_or_blank {children : List Token}
    (hcommas : ∀ t ∈ children, t.isSymbol ',' = true) {p : Place} {s rest : List Char}
    (h : Lexicon.kotlin.Reads p s rest (Token.itemsAll children))
    (hslash : '/' ∉ s) : ∀ c ∈ s, c = ',' ∨ isBlank c = true := by
  generalize hitems : Token.itemsAll children = items at h
  induction h generalizing children with
  | nil => exact fun c hc => absurd hc not_mem_nil
  | blank hc _ ih =>
    exact forall_mem_cons.2 ⟨.inr hc, ih hcommas (not_mem_of_not_mem_cons hslash) hitems⟩
  | @comment _ x _ _ _ hx =>
    have hmem : '/' ∈ x := by
      cases hx with
      | line => exact mem_cons_self
      | block => exact mem_cons_self
    exact absurd (mem_append_left _ hmem) hslash
  | item hi _ ih =>
    cases children with
    | nil => cases hitems
    | cons t children =>
      obtain ⟨ht, hchildren⟩ := forall_mem_cons.1 hcommas
      cases t with
      | symbol c span line =>
        obtain ⟨rfl, hrest⟩ := List.cons.inj hitems
        obtain rfl := eq_of_starts_symbol hi
        obtain rfl : c = ',' := by simpa [Token.isSymbol] using ht
        exact forall_mem_cons.2 ⟨.inl rfl, ih hchildren (not_mem_of_not_mem_cons hslash) hrest⟩
      | _ => cases ht

theorem interchangeable_params {inside : List Char} (h : ∀ c ∈ inside, c = ',' ∨ isBlank c = true)
    (hline : '\n' ∉ inside)
    (a : List Char) : Interchangeable a ('(' :: (inside ++ [')'])) mainParameters.toList := by
  have hinside : ∀ c ∈ '(' :: (inside ++ [')']), isNeutral c = true ∧ c ≠ '\x60' := by
    have hblank {c : Char} (hc : isBlank c = true) (hne : c ≠ '\n') : isNeutral c = true ∧
        c ≠ '\x60' := by
      rw [isNeutral_iff]
      refine ⟨⟨hne, ?_, ?_, ?_, ?_, ?_, ?_, ?_, ?_⟩,
        ?_⟩ <;> (rintro rfl; exact absurd hc (by decide))
    intro c hc
    rw [mem_cons, mem_append, mem_singleton] at hc
    obtain rfl | hc | rfl := hc
    · decide
    · obtain rfl | hc' := h c hc
      · decide
      · exact hblank hc' fun heq => hline (heq ▸ hc)
    · decide
  have hparenthesis (r : List Char) : ∀ c ∈ ('(' :: r).head?, isBlank c = false ∧ c ≠ '.' ∧
      c.isDigit = false :=
    forall_head?_of_cons (by decide) r
  have hnew : ∀ c ∈ mainParameters.toList.head?, isIdentifierContinue c = false :=
    forall_head?_of_cons (by decide) "args: Array<String>)".toList
  exact ⟨⟨cons_ne_nil _ _, fun c hc => (hinside c hc).1⟩, ⟨by decide, all_eq_true.1 (by decide)⟩,
    Or.rec (hparenthesis _ _) (hparenthesis _ _), by
    decide, .inl ⟨fun hc => (hinside _ hc).2 rfl, .inl hnew⟩⟩

/-! ### Texts whose place does not matter -/

/-- Wherever it stands, a text in front of a rest has these items, but for their places. -/
def ReadsAs (s rest : List Char) (items : List Item) : Prop :=
  ∀ p, ∃ moved, Lexicon.kotlin.Reads p s rest moved ∧
    moved.map Item.unplaced = items.map Item.unplaced

namespace ReadsAs

variable {s s' rest : List Char} {items more : List Item}

theorem of_reads {p : Place} (h : Lexicon.kotlin.Reads p s rest items) : ReadsAs s rest items :=
  h.exists_at

/-- At a place, such a text completes what is in front of it to a forest that differs in places
only. -/
theorem exists_forest {ts : List Token} (h : ReadsAs s [] more)
    (hts : Token.itemsAll ts = items ++ more) (p : Place) :
    ∃ us moved, Token.itemsAll us = items ++ moved ∧ Lexicon.kotlin.Reads p s [] moved ∧
      us.map Token.unplaced = ts.map Token.unplaced := by
  obtain ⟨moved, hmoved, hplaces⟩ := h p
  have hitems : (items ++ moved).map Item.unplaced = (Token.itemsAll ts).map Item.unplaced := by
    rw [hts, map_append, map_append, hplaces]
  obtain ⟨us, hus, hsame⟩ := Source.exists_forest ts hitems
  exact ⟨us, moved, hus, hmoved, hsame⟩

theorem nil (rest : List Char) : ReadsAs [] rest [] :=
  fun _ => ⟨[], .nil, rfl⟩

theorem blank {c : Char} (hc : isBlank c = true) (h : ReadsAs s rest items) :
    ReadsAs (c :: s) rest items := by
  intro p
  obtain ⟨moved, hreads, hmoved⟩ := h (p.after [c])
  exact ⟨moved, .blank hc hreads, hmoved⟩

theorem item {i : Item} {text : List Char}
    (hi : ∀ p, ∃ j, Lexicon.kotlin.Starts p j text (s ++ rest) ∧ j.unplaced = i.unplaced)
    (h : ReadsAs s rest items) : ReadsAs (text ++ s) rest (i :: items) := by
  intro p
  obtain ⟨j, hstarts, hj⟩ := hi p
  obtain ⟨moved, hreads, hmoved⟩ := h (p.after text)
  exact ⟨j :: moved, .item hstarts hreads, by rw [map_cons, map_cons, hj, hmoved]⟩

theorem append (h : ReadsAs s (s' ++ rest) items) (h' : ReadsAs s' rest more) :
    ReadsAs (s ++ s') rest (items ++ more) := by
  intro p
  obtain ⟨moved, hreads, hmoved⟩ := h p
  obtain ⟨moved', hreads', hmoved'⟩ := h' (p.after s)
  exact ⟨moved ++ moved', hreads.append hreads', by rw [map_append, map_append, hmoved, hmoved']⟩

theorem name {k : String} (hk : PlainName k)
    (hnext : ∀ c ∈ (s ++ rest).head?, isIdentifierContinue c = false) (span : Span) (line : Nat)
    (h : ReadsAs s rest items) :
    ReadsAs (k.toList ++ s) rest (.leaf (.word k span line) :: items) :=
  .item (fun p => ⟨_, starts_plainName hk p hnext, rfl⟩) h

theorem mark {c : Char} (hc : c ∈ marks) (span : Span) (line : Nat) (h : ReadsAs s rest items) :
    ReadsAs ([c] ++ s) rest (.leaf (.symbol c span line) :: items) :=
  .item (fun p => ⟨_, starts_mark hc p (s ++ rest), rfl⟩) h

theorem group {d : Delimiter} {children : List Token}
    (h : ReadsAs s (d.closing :: rest) (Token.itemsAll children)) (span : Span)
    (line : Nat) : ReadsAs ([d.opening] ++ (s ++ [d.closing])) rest
    (Token.group d children span line).items := by
  have hclosing : ReadsAs [d.closing] rest [.closing d span.stop] :=
    .item (fun p => ⟨_, .closing, rfl⟩) (.nil rest)
  exact .item (fun p => ⟨_, .opening, rfl⟩) (h.append hclosing)

end ReadsAs

theorem readsAs_mainParameters (rest : List Char) (span : Span) (line : Nat) :
    ReadsAs mainParameters.toList rest
    (Token.group .paren Kotlin.argumentTokens span line).items := by
  have hargs : PlainName "args" :=
    ⟨'a', ['r', 'g', 's'], rfl, by decide, all_eq_true.1 (by decide)⟩
  have harray : PlainName "Array" :=
    ⟨'A', ['r', 'r', 'a', 'y'], rfl, by decide, all_eq_true.1 (by decide)⟩
  have hstring : PlainName "String" :=
    ⟨'S', ['t', 'r', 'i', 'n', 'g'], rfl, by decide, all_eq_true.1 (by decide)⟩
  have hend : ReadsAs (['>'] ++ []) (')' :: rest) [.leaf (.symbol '>' default 0)] :=
    .mark (by decide) _ _ (.nil _)
  have htype := (hend.name hstring (forall_head?_of_cons (by decide) _) default 0).mark (c := '<')
    (by decide) default 0
  have hparam := ((htype.name harray (forall_head?_of_cons (by decide) _) default 0).blank
    (c := ' ') (by decide)).mark (c := ':') (by decide) default 0
  have hinside : ReadsAs _ (Delimiter.paren.closing :: rest)
      (Token.itemsAll Kotlin.argumentTokens) :=
    hparam.name hargs (forall_head?_of_cons (by decide) _) default 0
  exact hinside.group span line

end WitnessReplay.Benchmark
