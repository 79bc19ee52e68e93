import WitnessReplay.Proofs.ValueList
import WitnessReplay.Proofs.ValuelessStatements

/-!
# Values on one line

The values of a witness are written into one line of the oracle, and a string literal must not
go beyond the end of a line. Nothing that ends a line is escaped there, so it must not get into
a value in the first place. A value has no white space at all if it is not the argument of a
call. An argument may have any characters except a line feed. A carriage return, which ends a
line as well, is not kept out: it goes from the statement into the literal.
-/

namespace WitnessReplay

open List

namespace Harness

variable {language : Language} {c : Char} {s : List Char} {v : String}
    {values : List (Option String)}

/-! ### Literals and their lines -/

/-- A literal that a compiler accepts: it is read whole, and no line ends in it. -/
def IsLegal (language : Language) (literal : List Char) : Prop :=
  (∃ value, readValue language literal = some (value, [])) ∧ '\n' ∉ literal ∧ '\r' ∉ literal

theorem mem_flatMap_escapeChar (hc : c ≠ '\\') : c ∈ s.flatMap (escapeChar language) ↔ c ∈ s := by
  rw [mem_flatMap]
  constructor
  · rintro ⟨d, hd, hmem⟩
    obtain rfl : c = d := by
      unfold escapeChar at hmem
      split at hmem
      · rcases mem_pair.1 hmem with h | h
        · exact absurd h hc
        · exact h
      · exact mem_singleton.1 hmem
    exact hd
  · intro h
    refine ⟨c, h, ?_⟩
    unfold escapeChar
    split
    · exact mem_cons_of_mem _ mem_cons_self
    · exact mem_cons_self

theorem mem_stringLiteral (hslash : c ≠ '\\') (hquote : c ≠ '"') :
    c ∈ stringLiteral language s ↔ c ∈ s := by
  rw [stringLiteral_eq, List.mem_append, List.mem_cons, mem_flatMap_escapeChar hslash,
    List.mem_singleton]
  simp only [hquote, false_or, or_false]

theorem isLegal_valueLiteral_iff :
    IsLegal language (valueLiteral language (some v)) ↔ '\n' ∉ v.toList ∧ '\r' ∉ v.toList := by
  have hread : ∃ value, readValue language (valueLiteral language (some v)) = some (value, []) := by
    refine ⟨some v, ?_⟩
    simpa using readValue_valueLiteral language (some v) []
  rw [IsLegal, valueLiteral, mem_stringLiteral (by decide) (by decide),
    mem_stringLiteral (by decide) (by decide)]
  exact and_iff_right hread

theorem mem_intercalate_iff {separator : List Char} {items : List (List Char)}
    (hc : c ∉ separator) :
    c ∈ List.intercalate separator items ↔ ∃ item ∈ items, c ∈ item := by
  cases items with
  | nil => simp [List.intercalate]
  | cons first others =>
    rw [intercalate_cons]
    simp [hc]

/-- What is not part of the declaration itself gets into its line from the values. -/
theorem mem_listLine_iff (hc : c = '\n' ∨ c = '\r') :
    c ∈ (listLine language values).toList ↔ ∃ v, some v ∈ values ∧ c ∈ v.toList := by
  have hstart : c ∉ (listStart language).toList := by
    rcases hc with rfl | rfl <;> cases language <;> decide
  have hend : c ∉ (listEnd language).toList := by
    rcases hc with rfl | rfl <;> cases language <;> decide
  have hseparator : c ∉ ", ".toList := by rcases hc with rfl | rfl <;> decide
  have hnull : c ∉ "null".toList := by rcases hc with rfl | rfl <;> decide
  have hslash : c ≠ '\\' := by rcases hc with rfl | rfl <;> decide
  have hquote : c ≠ '"' := by rcases hc with rfl | rfl <;> decide
  rw [listLine, String.toList_ofList, mem_append, mem_append, mem_intercalate_iff hseparator]
  simp only [hstart, hend, false_or, or_false, mem_map, exists_exists_and_eq_and]
  constructor
  · rintro ⟨value, hvalue, hmem⟩
    cases value with
    | none => exact absurd hmem hnull
    | some v => exact ⟨v, hvalue, (mem_stringLiteral hslash hquote).1 hmem⟩
  · rintro ⟨v, hvalue, hmem⟩
    exact ⟨some v, hvalue, (mem_stringLiteral hslash hquote).2 hmem⟩

end Harness

namespace Witness.ValueGrammar

open Text Pattern Harness

variable {g : ValueGrammar} {p : Pattern} {s t raw : List Char} {gs : List (List Char)}
    {statement v : String}

/-! ### What a value can be -/

def stringMethods : ValueGrammar → List String
  | javaDefault => ["equals"]
  | javaGDart => ["equals", "parseDouble", "parseFloat"]
  | kotlinDefault => []

/-- What a grammar can find in a text: something without white space, or the argument of a call. -/
def CanFind (g : ValueGrammar) (raw s : List Char) : Prop :=
  (∀ c ∈ raw, isWhiteSpace c = false) ∨ ∃ method ∈ g.stringMethods, CallIn method raw s

theorem CanFind.of_infix (h : g.CanFind raw t) (hpart : t <:+: s) : g.CanFind raw s := by
  refine h.imp_right ?_
  rintro ⟨method, hmethod, hcall⟩
  exact ⟨method, hmethod, hcall.of_infix hpart⟩

theorem canFind_of_reads {value : Pattern}
    (hvalue : ∀ n ∈ whiteSpaceCodes, value.avoids (Char.ofNat n))
    (h : ∃ raw, gs = [raw] ∧ value.Reads raw) : ∃ raw, gs.getLast? = some raw ∧
    g.CanFind raw t := by
  obtain ⟨raw, rfl, hraw⟩ := h
  exact ⟨raw, rfl, .inl (hraw.isWhiteSpace hvalue)⟩

theorem canFind_of_stringCall {method : String} (hmethod : method ∈ g.stringMethods)
    (h : (stringCall method).ReadsWith t gs) :
    ∃ raw, gs.getLast? = some raw ∧ g.CanFind raw t := by
  obtain ⟨raw, rfl, hcall⟩ := readsWith_stringCall h
  exact ⟨raw, rfl, .inr ⟨method, hmethod, hcall⟩⟩

theorem readsWith_kotlinValue (h : kotlinValue.ReadsWith t gs) : gs = [t, t] := by
  obtain ⟨inner, rfl, h⟩ := h
  rcases h with h | h | h
  · rw [(readsWith_group (p := longNumber) rfl h).1]
  · rw [(readsWith_group (p := .oneOrMore .nonSpace) rfl h).1]
  · rw [(readsWith_group (p := truthOrNull) rfl h).1]

theorem canFind_of_kotlinValue (h : kotlinValue.ReadsWith t gs) : g.CanFind t s :=
  .inl ((show kotlinValue.Reads t from h.reads).isWhiteSpace (by decide))

theorem canFind_of_candidate (hp : p ∈ g.candidates) (h : p.ReadsWith t gs) :
    ∃ raw, gs.getLast? = some raw ∧ g.CanFind raw t := by
  cases g with
  | javaDefault =>
    obtain ⟨start, hstart, rfl⟩ : ∃ start, start.isPlain ∧ p = javaDefaultAfter start := by
      rcases mem_pair.1 hp with rfl | rfl <;> exact ⟨_, rfl, rfl⟩
    rcases h with h | h | h | h
    · exact canFind_of_reads (by decide) (readsWith_seq_group hstart rfl h)
    · exact canFind_of_stringCall (by decide) h
    · exact canFind_of_reads (by decide) ⟨t, readsWith_group (p := longNumber) rfl h⟩
    · exact canFind_of_reads (by decide) ⟨t, readsWith_group (p := truthOrNull) rfl h⟩
  | javaGDart =>
    obtain ⟨start, hstart, rfl⟩ : ∃ start, start.isPlain ∧ p = javaGDartAfter start := by
      rcases mem_pair.1 hp with rfl | rfl <;> exact ⟨_, rfl, rfl⟩
    rcases h with h | h | h | h
    · exact canFind_of_reads (by decide)
        (readsWith_seq_group (p := plainNumber <|> truth) hstart rfl h)
    · exact canFind_of_stringCall (by decide) h
    · exact canFind_of_stringCall (by decide) h
    · exact canFind_of_stringCall (by decide) h
  | kotlinDefault =>
    rcases mem_pair.1 hp with rfl | rfl
    · obtain ⟨_, raw, _, _, rfl, rfl, -, hraw⟩ := h
      exact ⟨raw, by simp [readsWith_kotlinValue hraw], canFind_of_kotlinValue hraw⟩
    · exact ⟨t, by simp [readsWith_kotlinValue h], canFind_of_kotlinValue h⟩

theorem canFind_of_rawValue? (h : g.rawValue? s = some raw) : g.CanFind raw s := by
  obtain ⟨p, hp, h⟩ := exists_of_findSome?_eq_some h
  obtain ⟨m, hm, hlast⟩ := Option.bind_eq_some_iff.1 h
  rw [find?_eq_search?] at hm
  obtain ⟨u, hsuffix, hmatch⟩ := exists_of_search? hm
  obtain ⟨t, r, rfl, hreads⟩ := exists_of_match? hmatch
  obtain ⟨raw', hgs, hraw⟩ := canFind_of_candidate hp hreads
  have hlast : m.lastText? = some raw := hlast
  rw [lastText?_eq, hgs] at hlast
  cases hlast
  exact hraw.of_infix ((prefix_append t r).isInfix.trans hsuffix.isInfix)

/-! ### From the raw text to the value -/

theorem dropSemicolon_subset (raw : List Char) : dropSemicolon raw ⊆ raw := by
  unfold dropSemicolon
  split
  · exact dropLast_subset raw
  · exact List.Subset.refl raw

theorem isWhiteSpace_canonical {value : String} (h : value ∈ specialValues.map (·.1)) :
    ∀ c ∈ (canonical value).toList, isWhiteSpace c = false := by
  have hall : ∀ x ∈ specialValues.map (·.1), (canonical x).toList.all (!isWhiteSpace ·) := by decide
  intro c hc
  simpa using all_eq_true.1 (hall value h) c hc

theorem unspaced_or_argument_of_extract? (h : g.extract? statement = some v) :
    (∀ c ∈ v.toList, isWhiteSpace c = false) ∨ ∃ method ∈ g.stringMethods, ∃ argument,
      CallIn method argument statement.toList ∧ v.toList = dropSemicolon argument := by
  obtain ⟨raw, hraw, rfl⟩ := Option.map_eq_some_iff.1 h
  by_cases hspecial : String.ofList (dropSemicolon raw) ∈ specialValues.map (·.1)
  · exact .inl (isWhiteSpace_canonical hspecial)
  · rw [canonical_of_not_mem hspecial, String.toList_ofList]
    rcases canFind_of_rawValue? hraw with hspace | ⟨method, hmethod, hcall⟩
    · exact .inl fun c hc => hspace c (dropSemicolon_subset raw hc)
    · exact .inr ⟨method, hmethod, raw, hcall, rfl⟩

theorem extract?_of_value? (h : g.value? statement = some (some v)) :
    g.extract? statement = some v := by
  obtain ⟨value, hvalue, h⟩ := Option.map_eq_some_iff.1 h
  split at h
  · cases h
  · cases h
    exact hvalue

theorem not_mem_lineFeed_of_value? (h : g.value? statement = some (some v)) : '\n' ∉ v.toList := by
  rcases unspaced_or_argument_of_extract? (extract?_of_value? h) with hspace | ⟨-, -, argument,
    ⟨hline, -⟩, hv⟩
  · intro hfeed
    exact absurd (hspace _ hfeed) (by decide)
  · rw [hv]
    exact fun hfeed => hline (dropSemicolon_subset argument hfeed)

/-- **Values on one line.** A value has no line feed, and no white space at all unless it is
the argument of a call. Its literal is legal exactly if it has no carriage return. So the line
of the oracle has no line feed, and it has a carriage return exactly if one of the values has
one. -/
theorem values_on_one_line (g : ValueGrammar) :
    (∀ statement v : String, g.value? statement = some (some v) →
      '\n' ∉ v.toList ∧
      ((∀ c ∈ v.toList, isWhiteSpace c = false) ∨ ∃ method ∈ g.stringMethods, ∃ argument,
        CallIn method argument statement.toList ∧ v.toList = dropSemicolon argument) ∧
      ∀ language, IsLegal language (valueLiteral language (some v)) ↔ '\r' ∉ v.toList) ∧
    ∀ (language : Language) (statements : List String),
      '\n' ∉ (listLine language (statements.filterMap g.value?)).toList ∧
      ('\r' ∈ (listLine language (statements.filterMap g.value?)).toList ↔
        ∃ statement ∈ statements, ∃ v : String, g.value? statement = some (some v) ∧
          '\r' ∈ v.toList) := by
  refine ⟨fun statement v h =>
    ⟨not_mem_lineFeed_of_value? h, unspaced_or_argument_of_extract? (extract?_of_value? h),
    fun language => ?_⟩, fun language statements => ⟨?_, ?_⟩⟩
  · rw [isLegal_valueLiteral_iff]
    exact and_iff_right (not_mem_lineFeed_of_value? h)
  · rw [mem_listLine_iff (.inl rfl)]
    rintro ⟨v, hv, hfeed⟩
    obtain ⟨statement, -, h⟩ := mem_filterMap.1 hv
    exact not_mem_lineFeed_of_value? h hfeed
  · rw [mem_listLine_iff (.inr rfl)]
    constructor
    · rintro ⟨v, hv, hreturn⟩
      obtain ⟨statement, hstatement, h⟩ := mem_filterMap.1 hv
      exact ⟨statement, hstatement, v, h, hreturn⟩
    · rintro ⟨statement, hstatement, v, h, hreturn⟩
      exact ⟨v, mem_filterMap.2 ⟨statement, hstatement, h⟩, hreturn⟩

/-- A carriage return in a string that is compared with gets into the value, and its literal is
not legal. -/
theorem not_value?_on_one_line :
    (¬ ∀ (g : ValueGrammar) (statement v : String), g.value? statement = some (some v) →
        '\n' ∉ v.toList ∧ '\r' ∉ v.toList) ∧
      ¬ ∀ statement v : String, javaDefault.value? statement = some (some v) →
        IsLegal .java (valueLiteral .java (some v)) := by
  have hvalue : javaDefault.value? "s.equals(\"a\rb\")" = some (some "a\rb") := by decide
  have hreturn : '\r' ∈ "a\rb".toList := by decide
  constructor
  · intro h
    exact (h javaDefault _ _ hvalue).2 hreturn
  · intro h
    exact (isLegal_valueLiteral_iff.1 (h _ _ hvalue)).2 hreturn

end Witness.ValueGrammar

end WitnessReplay
