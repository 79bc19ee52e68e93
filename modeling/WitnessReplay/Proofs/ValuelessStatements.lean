import WitnessReplay.Proofs.ExtractedValues
import WitnessReplay.Proofs.Fallible
import WitnessReplay.Witness.Assumption

/-!
# Statements without a value

A statement has no value if none of the patterns of its grammar matches anywhere in it. Every
pattern remembers a group wherever it matches, so that nothing else can be the reason. Which
statements these are can be said without the patterns: for two of the grammars those with
nothing but white space in them, for the third one those without digits, truth values and calls
with a string.
-/

namespace WitnessReplay

namespace Text

/-! ### White space -/

def whiteSpaceCodes : List Nat :=
  [9, 10, 11, 12, 13, 0x20, 0x85, 0xa0, 0x1680, 0x2000, 0x2001, 0x2002, 0x2003, 0x2004, 0x2005,
    0x2006, 0x2007, 0x2008, 0x2009,
   0x200a, 0x2028, 0x2029, 0x202f, 0x205f, 0x3000]

theorem toNat_mem_whiteSpaceCodes {c : Char} (hc : isWhiteSpace c) : c.toNat ∈ whiteSpaceCodes := by
  simp only [isWhiteSpace, Bool.or_eq_true, Bool.and_eq_true, decide_eq_true_eq, beq_iff_eq] at hc
  simp only [whiteSpaceCodes, List.mem_cons, List.not_mem_nil, or_false]
  omega

namespace Pattern

variable {p : Pattern} {s t : List Char} {c : Char}

/-- What a pattern never takes is checked for all white space at once. -/
theorem avoids_of_isWhiteSpace (hp : ∀ n ∈ whiteSpaceCodes, p.avoids (Char.ofNat n))
    (hc : isWhiteSpace c) : p.avoids c := by
  have hcode := hp c.toNat (toNat_mem_whiteSpaceCodes hc)
  rwa [Char.ofNat_toNat] at hcode

theorem Reads.isWhiteSpace (h : p.Reads t) (hp : ∀ n ∈ whiteSpaceCodes, p.avoids (Char.ofNat n)) :
    ∀ c ∈ t, isWhiteSpace c = false := by
  intro c hc
  by_contra hspace
  exact not_mem_of_avoids (avoids_of_isWhiteSpace hp (Bool.not_eq_false _ ▸ hspace)) h hc

/-- A pattern that takes no white space, and not nothing, occurs only next to other characters. -/
theorem Occurs.exists_nonSpace (h : p.Occurs s)
    (hp : ∀ n ∈ whiteSpaceCodes, p.avoids (Char.ofNat n))
    (hnil : p.match? [] = none) : ∃ c ∈ s, isWhiteSpace c = false := by
  obtain ⟨t, ht, hpart⟩ := h
  cases t with
  | nil =>
    have hsome : (p.match? []).isSome := isSome_match?_iff.2 ⟨[], ht, List.nil_prefix⟩
    rw [hnil] at hsome
    cases hsome
  | cons c t => exact ⟨c, hpart.mem List.mem_cons_self, ht.isWhiteSpace hp c List.mem_cons_self⟩

end Pattern

end Text

namespace Witness

namespace ValueGrammar

open Text Pattern

variable {g : ValueGrammar} {method : String} {argument s t : List Char} {gs : List (List Char)}

/-! ### Where no pattern matches -/

theorem alwaysRemembers_of_mem {p : Pattern} (hp : p ∈ g.candidates) : p.alwaysRemembers := by
  revert p
  cases g <;> decide

/-- A statement has no value if no pattern of the grammar occurs in it. -/
theorem rawValue?_eq_none_iff : g.rawValue? s = none ↔ ∀ p ∈ g.candidates, ¬ p.Occurs s := by
  rw [rawValue?, List.findSome?_eq_none_iff]
  refine forall₂_congr fun p hp => ?_
  rw [find?_eq_search?, ← search?_eq_none_iff]
  cases hsearch : p.search? s with
  | none => exact iff_of_true rfl rfl
  | some m =>
    obtain ⟨u, -, hmatch⟩ := exists_of_search? hsearch
    obtain ⟨t, -, -, hreads⟩ := exists_of_match? hmatch
    have hgroups := hreads.ne_nil_of_alwaysRemembers (alwaysRemembers_of_mem hp)
    refine iff_of_false (fun h => hgroups ?_) (by simp)
    have hlast : m.lastText? = none := h
    rwa [lastText?_eq, List.getLast?_eq_none_iff] at hlast

/-! ### Calls with a string -/

def callText (method : String) (word argument : List Char) : List Char :=
  word ++ ('.' :: method.toList) ++ "(\"".toList ++ argument ++ "\")".toList

/-- Somewhere in `s` a method is called with a string on one line. -/
def CallIn (method : String) (argument s : List Char) : Prop :=
  '\n' ∉ argument ∧ ∃ word, word ≠ [] ∧ (∀ c ∈ word, isWordChar c) ∧
    callText method word argument <:+: s

theorem CallIn.of_infix (h : CallIn method argument t) (hpart : t <:+: s) :
    CallIn method argument s := by
  obtain ⟨hline, word, hne, hword, hcall⟩ := h
  exact ⟨hline, word, hne, hword, hcall.trans hpart⟩

theorem readsWith_stringCall (h : (stringCall method).ReadsWith t gs) :
    ∃ argument, gs = [argument] ∧ CallIn method argument t := by
  obtain ⟨_, _, _, _, rfl, rfl,
    ⟨_, argument, _, _, rfl, rfl, ⟨word, _, _, _, rfl, rfl, hword, hopening⟩, hargument⟩,
    hclosing⟩ := h
  obtain ⟨⟨hne, hword⟩, rfl⟩ := hword
  obtain ⟨rfl, rfl⟩ := hopening
  obtain ⟨_, rfl, hargument, rfl⟩ := hargument
  obtain ⟨rfl, rfl⟩ := hclosing
  refine ⟨argument, rfl, fun hfeed => absurd (hargument _ hfeed) (by decide), word, hne, hword, ?_⟩
  rw [callText]
  simp [toString]

theorem occurs_stringCall :
    (stringCall method).Occurs s ↔ ∃ argument, CallIn method argument s := by
  constructor
  · rintro ⟨t, ht, hpart⟩
    obtain ⟨gs, ht⟩ := ht.exists_readsWith
    obtain ⟨argument, -, hcall⟩ := readsWith_stringCall ht
    exact ⟨argument, hcall.of_infix hpart⟩
  · rintro ⟨argument, hargument, word, hne, hword, hcall⟩
    have hline : ∀ c ∈ argument, CharClass.notLineFeed.contains c := by
      intro c hc
      refine bne_iff_ne.2 ?_
      rintro rfl
      exact hargument hc
    refine ⟨_, ⟨_, _, ?_, ⟨_, argument, rfl, ⟨word, _, rfl, ⟨hne, hword⟩, rfl⟩, hline⟩, rfl⟩, hcall⟩
    simp [callText, toString]

/-! ### The statements without a value -/

def Valueless (g : ValueGrammar) (s : List Char) : Prop :=
  match g with
  | javaDefault => ∀ c ∈ s, isWhiteSpace c
  | kotlinDefault => ∀ c ∈ s, isWhiteSpace c
  | javaGDart =>
    (∀ c ∈ s, isDigit c = false) ∧ ¬ "false".toList <:+: s ∧ ¬ "true".toList <:+: s ∧
      ∀ method ∈ ["equals", "parseDouble", "parseFloat"], ∀ argument, ¬ CallIn method argument s

/-- The pattern that a grammar tries last. Wherever the first one occurs, this one does. -/
def fallback : ValueGrammar → Pattern
  | javaDefault => javaDefaultAfter (.optional .space)
  | javaGDart => javaGDartAfter (.optional .space)
  | kotlinDefault => kotlinValue

theorem occurs_nonSpace : (Pattern.oneOrMore .nonSpace).Occurs s ↔
    ∃ c ∈ s, isWhiteSpace c = false := by
  rw [occurs_oneOrMore]
  simp only [CharClass.contains, Bool.not_eq_true']

theorem exists_nonSpace_of_javaDefault {start : Pattern} (h : (javaDefaultAfter start).Occurs s) :
    ∃ c ∈ s, isWhiteSpace c = false := by
  rcases occurs_orElse.1 h with h | h
  · exact occurs_nonSpace.1 (occurs_group.1 h.of_seq)
  rcases occurs_orElse.1 h with h | h
  · obtain ⟨argument, -, word, -, -, hcall⟩ := occurs_stringCall.1 h
    exact ⟨'.', hcall.mem (by simp [callText]), by decide⟩
  · exact h.exists_nonSpace (by decide) rfl

theorem occurs_plainNumber : plainNumber.Occurs s ↔ ∃ c ∈ s, isDigit c := by
  constructor
  · intro h
    exact occurs_oneOrMore.1 h.of_seq
  · rintro ⟨c, hc, hdigit⟩
    obtain ⟨front, back, rfl⟩ := List.append_of_mem hc
    exact ⟨[c], reads_plainNumber hdigit, front, back, by simp⟩

theorem occurs_fallback_iff : g.fallback.Occurs s ↔ ¬ g.Valueless s := by
  have hspaces : (∃ c ∈ s, isWhiteSpace c = false) ↔ ¬ ∀ c ∈ s, isWhiteSpace c := by
    simp only [not_forall, exists_prop, Bool.not_eq_true]
  cases g with
  | javaDefault =>
    refine Iff.trans ⟨exists_nonSpace_of_javaDefault, fun h => ?_⟩ hspaces
    exact occurs_orElse.2 (.inl (occurs_optional_seq.2 (occurs_nonSpace.2 h)))
  | kotlinDefault =>
    refine Iff.trans ⟨fun h => h.exists_nonSpace (by decide) rfl, fun h => ?_⟩ hspaces
    exact occurs_orElse.2 (.inr (occurs_orElse.2 (.inl (occurs_nonSpace.2 h))))
  | javaGDart =>
    rw [fallback, javaGDartAfter, occurs_orElse, occurs_optional_seq, occurs_group, occurs_orElse,
      occurs_plainNumber, truth, occurs_orElse, occurs_exactly, occurs_exactly, occurs_orElse,
      occurs_orElse, occurs_stringCall, occurs_stringCall, occurs_stringCall, Valueless]
    simp only [List.mem_cons, List.not_mem_nil, or_false, forall_eq_or_imp, forall_eq, not_and_or,
      not_forall, not_not, exists_prop, Bool.not_eq_false, or_assoc]

theorem occurs_fallback_of_mem {p : Pattern} (hp : p ∈ g.candidates) (h : p.Occurs s) :
    g.fallback.Occurs s := by
  cases g with
  | javaDefault =>
    obtain ⟨start, rfl⟩ : ∃ start, p = javaDefaultAfter start := by
      rcases List.mem_pair.1 hp with rfl | rfl <;> exact ⟨_, rfl⟩
    exact occurs_orElse.2
      (.inl (occurs_optional_seq.2 (occurs_nonSpace.2 (exists_nonSpace_of_javaDefault h))))
  | javaGDart =>
    obtain ⟨start, rfl⟩ : ∃ start, p = javaGDartAfter start := by
      rcases List.mem_pair.1 hp with rfl | rfl <;> exact ⟨_, rfl⟩
    rcases occurs_orElse.1 h with h | h
    · exact occurs_orElse.2 (.inl (occurs_optional_seq.2 h.of_seq))
    · exact occurs_orElse.2 (.inr h)
  | kotlinDefault =>
    rcases List.mem_pair.1 hp with rfl | rfl
    · exact h.of_seq
    · exact h

theorem rawValue?_eq_none_iff_valueless : g.rawValue? s = none ↔ g.Valueless s := by
  rw [rawValue?_eq_none_iff]
  constructor
  · intro h
    by_contra hvalue
    have hlast : g.fallback ∈ g.candidates := by
      cases g <;> exact List.mem_cons_of_mem _ List.mem_cons_self
    exact h g.fallback hlast (occurs_fallback_iff.2 hvalue)
  · intro hvalueless p hp hoccurs
    exact occurs_fallback_iff.1 (occurs_fallback_of_mem hp hoccurs) hvalueless

instance (g : ValueGrammar) (s : List Char) : Decidable (g.Valueless s) :=
  decidable_of_iff (g.rawValue? s = none) rawValue?_eq_none_iff_valueless

theorem extract?_eq_none_iff_valueless {statement : String} :
    g.extract? statement = none ↔ g.Valueless statement.toList := by
  rw [extract?, Option.map_eq_none_iff, rawValue?_eq_none_iff_valueless]

theorem value?_eq_none_iff_valueless {statement : String} :
    g.value? statement = none ↔ g.Valueless statement.toList := by
  rw [value?, Option.map_eq_none_iff, extract?_eq_none_iff_valueless]

end ValueGrammar

/-! ### The statements that are dropped -/

/-- An assumption is at the position of its statement and has the value that the grammar finds
there. -/
structure Statement.Gives (grammar : ValueGrammar) (s : Statement) (a : Assumption) : Prop where
  position : a.position = s.position
  value : grammar.value? s.text = some a.value

theorem forall₂_assumptions (grammar : ValueGrammar) (all : List Statement) :
    List.Forall₂ (Statement.Gives grammar) (all.filter fun s => ¬ grammar.Valueless s.text.toList)
      (all.filterMap (Statement.assumption? grammar)) := by
  induction all with
  | nil => exact .nil
  | cons s all ih =>
    cases hvalue : grammar.value? s.text with
    | none =>
      have hvalueless := ValueGrammar.value?_eq_none_iff_valueless.1 hvalue
      rw [List.filter_cons_of_neg (by simpa using hvalueless),
        List.filterMap_cons_none (by simp [Statement.assumption?, hvalue])]
      exact ih
    | some value =>
      have hvalueless : ¬ grammar.Valueless s.text.toList := by
        intro h
        cases hvalue.symm.trans (ValueGrammar.value?_eq_none_iff_valueless.2 h)
      have hgives : s.assumption? grammar = some ⟨s.position, value⟩ := by
        rw [Statement.assumption?, hvalue]; rfl
      rw [List.filter_cons_of_pos (by simpa using hvalueless), List.filterMap_cons_some hgives]
      exact .cons ⟨rfl, hvalue⟩ ih

/-- **Statements without a value.** A grammar finds no value in a statement exactly if the
statement is `Valueless`. Of the statements of a witness these and no others are dropped, and
every other one gives an assumption, in the same order. -/
theorem dropped_iff_valueless :
    (∀ (g : ValueGrammar) (statement : String), g.extract? statement = none ↔
      g.Valueless statement.toList) ∧
    ∀ (w : LinearWitness) (language : Language) (f : ScopeFilter)
    (all : List Statement), w.statements f = .ok all →
      ∃ assumptions, w.assumptions language f = .ok assumptions ∧
        List.Forall₂ (Statement.Gives (.select language w.producer))
          (all.filter fun s => ¬ (ValueGrammar.select language w.producer).Valueless
            s.text.toList) assumptions := by
  refine ⟨fun g statement => ValueGrammar.extract?_eq_none_iff_valueless,
    fun w language f all hall => ?_⟩
  refine ⟨_, ?_, forall₂_assumptions (.select language w.producer) all⟩
  rw [LinearWitness.assumptions, hall]
  rfl

end Witness

end WitnessReplay
