import WitnessReplay.Proofs.PatternTexts
import WitnessReplay.Source.Lexicon.Java
import WitnessReplay.Witness.ValueGrammar

/-!
# The values of statements

Two kinds of statements are followed through the grammars for Java: an assignment of a number
to a name, and the comparison of a name with a string.

The first pattern of a grammar is looked for from left to right, and only one of its
alternatives starts with the equals sign. So the name of an assignment is looked through first,
and a number or a truth value inside it is taken for the value. The text of a string is found
whole. It then passes through the steps that are made for bare literals: a semicolon at its
end, the name of a special value and the word `null` do not stay what they are.
-/

namespace WitnessReplay.Witness.ValueGrammar

open Text Pattern List

variable {name s t u v w : List Char} {c : Char}

/-! ### The steps behind a match -/

theorem rawValue?_of_search? {g : ValueGrammar} {p : Pattern} {later : List Pattern} {m : Match}
    (hg : g.candidates = p :: later) (hm : p.search? s = some m)
    (ht : m.lastText? = some t) : g.rawValue? s = some t := by
  rw [rawValue?, hg, findSome?_cons, find?_eq_search?, hm]
  simp only [Option.bind_some]
  rw [show m.groups.getLast?.map (·.text) = some t from ht]

theorem dropSemicolon_of_not_mem (h : ';' ∉ t) : dropSemicolon t = t := by
  rw [dropSemicolon, if_neg]
  exact fun hlast => h (mem_of_getLast? hlast)

theorem dropSemicolon_concat (t : List Char) : dropSemicolon (t ++ [';']) = t := by
  simp [dropSemicolon]

theorem canonical_of_not_mem {value : String} (h : value ∉ specialValues.map (·.1)) :
    canonical value = value := by
  have hnone : specialValues.lookup value = none := by
    rw [lookup_eq_none_iff]
    intro e he
    exact bne_iff_ne.2 fun heq => h (mem_map.2 ⟨e, he, heq.symm⟩)
  rw [canonical, hnone]
  rfl

theorem length_canonical_lt {value : String} (h : value ∈ specialValues.map (·.1)) :
    (canonical value).length < value.length := by
  revert value
  decide

theorem not_mem_specialValues {value : String} (h : 'N' ∉ value.toList) :
    value ∉ specialValues.map (·.1) := by
  have hall : ∀ x ∈ specialValues.map (·.1), 'N' ∈ x.toList := by decide
  exact fun hvalue => h (hall value hvalue)

/-! ### Looking through a name -/

def javaAssignment : Pattern :=
  javaDefaultAfter (.exactly "=" ++ .optional .space)

def bareValue : Pattern :=
  .group longNumber <|> .group truthOrNull

theorem match?_stringCall (method : String) (hu : '.' ∉ u) (hword : isWordChar c = false)
    (hc : c ≠ '.') :
    (stringCall method).match? (u ++ c :: v) = none := by
  rw [← Option.not_isSome_iff_eq_none, isSome_match?_iff]
  rintro ⟨_, ⟨_, closing, rfl, ⟨_, inner, rfl, ⟨word, _, rfl, ⟨-, hchars⟩, rfl⟩, -⟩, -⟩, r, hr⟩
  have hpoint : word ++ '.' :: (method.toList ++ "(\"".toList ++ inner ++ closing ++ r) =
      u ++ c :: v := by
    simpa [toString] using hr
  rcases append_eq_append_iff.1 hpoint with ⟨x, rfl, hx⟩ | ⟨x, rfl, hx⟩
  · -- the point stands in the text, or right behind it
    cases x with
    | nil => exact hc (List.cons.inj hx).1.symm
    | cons d x => exact hu (mem_append_right _ ((List.cons.inj hx).1 ▸ mem_cons_self))
  · -- the word goes on behind the text
    cases x with
    | nil => exact hc (List.cons.inj hx).1
    | cons d x =>
      have hd := hchars d (mem_append_right _ mem_cons_self)
      rw [← (List.cons.inj hx).1] at hd
      exact Bool.false_ne_true (hword.symm.trans hd)

theorem match?_afterEquals (value : Pattern) (hc : c ≠ '=') :
    (Pattern.exactly "=" ++ .optional .space ++ value).match? (c :: s) = none := by
  rw [← Option.not_isSome_iff_eq_none, isSome_match?_iff]
  rintro ⟨_, ⟨_, _, rfl, ⟨_, _, rfl, rfl, -⟩, -⟩, r, hr⟩
  exact hc (List.cons.inj hr).1.symm

/-- Up to the character behind it, a name is looked through for bare values only. -/
theorem match?_javaAssignment (hu : ∀ d ∈ u, d ≠ '=' ∧ d ≠ '.') (hne : u ≠ [])
    (hc : c = ' ' ∨ c = '=') :
    javaAssignment.match? (u ++ c :: v) = (bareValue.match? u).map (Match.before (c :: v)) := by
  have hassigned :
      (Pattern.exactly "=" ++ .optional .space ++ .group (.oneOrMore .nonSpace)).match?
      (u ++ c :: v) = none := by
    obtain ⟨d, u, rfl⟩ := exists_cons_of_ne_nil hne
    exact match?_afterEquals _ (hu d mem_cons_self).1
  have hcall : (stringCall "equals").match? (u ++ c :: v) = none := by
    refine match?_stringCall "equals" (fun h => (hu _ h).2 rfl) ?_ ?_
    · rcases hc with rfl | rfl <;> decide
    · rcases hc with rfl | rfl <;> decide
  have hbare : bareValue.match? (u ++ c :: v) =
      (bareValue.match? u).map (Match.before (c :: v)) := by
    refine match?_append ?_
    rcases hc with rfl | rfl <;> decide
  rw [javaAssignment, javaDefaultAfter, match?_orElse, match?_orElse, hassigned, hcall]
  exact hbare

theorem match?_nonSpace (hw : ∀ d ∈ w, isWhiteSpace d = false) (hne : w ≠ []) :
    (Pattern.group (.oneOrMore .nonSpace)).match? w = some ⟨[⟨w, []⟩], []⟩ := by
  have hclass : ∀ d ∈ w, CharClass.nonSpace.contains d :=
    fun d hd => by simp [CharClass.contains, hw d hd]
  rw [match?_group, ← append_nil w,
    run_oneOrMore_of_boundary (m := (⟨[], []⟩, [])) hclass hne (by simp) rfl]
  rfl

theorem search?_assigned (hw : ∀ d ∈ w, isWhiteSpace d = false) (hne : w ≠ []) {sign : List Char}
    (hsign : sign = "=".toList ∨ sign = " = ".toList) :
    javaAssignment.search? (sign ++ w) = some ⟨[⟨w, []⟩], []⟩ := by
  have hvalue := match?_nonSpace hw hne
  have hoptional : (Pattern.optional .space ++ .group (.oneOrMore .nonSpace)).match? w =
      some ⟨[⟨w, []⟩], []⟩ := by
    obtain ⟨d, w, rfl⟩ := exists_cons_of_ne_nil hne
    have hd : CharClass.space.contains d = false := hw d mem_cons_self
    rw [← hvalue]
    exact if_neg (Bool.not_eq_true _ ▸ hd)
  rcases hsign with rfl | rfl
  · calc javaAssignment.search? ('=' :: w)
      _ = (((Pattern.optional .space ++ .group (.oneOrMore .nonSpace)).match? w <|> _) <|> _) := rfl
      _ = some ⟨[⟨w, []⟩], []⟩ := by rw [hoptional]; rfl
  · calc javaAssignment.search? (' ' :: '=' :: ' ' :: w)
      _ = ((((Pattern.group (.oneOrMore .nonSpace)).match? w <|> _) <|> _) <|> _) := rfl
      _ = some ⟨[⟨w, []⟩], []⟩ := by rw [hvalue]; rfl

theorem search?_assignment (hname : ∀ d ∈ name, d ≠ '=' ∧ d ≠ '.')
    (hw : ∀ d ∈ w, isWhiteSpace d = false) (hne : w ≠ [])
    {sign : List Char} (hsign : sign = "=".toList ∨ sign = " = ".toList) :
    javaAssignment.search? (name ++ (sign ++ w)) =
      ((bareValue.search? name).map (Match.before (sign ++ w)) <|> some ⟨[⟨w, []⟩], []⟩) := by
  rw [← search?_assigned hw hne hsign]
  refine search?_append rfl fun u hu hsuffix => ?_
  have huname : ∀ d ∈ u, d ≠ '=' ∧ d ≠ '.' := fun d hd => hname d (hsuffix.mem hd)
  rcases hsign with rfl | rfl
  · exact match?_javaAssignment huname hu (.inr rfl)
  · exact match?_javaAssignment huname hu (.inl rfl)

/-! ### The names in which no value is found -/

/-- A name without digits in which none of the words for truth values and null occurs. -/
def HoldsNoValue (name : List Char) : Prop :=
  (∀ c ∈ name, isDigit c = false) ∧ ∀ word ∈ ["false", "true", "null"], ¬ word.toList <:+: name

theorem reads_plainNumber (hc : isDigit c) : plainNumber.Reads [c] := by
  have hdigit : (Pattern.oneOrMore .digit).Reads [c] := ⟨by simp, forall_mem_singleton.2 hc⟩
  exact ⟨[], [c], rfl, ⟨[], [], rfl, ⟨[], [], rfl, .inl rfl, by simp [Reads]⟩, .inl rfl⟩, hdigit⟩

theorem reads_longNumber (hc : isDigit c) : longNumber.Reads [c] :=
  ⟨[c], [], rfl, reads_plainNumber hc, .inl rfl⟩

theorem exists_digit_of_reads_longNumber (h : longNumber.Reads t) : ∃ c ∈ t, isDigit c := by
  obtain ⟨_, _, rfl, ⟨_, digits, rfl, -, hne, hdigits⟩, -⟩ := h
  obtain ⟨c, digits, rfl⟩ := exists_cons_of_ne_nil hne
  exact ⟨c, by simp, hdigits c mem_cons_self⟩

theorem reads_truthOrNull_iff :
    truthOrNull.Reads t ↔ ∃ word ∈ ["false", "true", "null"], t = word.toList := by
  show t = "false".toList ∨ t = "true".toList ∨ t = "null".toList ↔ _
  simp only [mem_cons, not_mem_nil, or_false, exists_eq_or_imp, exists_eq_left]

theorem search?_bareValue_eq_none_iff : bareValue.search? name = none ↔ HoldsNoValue name := by
  rw [← Option.not_isSome_iff_eq_none, isSome_search?_iff]
  constructor
  · intro h
    refine ⟨fun c hc => ?_, fun word hword hpart => ?_⟩
    · by_contra hdigit
      obtain ⟨a, b, rfl⟩ := append_of_mem hc
      exact h ⟨[c], .inl (reads_longNumber (by simpa using hdigit)), a, b, by simp⟩
    · exact h ⟨word.toList, .inr (reads_truthOrNull_iff.2 ⟨word, hword, rfl⟩), hpart⟩
  · rintro ⟨hdigits, hwords⟩ ⟨t, ht | ht, hpart⟩
    · obtain ⟨c, hc, hdigit⟩ := exists_digit_of_reads_longNumber ht
      exact Bool.false_ne_true ((hdigits c (hpart.mem hc)).symm.trans hdigit)
    · obtain ⟨word, hword, rfl⟩ := reads_truthOrNull_iff.1 ht
      exact hwords word hword hpart

theorem exists_of_search?_bareValue {m : Match} (h : bareValue.search? name = some m) :
    ∃ t, t <:+: name ∧ bareValue.Reads t ∧ m.lastText? = some t := by
  obtain ⟨u, hsuffix, hmatch⟩ := exists_of_search? h
  have hpart : ∀ t r, u = t ++ r → t <:+: name := by
    rintro t r rfl
    exact (prefix_append t r).isInfix.trans hsuffix.isInfix
  rcases (Option.orElse_eq_some _ _ _).1 hmatch with hmatch | ⟨-, hmatch⟩
  · obtain ⟨t, r, hu, ht, htext⟩ := exists_of_match?_group (by decide) hmatch
    exact ⟨t, hpart t r hu, .inl ht, htext⟩
  · obtain ⟨t, r, hu, ht, htext⟩ := exists_of_match?_group (by decide) hmatch
    exact ⟨t, hpart t r hu, .inr ht, htext⟩

/-! ### Assignments of numbers -/

theorem mem_decimal {n : Int} (h : c ∈ (toString n).toList) : c = '-' ∨ c.isDigit := by
  have hdigits : ∀ k : Nat, c ∈ k.repr.toList → c.isDigit := by
    intro k hc
    rw [Nat.toList_repr] at hc
    exact Nat.isDigit_of_mem_toDigits (by decide) (by decide) hc
  rw [Int.toString_eq_repr, Int.repr_eq_if] at h
  split at h
  · exact .inr (hdigits _ h)
  · rw [String.toList_append, mem_append] at h
    rcases h with h | h
    · exact .inl (mem_singleton.1 h)
    · exact .inr (hdigits _ h)

theorem isWhiteSpace_of_decimal (hc : c = '-' ∨ c.isDigit) : isWhiteSpace c = false := by
  rcases hc with rfl | hc
  · rfl
  · have hrange := Char.isDigit_iff_toNat.1 hc
    have h0 : '0'.toNat = 48 := rfl
    have h9 : '9'.toNat = 57 := rfl
    simp only [isWhiteSpace, Bool.or_eq_false_iff, Bool.and_eq_false_iff, decide_eq_false_iff_not,
      beq_eq_false_iff_ne]
    omega

theorem not_mem_decimal {n : Int} {d : Char} (hd : d ≠ '-') (hdigit : d.isDigit = false) :
    d ∉ (toString n).toList := by
  intro h
  rcases mem_decimal h with h | h
  · exact hd h
  · exact Bool.false_ne_true (hdigit.symm.trans h)

theorem toList_assignment (name sign : String) (n : Int) :
    (name ++ sign ++ toString n ++ ";").toList =
      name.toList ++ (sign.toList ++ ((toString n).toList ++ [';'])) := by
  simp only [String.toList_append, append_assoc]
  rfl

/-- The statement is looked through from left to right. So a value inside the name comes before
the assigned one. -/
theorem search?_decimal {name sign : String} (hname : ∀ d ∈ name.toList, d ≠ '=' ∧ d ≠ '.')
    (hsign : sign = "=" ∨ sign = " = ") (n : Int) :
    ∃ more, javaAssignment.search? (name ++ sign ++ toString n ++ ";").toList =
      ((bareValue.search? name.toList).map
      (Match.before more) <|> some ⟨[⟨(toString n).toList ++ [';'], []⟩], []⟩) := by
  have hvalue : ∀ d ∈ (toString n).toList ++ [';'], isWhiteSpace d = false := by
    intro d hd
    rcases mem_append.1 hd with hd | hd
    · exact isWhiteSpace_of_decimal (mem_decimal hd)
    · cases mem_singleton.1 hd
      rfl
  rw [toList_assignment]
  exact ⟨_, search?_assignment hname hvalue (by simp)
    (hsign.imp (congrArg String.toList) (congrArg String.toList))⟩

theorem extract?_of_rawValue? {g : ValueGrammar} {statement : String}
    (h : g.rawValue? statement.toList = some t) :
    g.extract? statement = some (canonical (String.ofList (dropSemicolon t))) := by
  rw [extract?, h]
  rfl

theorem extract?_assignment_of_holdsNoValue {name sign : String}
    (hname : ∀ d ∈ name.toList, d ≠ '=' ∧ d ≠ '.')
    (hsign : sign = "=" ∨ sign = " = ") (h : HoldsNoValue name.toList) (n : Int) :
    javaDefault.extract? (name ++ sign ++ toString n ++ ";") = some (toString n) := by
  obtain ⟨more, hfound⟩ := search?_decimal hname hsign n
  rw [search?_bareValue_eq_none_iff.2 h] at hfound
  have hraw : javaDefault.rawValue? (name ++ sign ++ toString n ++ ";").toList =
      some ((toString n).toList ++ [';']) :=
    rawValue?_of_search? rfl hfound (congrArg some take_length)
  have hspecial : toString n ∉ specialValues.map (·.1) :=
    not_mem_specialValues (not_mem_decimal (by decide) (by decide))
  rw [extract?_of_rawValue? hraw, dropSemicolon_concat, String.ofList_toList,
    canonical_of_not_mem hspecial]

theorem exists_extract?_assignment {name : String} (hname : ∀ d ∈ name.toList, d ≠ '=' ∧ d ≠ '.')
    (h : ¬ HoldsNoValue name.toList) :
    ∃ t : String, t.toList <:+: name.toList ∧ ∀ (sign : String)
    (n : Int), sign = "=" ∨ sign = " = " →
      javaDefault.extract? (name ++ sign ++ toString n ++ ";") = some t := by
  obtain ⟨m, hm⟩ := Option.ne_none_iff_exists'.1 (mt search?_bareValue_eq_none_iff.1 h)
  obtain ⟨t, hpart, hreads, ht⟩ := exists_of_search?_bareValue hm
  have hsemicolon : ';' ∉ t := not_mem_of_avoids (by decide) hreads
  have hspecial : String.ofList t ∉ specialValues.map (·.1) :=
    not_mem_specialValues (by simpa using not_mem_of_avoids (by decide) hreads)
  refine ⟨String.ofList t, by simpa using hpart, fun sign n hsign => ?_⟩
  obtain ⟨more, hfound⟩ := search?_decimal hname hsign n
  rw [hm] at hfound
  have hraw : javaDefault.rawValue? (name ++ sign ++ toString n ++ ";").toList = some t :=
    rawValue?_of_search? rfl hfound ((lastText?_before more m).trans ht)
  rw [extract?_of_rawValue? hraw, dropSemicolon_of_not_mem hsemicolon,
    canonical_of_not_mem hspecial]

/-- **Assigned numbers.** Every number that is assigned to a name is read back exactly if the
name holds no value itself. Otherwise a part of the name is taken for the value, the same one
whatever number is assigned. -/
theorem extract?_assignment (name : String) (hname : ∀ c ∈ name.toList, c ≠ '=' ∧ c ≠ '.') :
    ((∀ n : Int, javaDefault.extract? (name ++ " = " ++ toString n ++ ";") = some (toString n) ∧
        javaDefault.extract? (name ++ "=" ++ toString n ++ ";") = some (toString n)) ↔
          HoldsNoValue name.toList) ∧
      (¬ HoldsNoValue name.toList → ∃ t : String, t.toList <:+: name.toList ∧
        ∀ n : Int, javaDefault.extract? (name ++ " = " ++ toString n ++ ";") = some t ∧
          javaDefault.extract? (name ++ "=" ++ toString n ++ ";") = some t) := by
  refine ⟨⟨fun h => ?_, fun h n => ?_⟩, fun h => ?_⟩
  · by_contra hvalue
    obtain ⟨t, -, ht⟩ := exists_extract?_assignment hname hvalue
    have h0 := (ht " = " 0 (.inr rfl)).symm.trans (h 0).1
    have h1 := (ht " = " 1 (.inr rfl)).symm.trans (h 1).1
    exact absurd (Option.some.inj (h0.symm.trans h1)) (by decide)
  · exact ⟨extract?_assignment_of_holdsNoValue hname (.inr rfl) h n,
      extract?_assignment_of_holdsNoValue hname (.inl rfl) h n⟩
  · obtain ⟨t, hpart, ht⟩ := exists_extract?_assignment hname h
    exact ⟨t, hpart, fun n => ⟨ht " = " n (.inr rfl), ht "=" n (.inl rfl)⟩⟩

theorem extract?_assignment_count :
    Source.Java.word "count".toList = some 5 ∧ (∀ c ∈ "count".toList, c ≠ '=' ∧ c ≠ '.') ∧
    HoldsNoValue "count".toList ∧
      javaDefault.extract? ("count" ++ " = " ++ toString (-12 : Int) ++ ";") = some "-12" ∧
      javaDefault.extract? ("count" ++ "=" ++ toString (-12 : Int) ++ ";") = some "-12" := by
  have hname : ∀ c ∈ "count".toList, c ≠ '=' ∧ c ≠ '.' := by simp
  have hdigits : "count".toList.all (!isDigit ·) := by decide
  have hvalue : HoldsNoValue "count".toList :=
    ⟨fun c hc => by simpa using all_eq_true.1 hdigits c hc, by decide⟩
  exact ⟨by decide, hname, hvalue, (extract?_assignment "count" hname).1.2 hvalue (-12)⟩

/-- An assignment to `x1` gives the value 1. -/
theorem not_extract?_assignment :
    ¬ ∀ name : String, Source.Java.word name.toList = some name.length →
      ∀ n : Int, javaDefault.extract? (name ++ " = " ++ toString n ++ ";") = some (toString n) ∧
        javaDefault.extract? (name ++ "=" ++ toString n ++ ";") = some (toString n) := by
  intro h
  have hone : javaDefault.extract? ("x1" ++ " = " ++ toString (5 : Int) ++ ";") = some "1" := by
    decide
  exact absurd (hone.symm.trans (h "x1" (by decide) 5).1) (by decide)

/-! ### Comparisons with strings -/

theorem match?_equalsCall (hname : ∀ d ∈ name, isWordChar d) (hne : name ≠ []) (hs : '\n' ∉ s) :
    (stringCall "equals").match? (name ++ (".equals(\"".toList ++ (s ++ "\")".toList))) =
      some ⟨[⟨s ++ "\")".toList, "\")".toList⟩], []⟩ := by
  have hline : ∀ d ∈ s, CharClass.notLineFeed.contains d := by
    intro d hd
    exact bne_iff_ne.2 fun hfeed => hs (hfeed ▸ hd)
  -- the greedy repetition goes to the end of the text and comes back to the last quote
  have hquoted : (Pattern.group (.many .notLineFeed) ++ .exactly "\")").match? (s ++ "\")".toList) =
      some ⟨[⟨s ++ "\")".toList, "\")".toList⟩], []⟩ := by
    have hlast := tryMany_of_eq_some hline (rfl : tryMany .notLineFeed (fun rest =>
      ((Pattern.exactly "\")").match? rest).map (·, rest)) "\")".toList =
        some (⟨[], []⟩, "\")".toList))
    exact congrArg (Option.map fun m => m.1.remember (s ++ "\")".toList) m.2) hlast
  have hcall : tryMany .wordChar
      (Pattern.match? (.exactly ".equals(\"" ++ (.group (.many .notLineFeed) ++ .exactly "\")")))
      (".equals(\"".toList ++ (s ++ "\")".toList)) =
        some ⟨[⟨s ++ "\")".toList, "\")".toList⟩], []⟩ := hquoted
  obtain ⟨c, name, rfl⟩ := exists_cons_of_ne_nil hne
  obtain ⟨hc, hname⟩ := forall_mem_cons.1 hname
  exact (if_pos hc).trans (tryMany_of_eq_some hname hcall)

/-- A comparison does not start with an equals sign, so the alternative for calls matches at
once. -/
theorem search?_equalsCall (hname : ∀ d ∈ name, isWordChar d) (hne : name ≠ []) (hs : '\n' ∉ s)
    (value others : Pattern) :
    Pattern.search? (Pattern.exactly "=" ++ .optional .space ++
    value <|> (stringCall "equals" <|> others))
      (name ++ (".equals(\"".toList ++ (s ++ "\")".toList))) =
        some ⟨[⟨s ++ "\")".toList, "\")".toList⟩], []⟩ := by
  have hmatch := match?_equalsCall hname hne hs
  obtain ⟨c, name, rfl⟩ := exists_cons_of_ne_nil hne
  have hc : c ≠ '=' := by
    rintro rfl
    exact absurd (hname '=' mem_cons_self) (by decide)
  rw [cons_append] at hmatch ⊢
  rw [search?, match?_orElse, match?_orElse, match?_afterEquals value hc, hmatch]
  rfl

theorem rawValue?_equalsCall {g : ValueGrammar} (hg : g = javaDefault ∨ g = javaGDart)
    (hname : ∀ d ∈ name, isWordChar d) (hne : name ≠ []) (hs : '\n' ∉ s) :
    g.rawValue? (name ++ (".equals(\"".toList ++ (s ++ "\")".toList))) = some s := by
  have htext : Match.lastText? ⟨[⟨s ++ "\")".toList, "\")".toList⟩], []⟩ = some s := by
    simp [Match.lastText?, Group.text]
  rcases hg with rfl | rfl
  · exact rawValue?_of_search? rfl (search?_equalsCall hname hne hs _ _) htext
  · exact rawValue?_of_search? rfl (search?_equalsCall hname hne hs _ _) htext

/-- The steps behind a match keep a text exactly if it does not end in a semicolon and is not
the name of a special value. -/
theorem canonical_dropSemicolon_eq_iff {s : String} :
    canonical (String.ofList (dropSemicolon s.toList)) = s ↔
      s.toList.getLast? ≠ some ';' ∧ s ∉ specialValues.map (·.1) := by
  by_cases hlast : s.toList.getLast? = some ';'
  · have hshorter : (String.ofList (dropSemicolon s.toList)).length < s.length := by
      obtain ⟨t, ht⟩ := getLast?_eq_some_iff.1 hlast
      rw [ht, dropSemicolon_concat, String.length_ofList, ← String.length_toList, ht]
      simp
    refine ⟨fun h => ?_, fun h => absurd hlast h.1⟩
    by_cases hspecial : String.ofList (dropSemicolon s.toList) ∈ specialValues.map (·.1)
    · have hcanonical := length_canonical_lt hspecial
      rw [h] at hcanonical
      omega
    · rw [canonical_of_not_mem hspecial] at h
      rw [h] at hshorter
      omega
  · rw [dropSemicolon, if_neg hlast, String.ofList_toList]
    refine ⟨fun h => ⟨hlast, fun hspecial => ?_⟩, fun h => canonical_of_not_mem h.2⟩
    have hcanonical := length_canonical_lt hspecial
    rw [h] at hcanonical
    omega

/-- **Compared strings.** A string that a variable is compared with is found whole, whatever is
in it. It reaches the harness unchanged exactly if it does not end in a semicolon, is not the
name of a special value and, where the grammar reads null, is not the word `null`. -/
theorem value?_equalsCall {g : ValueGrammar} {name s : String}
    (hg : g = javaDefault ∨ g = javaGDart) (hne : name ≠ "")
    (hname : ∀ c ∈ name.toList, isWordChar c) (hs : '\n' ∉ s.toList) :
    g.rawValue? (name ++ ".equals(\"" ++ s ++ "\")").toList = some s.toList ∧
      (g.value? (name ++ ".equals(\"" ++ s ++ "\")") = some (some s) ↔
        s.toList.getLast? ≠ some ';' ∧ s ∉ specialValues.map (·.1) ∧
        (g.readsNull → s ≠ "null")) := by
  have hraw : g.rawValue? (name ++ ".equals(\"" ++ s ++ "\")").toList = some s.toList := by
    simp only [String.toList_append, append_assoc]
    exact rawValue?_equalsCall hg hname (by simpa using hne) hs
  refine ⟨hraw, ?_⟩
  rw [value?, extract?_of_rawValue? hraw, ← and_assoc, ← canonical_dropSemicolon_eq_iff]
  generalize canonical (String.ofList (dropSemicolon s.toList)) = value
  by_cases hnull : value = "null" ∧ g.readsNull
  · rw [Option.map_some, if_pos hnull]
    refine ⟨fun h => (by cases h), fun h => absurd hnull.1 ?_⟩
    exact h.1 ▸ h.2 hnull.2
  · rw [Option.map_some, if_neg hnull, Option.some.injEq, Option.some.injEq]
    refine ⟨fun h => ⟨h, fun hreads heq => hnull ⟨h.trans heq, hreads⟩⟩, fun h => h.1⟩

theorem value?_equalsCall_innerQuote :
    "s1" ≠ "" ∧ (∀ c ∈ "s1".toList, isWordChar c) ∧ '\n' ∉ "a;\")b".toList ∧
      javaDefault.value? ("s1" ++ ".equals(\"" ++ "a;\")b" ++ "\")") = some (some "a;\")b") ∧
      javaGDart.value? ("s1" ++ ".equals(\"" ++ "a;\")b" ++ "\")") = some (some "a;\")b") := by
  have hname : ∀ c ∈ "s1".toList, isWordChar c :=
    all_eq_true.1 (by decide : "s1".toList.all isWordChar)
  have hline : '\n' ∉ "a;\")b".toList := by decide
  exact ⟨by decide, hname, hline,
    (value?_equalsCall (.inl rfl) (by decide) hname hline).2.2 (by decide),
    (value?_equalsCall (.inr rfl) (by decide) hname hline).2.2 (by decide)⟩

/-- The default grammar takes the string `null` for no value, and the grammar for GDart loses a
semicolon at the end. -/
theorem not_value?_equalsCall :
    (¬ ∀ name s : String, name ≠ "" → (∀ c ∈ name.toList, isWordChar c) → '\n' ∉ s.toList →
        javaDefault.value? (name ++ ".equals(\"" ++ s ++ "\")") = some (some s)) ∧
      ¬ ∀ name s : String, name ≠ "" → (∀ c ∈ name.toList, isWordChar c) → '\n' ∉ s.toList →
        javaGDart.value? (name ++ ".equals(\"" ++ s ++ "\")") = some (some s) := by
  have hname : ∀ c ∈ "s".toList, isWordChar c :=
    all_eq_true.1 (by decide : "s".toList.all isWordChar)
  constructor
  · intro h
    have hnull : javaDefault.value? ("s" ++ ".equals(\"" ++ "null" ++ "\")") = some none := by
      decide
    exact absurd (hnull.symm.trans (h "s" "null" (by decide) hname (by decide))) (by decide)
  · intro h
    have hshort : javaGDart.value? ("s" ++ ".equals(\"" ++ "a;" ++ "\")") = some (some "a") := by
      decide
    exact absurd (hshort.symm.trans (h "s" "a;" (by decide) hname (by decide))) (by decide)

end WitnessReplay.Witness.ValueGrammar
