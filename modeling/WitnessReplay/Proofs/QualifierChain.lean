import WitnessReplay.Source.Outline

/-!
# The longest qualifier

The words that points and safe-call signs join to a name form a chain. The qualifier of a name
is the longest chain that ends in front of it. It can also be found by going back from the
index of the name, and no index on the way is outside the list.
-/

namespace WitnessReplay.Source

open List

variable {tokens before run link : List Token} {point mark t : Token} {w : String}
    {start index : Nat}

/-! ### Chains -/

/-- A word with what joins it to the name behind it. -/
inductive Link : List Token → Prop where
  | member {word point : Token} (hword : word.word?.isSome) (hpoint : point.isSymbol '.') :
      Link [word, point]
  | safe {word mark point : Token} (hword : word.word?.isSome) (hmark : mark.isSymbol '?')
      (hpoint : point.isSymbol '.') :
      Link [word, mark, point]

theorem Link.length_pos (h : Link link) : 0 < link.length := by
  cases h <;> exact Nat.succ_pos _

def IsChain (run : List Token) : Prop :=
  ∃ links : List (List Token), run = links.flatten ∧ ∀ link ∈ links, Link link

theorem isChain_nil : IsChain [] :=
  ⟨[], rfl, by simp⟩

theorem IsChain.append_link (hrun : IsChain run) (hlink : Link link) : IsChain (run ++ link) := by
  obtain ⟨links, rfl, hlinks⟩ := hrun
  refine ⟨links ++ [link], by simp, ?_⟩
  intro link' hmem
  rcases mem_append.1 hmem with hmem | hmem
  · exact hlinks link' hmem
  · rwa [mem_singleton.1 hmem]

theorem word?_of_isSymbol {c : Char} (h : t.isSymbol c) : t.word? = none := by
  cases t with
  | symbol => rfl
  | group | word | literal => cases h

/-! ### The qualifier as a chain -/

theorem qualifierBefore_member (hpoint : point.isSymbol '.') (hword : t.word? = some w)
    (before : List Token) :
    qualifierBefore (point :: t :: before) =
      ((qualifierBefore before).1 ++ [w], (qualifierBefore before).2) := by
  rw [qualifierBefore.eq_def]
  simp only [hpoint, hword, if_true]

theorem qualifierBefore_safe (hpoint : point.isSymbol '.') (hmark : mark.isSymbol '?')
    (hword : t.word? = some w) (before : List Token) :
    qualifierBefore (point :: mark :: t :: before) =
      ((qualifierBefore before).1 ++ [w], (qualifierBefore before).2) := by
  rw [qualifierBefore.eq_def]
  simp only [hpoint, word?_of_isSymbol hmark, hmark, hword, if_true]

theorem qualifierBefore_of_not_point (ht : t.isSymbol '.' = false) (before : List Token) :
    qualifierBefore (t :: before) = ([], t :: before) := by
  cases before with
  | nil => rfl
  | cons u before =>
    unfold qualifierBefore
    simp only [ht, Bool.false_eq_true, if_false]

/-- A point joins a name to a word only, with or without a question mark between them. -/
theorem qualifierBefore_of_not_word (ht : t.word? = none)
    (hmark : t.isSymbol '?' → before.head?.bind Token.word? = none) :
    qualifierBefore (point :: t :: before) = ([], point :: t :: before) := by
  rw [qualifierBefore.eq_def]
  by_cases hpoint : point.isSymbol '.'
  · simp only [hpoint, ht, if_true]
    cases before with
    | nil => rfl
    | cons u before =>
      by_cases hsafe : t.isSymbol '?'
      · have hu : u.word? = none := hmark hsafe
        simp only [hsafe, hu]
      · simp only [hsafe]
  · simp only [hpoint, if_false, Bool.false_eq_true]

theorem Link.qualifierBefore_append (hlink : Link link) (before : List Token) :
    qualifierBefore (link.reverse ++ before) =
      ((qualifierBefore before).1 ++ link.filterMap Token.word?, (qualifierBefore before).2) := by
  cases hlink with
  | member hword hpoint =>
    obtain ⟨w, hw⟩ := Option.isSome_iff_exists.1 hword
    simpa [hw, word?_of_isSymbol hpoint] using qualifierBefore_member hpoint hw before
  | safe hword hmark hpoint =>
    obtain ⟨w, hw⟩ := Option.isSome_iff_exists.1 hword
    simpa [hw, word?_of_isSymbol hpoint,
      word?_of_isSymbol hmark] using qualifierBefore_safe hpoint hmark hw before

theorem qualifierBefore_cases (before : List Token) :
    qualifierBefore before = ([], before) ∨ ∃ link rest, Link link ∧
    before = link.reverse ++ rest := by
  match before with
  | [] | [_] => exact .inl rfl
  | point :: t :: before =>
    by_cases hpoint : point.isSymbol '.'
    · cases ht : t.word? with
      | some w => exact .inr ⟨[t, point], before, .member (by simp [ht]) hpoint, rfl⟩
      | none =>
        by_cases hsafe : t.isSymbol '?' ∧ (before.head?.bind Token.word?).isSome
        · obtain ⟨hmark, hword⟩ := hsafe
          rw [Option.isSome_bind, Option.any_eq_true] at hword
          obtain ⟨u, hu, hword⟩ := hword
          obtain ⟨rest, rfl⟩ := head?_eq_some_iff.1 hu
          exact .inr ⟨[u, t, point], rest, .safe hword hmark hpoint, rfl⟩
        · left
          apply qualifierBefore_of_not_word ht
          intro hmark
          simpa [hmark] using hsafe
    · exact .inl (qualifierBefore_of_not_point (eq_false_of_ne_true hpoint) _)

theorem exists_chain (before : List Token) :
    ∃ run, IsChain run ∧ before = run.reverse ++ (qualifierBefore before).2 ∧
      (qualifierBefore before).1 = run.filterMap Token.word? := by
  rcases qualifierBefore_cases before with hempty | ⟨link, rest, hlink, hbefore⟩
  · rw [hempty]
    exact ⟨[], isChain_nil, rfl, rfl⟩
  · have hlt : rest.length < before.length := by
      rw [hbefore, length_append, length_reverse]
      exact Nat.lt_add_of_pos_left hlink.length_pos
    obtain ⟨run, hrun, hrest, hwords⟩ := exists_chain rest
    refine ⟨run ++ link, hrun.append_link hlink, ?_, ?_⟩
    · rw [hbefore, hlink.qualifierBefore_append, reverse_append, append_assoc, ← hrest]
    · rw [hbefore, hlink.qualifierBefore_append, filterMap_append, hwords]
termination_by before.length

theorem IsChain.qualifierBefore_append (hrun : IsChain run) (before : List Token) :
    (qualifierBefore (run.reverse ++ before)).2 = (qualifierBefore before).2 := by
  obtain ⟨links, rfl, hlinks⟩ := hrun
  induction links generalizing before with
  | nil => rfl
  | cons link links ih =>
    obtain ⟨hlink, hlinks⟩ := forall_mem_cons.1 hlinks
    rw [flatten_cons, reverse_append, append_assoc, ih _ hlinks, hlink.qualifierBefore_append]

/-! ### Going back by index -/

/-- The word at an index, if there is one. There is no answer, not even that the token is no
word, if it does not exist. -/
def wordAt? (tokens : List Token) (i : Nat) : Option (Option (String × Nat)) :=
  tokens[i]?.map fun t => t.word?.map (·, i)

/-- The word that is joined to what stands at an index, if there is one, and its own index.
There is no answer if a token is looked up that does not exist. -/
def linkBefore? (tokens : List Token) : Nat → Option (Option (String × Nat))
  | start + 2 =>
    tokens[start + 1]?.bind fun point =>
      if point.isSymbol '.' then
        tokens[start]?.bind fun last =>
          if last.isSymbol '?' then
            match start with
            | 0 => some none
            | i + 1 => wordAt? tokens i
          else wordAt? tokens start
      else some none
  | _ => some none

theorem eq_of_wordAt? {i j : Nat} (h : wordAt? tokens i = some (some (w, j))) : j = i := by
  obtain ⟨t, -, ht⟩ := Option.map_eq_some_iff.1 h
  obtain ⟨w', -, heq⟩ := Option.map_eq_some_iff.1 ht
  exact (Prod.mk.inj heq).2.symm

theorem lt_of_linkBefore? {i : Nat} (h : linkBefore? tokens start = some (some (w, i))) :
    i < start := by
  match start, h with
  | start + 2, h =>
    obtain ⟨point, -, h⟩ := Option.bind_eq_some_iff.1 h
    split at h
    · obtain ⟨last, -, h⟩ := Option.bind_eq_some_iff.1 h
      split at h
      · cases start with
        | zero => cases h
        | succ j =>
          have := eq_of_wordAt? h
          omega
      · have := eq_of_wordAt? h
        omega
    · cases h

/-- Goes back from an index as long as a word is joined to what stands there, and collects the
words. -/
def goBack? (tokens : List Token) (words : List String) (start : Nat) :
    Option (List String × Nat) :=
  match _h : linkBefore? tokens start with
  | none => none
  | some none => some (words, start)
  | some (some (w, i)) => goBack? tokens (w :: words) i
termination_by start
decreasing_by exact lt_of_linkBefore? _h

theorem wordAt?_eq {i : Nat} (h : tokens[i]? = some t) :
    wordAt? tokens i = some (t.word?.map (·, i)) := by
  rw [wordAt?, h, Option.map_some]

theorem reverse_take_succ {i : Nat} (h : tokens[i]? = some t) :
    (tokens.take (i + 1)).reverse = t :: (tokens.take i).reverse := by
  rw [take_add_one, h, Option.toList_some, reverse_append]
  rfl

/-- One step back: no word is joined and the qualifier is empty, or the word is the last one of
the qualifier. -/
theorem linkBefore?_cases (hstart : start ≤ tokens.length) :
    (linkBefore? tokens start = some none ∧
      qualifierBefore (tokens.take start).reverse = ([], (tokens.take start).reverse)) ∨
    ∃ w i, linkBefore? tokens start = some (some (w, i)) ∧ i < start ∧
      qualifierBefore (tokens.take start).reverse =
        ((qualifierBefore (tokens.take i).reverse).1 ++ [w],
        (qualifierBefore (tokens.take i).reverse).2) := by
  match start with
  | 0 => exact .inl ⟨rfl, rfl⟩
  | 1 =>
    have hfirst : tokens[0]? = some tokens[0] := getElem?_eq_getElem _
    rw [reverse_take_succ hfirst]
    exact .inl ⟨rfl, rfl⟩
  | start + 2 =>
    have hpoint : tokens[start + 1]? = some tokens[start + 1] := getElem?_eq_getElem _
    have hlast : tokens[start]? = some tokens[start] := getElem?_eq_getElem _
    rw [reverse_take_succ hpoint, reverse_take_succ hlast]
    simp only [linkBefore?, hpoint, hlast, Option.bind_some]
    generalize tokens[start + 1] = point
    generalize tokens[start] = last at hlast
    -- what stands in front of a question mark is looked up only if the mark is not the first token
    by_cases hp : point.isSymbol '.'
    · by_cases hmark : last.isSymbol '?'
      · have hnone := word?_of_isSymbol hmark
        cases start with
        | zero => exact .inl ⟨by simp [hp, hmark], qualifierBefore_of_not_word hnone (fun _ => rfl)⟩
        | succ i =>
          have hfirst : tokens[i]? = some tokens[i] := getElem?_eq_getElem _
          simp only [hp, hmark, if_true, wordAt?_eq hfirst, reverse_take_succ hfirst]
          cases hw : tokens[i].word? with
          | none => exact .inl ⟨rfl, qualifierBefore_of_not_word hnone (fun _ => hw)⟩
          | some w => exact .inr ⟨w, i, rfl, by omega, qualifierBefore_safe hp hmark hw _⟩
      · simp only [hp, hmark, if_true, wordAt?_eq hlast]
        cases hw : last.word? with
        | none => exact .inl ⟨rfl, qualifierBefore_of_not_word hw (fun h => absurd h hmark)⟩
        | some w => exact .inr ⟨w, start, rfl, by omega, qualifierBefore_member hp hw _⟩
    · rw [if_neg hp]
      exact .inl ⟨rfl, qualifierBefore_of_not_point (eq_false_of_ne_true hp) _⟩

theorem goBack?_eq (hstart : start ≤ tokens.length) (words : List String) :
    goBack? tokens words start =
      some ((qualifierBefore (tokens.take start).reverse).1 ++ words,
        (qualifierBefore (tokens.take start).reverse).2.length) := by
  induction start using Nat.strongRecOn generalizing words with
  | ind start ih =>
    rcases linkBefore?_cases hstart with ⟨hlink, hqualifier⟩ | ⟨w, i, hlink, hlt, hqualifier⟩
    · rw [goBack?, hlink, hqualifier]
      simp [hstart]
    · rw [goBack?, hlink, hqualifier]
      simp [ih i hlt (by omega) (w :: words)]

/-! ### The longest chain -/

/-- The tokens from one index to another are a chain, and no longer chain ends there. -/
structure LongestChain (tokens : List Token) (start index : Nat) : Prop where
  le : start ≤ index
  chain : IsChain ((tokens.take index).drop start)
  longest : ∀ other ≤ index, IsChain ((tokens.take index).drop other) → start ≤ other

theorem IsChain.words_ne_nil (hrun : IsChain run) (hne : run ≠ []) :
    run.filterMap Token.word? ≠ [] := by
  obtain ⟨links, rfl, hlinks⟩ := hrun
  cases links with
  | nil => exact absurd rfl hne
  | cons link links =>
    rw [flatten_cons, filterMap_append]
    apply append_ne_nil_of_left_ne_nil
    cases hlinks link mem_cons_self with
    | member hword _ | safe hword _ _ =>
      obtain ⟨w, hw⟩ := Option.isSome_iff_exists.1 hword
      rw [filterMap_cons_some hw]
      exact cons_ne_nil _ _

theorem IsChain.qualifierText_words (hrun : IsChain run) :
    qualifierText (run.filterMap Token.word?) =
      if run.length = 0 then none else some (".".intercalate (run.filterMap Token.word?)) := by
  by_cases hempty : run = []
  · rw [hempty]
    rfl
  · rw [qualifierText, if_neg (by simpa using hrun.words_ne_nil hempty),
      if_neg (by simpa using hempty)]

theorem exists_chain_at (tokens : List Token) (index : Nat) :
    ∃ start ≤ index, IsChain ((tokens.take index).drop start) ∧
      qualifierBefore (tokens.take index).reverse =
        (((tokens.take index).drop start).filterMap Token.word?, (tokens.take start).reverse) := by
  obtain ⟨run, hrun, hbefore, hwords⟩ := exists_chain (tokens.take index).reverse
  generalize qualifierBefore (tokens.take index).reverse = result at hbefore hwords ⊢
  obtain ⟨words, front⟩ := result
  have htake : tokens.take index = front.reverse ++ run := by
    simpa using congrArg List.reverse hbefore
  have hle : front.length ≤ index := by
    have hlength := congrArg List.length htake
    simp only [length_take, length_append, length_reverse] at hlength
    omega
  have hdrop : (tokens.take index).drop front.length = run := by
    rw [htake]
    exact drop_left' length_reverse
  have hfront : tokens.take front.length = front.reverse := by
    calc tokens.take front.length
        = (tokens.take index).take front.length := by rw [take_take, Nat.min_eq_left hle]
      _ = front.reverse := by rw [htake, take_left' length_reverse]
  refine ⟨front.length, hle, ?_, ?_⟩
  · rwa [hdrop]
  · rw [hdrop, hfront, reverse_reverse]
    exact Prod.ext hwords rfl

theorem length_qualifierBefore_le (before : List Token) :
    (qualifierBefore before).2.length ≤ before.length := by
  obtain ⟨run, -, hbefore, -⟩ := exists_chain before
  have hlength := congrArg List.length hbefore
  rw [length_append] at hlength
  omega

theorem IsChain.start_le (hrun : IsChain ((tokens.take index).drop start)) :
    (qualifierBefore (tokens.take index).reverse).2.length ≤ start := by
  have hsplit : (tokens.take index).reverse =
      ((tokens.take index).drop start).reverse ++ ((tokens.take index).take start).reverse := by
    rw [← reverse_append, take_append_drop]
  rw [hsplit, hrun.qualifierBefore_append]
  calc (qualifierBefore ((tokens.take index).take start).reverse).2.length
      ≤ ((tokens.take index).take start).reverse.length := length_qualifierBefore_le _
    _ = ((tokens.take index).take start).length := length_reverse
    _ ≤ start := length_take_le _ _

/-- **The longest qualifier.** Going back from a name looks only at tokens that exist. It finds
the longest chain that ends in front of the name. The qualifier is made of the words of this
chain, in source order; there is none exactly if the chain is empty. -/
theorem qualifier_is_longest_chain (hindex : index ≤ tokens.length) :
    ∃ words start, goBack? tokens [] index = some (words, start) ∧
      qualifierBefore (tokens.take index).reverse = (words, (tokens.take start).reverse) ∧
      LongestChain tokens start index ∧
      qualifierText words =
        if start = index then none
        else some (".".intercalate (((tokens.take index).drop start).filterMap Token.word?)) := by
  obtain ⟨start, hle, hchain, hqualifier⟩ := exists_chain_at tokens index
  refine ⟨_, start, ?_, hqualifier, ⟨hle, hchain, ?_⟩, ?_⟩
  · rw [goBack?_eq hindex, hqualifier, append_nil, length_reverse, length_take_of_le (by omega)]
  · intro other _ hother
    have hstart := hother.start_le
    rwa [hqualifier, length_reverse, length_take_of_le (by omega)] at hstart
  · have hempty : ((tokens.take index).drop start).length = 0 ↔ start = index := by
      rw [length_drop, length_take_of_le hindex]
      omega
    rw [hchain.qualifierText_words]
    simp only [hempty]

def safeCallTokens : List Token :=
  [.word "x" default 1, .symbol '=' default 1, .word "a" default 1, .symbol '?' default 1,
    .symbol '.' default 1,
   .word "b" default 1, .symbol '.' default 1, .word "c" default 1]

theorem longestChain_safeCallTokens :
    goBack? safeCallTokens [] 7 = some (["a", "b"], 2) ∧ LongestChain safeCallTokens 2 7 ∧
      qualifierText ["a", "b"] = some "a.b" := by
  have hindex : 7 ≤ safeCallTokens.length := by decide
  obtain ⟨words, start, hback, hbefore, hlongest, -⟩ := qualifier_is_longest_chain hindex
  obtain rfl : ["a", "b"] = words := congrArg Prod.fst hbefore
  obtain rfl : start = 2 := by
    have hlength : 2 = (safeCallTokens.take start).reverse.length := congrArg (·.2.length) hbefore
    rw [length_reverse, length_take_of_le (Nat.le_trans hlongest.le hindex)] at hlength
    exact hlength.symm
  exact ⟨hback, hlongest, by decide⟩

end WitnessReplay.Source
