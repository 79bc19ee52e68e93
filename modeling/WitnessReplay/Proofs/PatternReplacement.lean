import WitnessReplay.Proofs.PatternTexts
import WitnessReplay.Text.Occurrence

/-!
# Replacing the matches of a pattern

The matches of a pattern in a text are replaced from left to right, and the search goes on
behind each match. A character that the pattern cannot take separates the text into two that
are replaced one by one. A repetition in front of a fixed text takes everything up to the last
place where the fixed text stands and the rest of the pattern still succeeds.
-/

namespace WitnessReplay.Text

open List

namespace Pattern

variable {β : Type} {k : CharClass} {p : Pattern} {write : List (List Char) → List Char}
    {s t u v : List Char} {c : Char}
  {m : Match}

/-- The text with every match replaced by what is written for the texts of its groups. A match
that takes nothing is passed over. -/
def replaceEach (p : Pattern) (write : List (List Char) → List Char) (s : List Char) : List Char :=
  match s with
  | [] => []
  | c :: r =>
    match p.match? (c :: r) with
    | some m =>
      if m.rest.length ≤ r.length then write (m.groups.map Group.text) ++ replaceEach p write m.rest
      else c :: replaceEach p write r
    | none => c :: replaceEach p write r
termination_by s.length

/-! ### Where a match is replaced -/

@[simp] theorem replaceEach_nil (p : Pattern) (write : List (List Char) → List Char) :
    p.replaceEach write [] = [] := by
  rw [replaceEach]

theorem replaceEach_of_match (h : p.match? s = some m) (hrest : m.rest.length < s.length) :
    p.replaceEach write s = write (m.groups.map Group.text) ++ p.replaceEach write m.rest := by
  cases s with
  | nil => exact absurd hrest (Nat.not_lt_zero _)
  | cons c r =>
    rw [replaceEach, h]
    exact if_pos (Nat.le_of_lt_succ hrest)

theorem replaceEach_of_none (h : p.match? (c :: s) = none) :
    p.replaceEach write (c :: s) = c :: p.replaceEach write s := by
  rw [replaceEach, h]

theorem replaceEach_of_forall_none (h : ∀ v, v ≠ [] → v <:+ u → p.match? (v ++ s) = none) :
    p.replaceEach write (u ++ s) = u ++ p.replaceEach write s := by
  induction u with
  | nil => rfl
  | cons c u ih =>
    have hlater := ih fun v hv hsuffix => h v hv (suffix_cons_iff.2 (.inr hsuffix))
    have hhere := h (c :: u) (cons_ne_nil c u) (suffix_refl _)
    rw [cons_append] at hhere ⊢
    rw [replaceEach_of_none hhere, hlater, cons_append]

theorem replaceEach_of_not_occurs (h : ¬ p.Occurs s) : p.replaceEach write s = s := by
  have hnone : ∀ v, v ≠ [] → v <:+ s → p.match? (v ++ []) = none := by
    intro v _ hsuffix
    rw [append_nil, ← Option.not_isSome_iff_eq_none, isSome_match?_iff]
    rintro ⟨t, ht, hstarts⟩
    exact h ⟨t, ht, hstarts.isInfix.trans hsuffix.isInfix⟩
  have hpass : p.replaceEach write (s ++ []) = s ++ p.replaceEach write [] :=
    replaceEach_of_forall_none hnone
  rwa [append_nil, replaceEach_nil, append_nil] at hpass

/-- A character that the pattern never takes separates the matches in front of it from those
behind it. -/
theorem replaceEach_append (hp : p.avoids c) (u v : List Char) :
    p.replaceEach write (u ++ c :: v) = p.replaceEach write u ++ p.replaceEach write (c :: v) := by
  cases u with
  | nil => rw [replaceEach_nil, nil_append, nil_append]
  | cons d u =>
    have hmatch := match?_append hp (u := d :: u) (v := v)
    rw [cons_append] at hmatch
    rw [cons_append, replaceEach, replaceEach, hmatch]
    cases p.match? (d :: u) with
    | none => exact congrArg (d :: ·) (replaceEach_append hp u v)
    | some m =>
      have hlength : (m.before (c :: v)).rest.length ≤ (u ++ c :: v).length ↔
          m.rest.length ≤ u.length := by
        simp only [Match.before, length_append]
        omega
      simp only [Option.map_some, hlength, map_text_before]
      split
      · rw [append_assoc]
        exact congrArg (_ ++ ·) (replaceEach_append hp m.rest v)
      · exact congrArg (d :: ·) (replaceEach_append hp u v)
termination_by u.length

/-! ### Repetitions in front of a fixed text -/

theorem run_group_many {remember : List Char → List Char → β → β} (next : List Char → Option β)
    (s : List Char) :
    (group (many k)).run remember next s =
      (tryMany k (fun rest => (next rest).map (·, rest)) s).map fun m => remember s m.2 m.1 := rfl

theorem tryMany_eq_none {next : List Char → Option β} (h : ∀ t r, s = t ++ r → next r = none) :
    tryMany k next s = none := by
  rw [Option.eq_none_iff_forall_ne_some]
  intro m hm
  obtain ⟨t, r, hs, -, hr⟩ := exists_of_tryMany hm
  rw [h t r hs] at hr
  cases hr

theorem tryMany_of_last {next : List Char → Option β} {part : List Char} {f : List Char → β}
    (hpart : part ≠ [])
    (hu : ∀ c ∈ u, k.contains c) (hv : tryMany k next v = none)
    (hnext : ∀ w, w ≠ [] → w <:+ u → next (w ++ v) = if part.isPrefixOf w then
    some (f (w.drop part.length)) else none) :
    tryMany k next (u ++ v) = (splitAtLast? part u).map fun split => f split.2 := by
  induction u with
  | nil =>
    have hempty : part.isEmpty = false := isEmpty_eq_false_iff.2 hpart
    simp [splitAtLast?, hempty, hv]
  | cons c u ih =>
    obtain ⟨hc, hu⟩ := forall_mem_cons.1 hu
    have hlater := ih hu fun w hw hsuffix => hnext w hw (suffix_cons_iff.2 (.inr hsuffix))
    have hhere := hnext (c :: u) (cons_ne_nil c u) (suffix_refl _)
    rw [cons_append] at hhere
    rw [cons_append, tryMany, if_pos hc, hlater, hhere, splitAtLast?]
    cases splitAtLast? part u with
    | some split => rfl
    | none => split <;> rfl

section Groups

variable {remember : List Char → List Char → β → β} {next : List Char → Option β}
    {part : List Char} {f : List Char → β}

/-- A remembered repetition and a fixed text behind it: the repetition ends at the last place
of the text in `u`, if the rest succeeds behind every place of the text in `u` and behind none
that is further on. -/
theorem run_group_many_text (hpart : part ≠ []) (hu : ∀ c ∈ u, k.contains c)
    (hv : ∀ c ∈ v.head?, c ∉ part) (hnone : ∀ a b, v = a ++ part ++ b → next b = none)
    (hnext : ∀ a b, u = a ++ part ++ b → next (b ++ v) = some (f b)) :
    (group (many k)).run remember ((text part).run remember next) (u ++ v) =
      (splitAtLast? part u).map fun split =>
      remember (u ++ v) (part ++ split.2 ++ v) (f split.2) := by
  have hstarts : ∀ w, part.isPrefixOf (w ++ v) = part.isPrefixOf w := by
    intro w
    cases v with
    | nil => rw [append_nil]
    | cons c v => exact isPrefixOf_append (hv c rfl)
  rw [run_group_many, tryMany_of_last (f := fun b => (f b, part ++ b ++ v)) hpart hu]
  · rw [Option.map_map]
    rfl
  · refine tryMany_eq_none fun a r hr => ?_
    rw [run]
    split
    · rename_i hstart
      obtain ⟨b, rfl⟩ := List.isPrefixOf_iff_prefix.1 hstart
      rw [drop_left, hnone a b (by rw [hr, append_assoc]), Option.map_none]
    · rfl
  · intro w _ hsuffix
    rw [run, hstarts]
    split
    · rename_i hstart
      obtain ⟨b, rfl⟩ := List.isPrefixOf_iff_prefix.1 hstart
      obtain ⟨a, ha⟩ := hsuffix
      rw [append_assoc, drop_left, drop_left,
        hnext a b (by rw [← ha, append_assoc]), Option.map_some, append_assoc]
    · rfl

end Groups

end Pattern

/-! ### Replacing a fixed text -/

section FixedText

open Pattern

variable {old new s u v : List Char} {c : Char}

/-- The text with every occurrence of one text replaced by another, from left to right. -/
def replaceText (old new : List Char) : List Char → List Char :=
  (Pattern.text old).replaceEach fun _ => new

theorem match?_text (old s : List Char) :
    (Pattern.text old).match? s = if old.isPrefixOf s then some ⟨[], s.drop old.length⟩ else
    none := rfl

theorem replaceText_append_self (hold : old ≠ []) (s : List Char) :
    replaceText old new (old ++ s) = new ++ replaceText old new s := by
  have hmatch : (Pattern.text old).match? (old ++ s) = some ⟨[], s⟩ := by
    rw [match?_text, if_pos (List.isPrefixOf_iff_prefix.2 (prefix_append old s)), drop_left]
  have hlength : 0 < old.length := length_pos_iff.2 hold
  apply replaceEach_of_match hmatch
  rw [length_append]
  exact Nat.lt_add_of_pos_left hlength

theorem replaceText_cons (h : old.isPrefixOf (c :: s) = false) :
    replaceText old new (c :: s) = c :: replaceText old new s := by
  apply replaceEach_of_none
  rw [match?_text, h]
  rfl

/-- An occurrence does not reach into a text that starts with a character from elsewhere. -/
theorem replaceText_append (hold : old ≠ []) (hv : ∀ c ∈ v.head?, c ∉ old.tail) (u : List Char) :
    replaceText old new (u ++ v) = replaceText old new u ++ replaceText old new v := by
  have hsame (c : Char) (w : List Char) :
      old.isPrefixOf (c :: (w ++ v)) = old.isPrefixOf (c :: w) := by
    cases old with
    | nil => rfl
    | cons d more =>
      cases v with
      | nil => rw [append_nil]
      | cons e v =>
        have hmore : e ∉ more := hv e rfl
        rw [List.isPrefixOf, isPrefixOf_append hmore, List.isPrefixOf]
  match u with
  | [] => rw [replaceText, replaceEach_nil, nil_append, nil_append]
  | c :: u =>
    by_cases hstart : old.isPrefixOf (c :: u) = true
    · obtain ⟨r, hr⟩ := List.isPrefixOf_iff_prefix.1 hstart
      have hshorter : r.length < (c :: u).length := by
        rw [← hr, length_append]
        exact Nat.lt_add_of_pos_left (length_pos_iff.2 hold)
      rw [← hr, append_assoc, replaceText_append_self hold, replaceText_append_self hold,
        append_assoc, replaceText_append hold hv r]
    · rw [Bool.not_eq_true] at hstart
      rw [cons_append, replaceText_cons ((hsame c u).trans hstart), replaceText_cons hstart,
        replaceText_append hold hv u, cons_append]
termination_by u.length
decreasing_by
  · exact hshorter
  · exact Nat.lt_succ_self _

theorem replaceText_cons_of_notMem (hold : old ≠ []) (hc : c ∉ old) (s : List Char) :
    replaceText old new (c :: s) = c :: replaceText old new s := by
  obtain ⟨d, more, rfl⟩ := exists_cons_of_ne_nil hold
  have hne : d ≠ c := fun h => hc (h ▸ mem_cons_self)
  apply replaceText_cons
  simp [List.isPrefixOf, hne]

/-- Where a text stands for a character, it may be written in place of the character anywhere. -/
theorem replaceText_singleton (hold : ∀ d ∈ old.head?, d ∉ old.tail) (hne : old ≠ [])
    (hc : c ∉ old) (u v : List Char) :
    replaceText old [c] (u ++ (old ++ v)) = replaceText old [c] (u ++ c :: v) := by
  have hwritten : ∀ d ∈ (old ++ v).head?, d ∉ old.tail := by
    rw [head?_append_of_ne_nil old hne]
    exact hold
  have hplain : ∀ d ∈ (c :: v).head?, d ∉ old.tail := by
    intro d hd hmem
    cases Option.some.inj hd
    exact hc (mem_of_mem_tail hmem)
  rw [replaceText_append hne hwritten, replaceText_append hne hplain, replaceText_append_self hne,
    replaceText_cons_of_notMem hne hc]
  rfl

end FixedText

end WitnessReplay.Text
