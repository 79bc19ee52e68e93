import WitnessReplay.Proofs.PatternTexts
import WitnessReplay.Text.Occurrence

/-!
# The places where a text stands

Places in a text are counted from its start. The first and the last place of one text in
another are where the other one is split at its first and last occurrence.
-/

namespace WitnessReplay.Text

open List

variable {part s t a b : List Char} {c : Char} {i n : Nat}

def standsAt (part s : List Char) (i : Nat) : Bool :=
  part.isPrefixOf (s.drop i)

def firstPlace? (part s : List Char) : Option Nat :=
  (List.range s.length).find? (standsAt part s)

def lastPlace? (part s : List Char) : Nat → Option Nat
  | 0 => none
  | n + 1 => if standsAt part s n then some n else lastPlace? part s n

theorem standsAt_append (part a s : List Char) (i : Nat) :
    standsAt part (a ++ s) (a.length + i) = standsAt part s i := by
  rw [standsAt, drop_length_add_append, standsAt]

theorem lt_of_lastPlace? (h : lastPlace? part s n = some i) : i < n := by
  induction n with
  | zero => cases h
  | succ n ih =>
    rw [lastPlace?] at h
    split at h
    · obtain rfl := Option.some.inj h
      exact Nat.lt_succ_self _
    · exact Nat.lt_succ_of_lt (ih h)

/-! ### Splitting at a place -/

theorem firstPlace?_cons (part : List Char) (c : Char) (s : List Char) :
    firstPlace? part (c :: s) = if part.isPrefixOf (c :: s) then some 0 else
    (firstPlace? part s).map (· + 1) := by
  have hhere : standsAt part (c :: s) 0 = part.isPrefixOf (c :: s) := rfl
  have hlater : standsAt part (c :: s) ∘ Nat.succ = standsAt part s := rfl
  rw [firstPlace?, length_cons, range_succ_eq_map, find?_cons, find?_map, hhere, hlater]
  cases part.isPrefixOf (c :: s) <;> rfl

theorem lastPlace?_cons (part : List Char) (c : Char) (s : List Char) (n : Nat) :
    lastPlace? part (c :: s) (n + 1) =
      ((lastPlace? part s n).map (· + 1)).or (if part.isPrefixOf (c :: s) then some 0 else
      none) := by
  induction n with
  | zero => rfl
  | succ n ih =>
    have hplace : standsAt part (c :: s) (n + 1) = standsAt part s n := rfl
    rw [lastPlace?, ih, hplace, lastPlace?]
    split <;> rfl

theorem length_splitAtFirst? (hpart : part ≠ []) (s : List Char) :
    (splitAtFirst? part s).map (·.1.length) = firstPlace? part s := by
  induction s with
  | nil =>
    obtain ⟨d, part, rfl⟩ := exists_cons_of_ne_nil hpart
    rfl
  | cons c s ih =>
    rw [splitAtFirst?, firstPlace?_cons, ← ih]
    split
    · rfl
    · rw [Option.map_map, Option.map_map]
      rfl

theorem length_splitAtLast? (hpart : part ≠ []) (s : List Char) :
    (splitAtLast? part s).map (·.1.length) = lastPlace? part s s.length := by
  induction s with
  | nil =>
    have hempty : part.isEmpty = false := isEmpty_eq_false_iff.2 hpart
    simp [splitAtLast?, hempty, lastPlace?]
  | cons c s ih =>
    rw [splitAtLast?, length_cons, lastPlace?_cons, ← ih]
    cases splitAtLast? part s with
    | some split => rfl
    | none =>
      by_cases hstart : part.isPrefixOf (c :: s) = true
      · rw [if_pos hstart, if_pos hstart]
        rfl
      · rw [if_neg hstart, if_neg hstart]
        rfl

/-! ### Places in a part of the text -/

theorem lastPlace?_append_iff :
    lastPlace? part (a ++ s) (a.length + n) = some (a.length + i) ↔
      lastPlace? part s n = some i := by
  induction n with
  | zero =>
    constructor
    · intro h
      have hlt := lt_of_lastPlace? h
      omega
    · intro h
      cases h
  | succ n ih =>
    rw [← Nat.add_assoc, lastPlace?, lastPlace?, standsAt_append]
    split
    · rw [Option.some.injEq, Option.some.injEq, Nat.add_left_cancel_iff]
    · exact ih

theorem lastPlace?_singleton_append (c : Char) (s t : List Char) (hn : n ≤ s.length) :
    lastPlace? [c] (s ++ t) n = lastPlace? [c] s n := by
  induction n with
  | zero => rfl
  | succ n ih =>
    have hplace : standsAt [c] (s ++ t) n = standsAt [c] s n := by
      rw [standsAt, standsAt, drop_append_of_le_length (Nat.le_of_lt hn), drop_eq_getElem_cons hn]
      rfl
    rw [lastPlace?, lastPlace?, hplace, ih (Nat.le_of_lt hn)]

/-! ### The first occurrence -/

theorem not_infix_of_splitAtFirst? (h : splitAtFirst? part s = none) : ¬ part <:+: s := by
  induction s with
  | nil =>
    rw [splitAtFirst?] at h
    split at h
    · cases h
    · rename_i hstart
      rw [List.isPrefixOf_iff_prefix, prefix_nil] at hstart
      rwa [infix_nil]
  | cons c s ih =>
    rw [splitAtFirst?] at h
    split at h
    · cases h
    · rename_i hstart
      rw [List.isPrefixOf_iff_prefix] at hstart
      rw [infix_cons_iff]
      exact not_or.2 ⟨hstart, ih (Option.map_eq_none_iff.1 h)⟩

theorem isPrefixOf_of_splitAtFirst? (h : splitAtFirst? part s = some (a, b)) {u : List Char}
    (hne : u ≠ []) (hu : u <:+ a) :
    part.isPrefixOf (u ++ part ++ b) = false := by
  induction s generalizing a with
  | nil =>
    rw [splitAtFirst?] at h
    split at h
    · cases h
      exact absurd (suffix_nil.1 hu) hne
    · cases h
  | cons c s ih =>
    have hs := eq_of_splitAtFirst? h
    rw [splitAtFirst?] at h
    split at h
    · cases h
      exact absurd (suffix_nil.1 hu) hne
    · rename_i hstart
      obtain ⟨⟨before, behind⟩, hlater, heq⟩ := Option.map_eq_some_iff.1 h
      cases heq
      rcases suffix_cons_iff.1 hu with rfl | hu
      · rw [← hs]
        exact Bool.eq_false_iff.2 hstart
      · exact ih hlater hu

theorem splitAtFirst?_concat (hpart : part ≠ []) (hc : c ∉ part) (s : List Char) :
    splitAtFirst? part (s ++ [c]) = (splitAtFirst? part s).map fun split =>
    (split.1, split.2 ++ [c]) := by
  induction s with
  | nil =>
    obtain ⟨d, part, rfl⟩ := exists_cons_of_ne_nil hpart
    have hne : d ≠ c := fun h => hc (h ▸ mem_cons_self)
    simp [splitAtFirst?, hne]
  | cons d s ih =>
    have hstart : part.isPrefixOf (d :: s ++ [c]) = part.isPrefixOf (d :: s) :=
      Pattern.isPrefixOf_append hc
    rw [cons_append] at hstart
    rw [cons_append, splitAtFirst?, hstart, ih, splitAtFirst?]
    split
    · rename_i hfound
      have hlength := (List.isPrefixOf_iff_prefix.1 hfound).length_le
      rw [← cons_append, drop_append_of_le_length hlength, Option.map_some]
    · rw [Option.map_map, Option.map_map]
      rfl

/-! ### The last occurrence -/

theorem splitAtLast?_concat (hpart : part ≠ []) (hc : c ∉ part) (s : List Char) :
    splitAtLast? part (s ++ [c]) = (splitAtLast? part s).map fun split =>
    (split.1, split.2 ++ [c]) := by
  induction s with
  | nil =>
    obtain ⟨d, part, rfl⟩ := exists_cons_of_ne_nil hpart
    have hne : d ≠ c := fun h => hc (h ▸ mem_cons_self)
    simp [splitAtLast?, hne]
  | cons d s ih =>
    have hstart : part.isPrefixOf (d :: s ++ [c]) = part.isPrefixOf (d :: s) :=
      Pattern.isPrefixOf_append hc
    rw [cons_append] at hstart
    rw [cons_append, splitAtLast?, hstart, ih, splitAtLast?]
    rcases splitAtLast? part s with - | ⟨front, back⟩
    · by_cases hfound : part.isPrefixOf (d :: s) = true
      · have hlength := (List.isPrefixOf_iff_prefix.1 hfound).length_le
        simp only [hfound, Option.map_none, if_true, Option.map_some]
        rw [← cons_append, drop_append_of_le_length hlength]
      · simp only [hfound, Option.map_none, if_false, Bool.false_eq_true]
    · rfl

theorem splitAtLast?_append_iff :
    splitAtLast? part (a ++ s) = some (a ++ b, t) ↔ splitAtLast? part s = some (b, t) := by
  induction a with
  | nil => exact Iff.rfl
  | cons c a ih =>
    rw [← ih, cons_append, splitAtLast?]
    rcases splitAtLast? part (a ++ s) with - | ⟨front, back⟩
    · by_cases hstart : part.isPrefixOf (c :: (a ++ s)) = true <;> simp [hstart]
    · simp

/-- Where a text occurs, it has a last occurrence, which is not in front of the given one. -/
theorem exists_splitAtLast? (hs : s = a ++ part ++ b) : ∃ rest back, splitAtLast? part s = some
    (a ++ rest, back) := by
  induction a generalizing s with
  | nil =>
    obtain ⟨⟨front, back⟩, hsplit⟩ : ∃ split, splitAtLast? part s = some split := by
      cases s with
      | nil =>
        have hpart : part = [] := (append_eq_nil_iff.1 hs.symm).1
        rw [splitAtLast?, hpart]
        exact ⟨_, rfl⟩
      | cons c s =>
        have hstart : part.isPrefixOf (c :: s) = true := List.isPrefixOf_iff_prefix.2 ⟨b, hs.symm⟩
        rw [splitAtLast?, hstart]
        cases splitAtLast? part s with
        | some split => exact ⟨_, rfl⟩
        | none => exact ⟨_, rfl⟩
    exact ⟨front, back, hsplit⟩
  | cons c a ih =>
    obtain ⟨rest, back, hlater⟩ := ih (s := a ++ part ++ b) rfl
    refine ⟨rest, back, ?_⟩
    rw [hs, cons_append, cons_append, splitAtLast?, hlater]
    rfl

theorem length_le_of_splitAtLast? {front back : List Char}
    (h : splitAtLast? part s = some (front, back))
    (hs : s = a ++ part ++ b) : a.length ≤ front.length := by
  obtain ⟨rest, back', hlast⟩ := exists_splitAtLast? hs
  rw [hlast] at h
  cases h
  rw [length_append]
  exact Nat.le_add_right _ _

theorem splitAtLast?_eq_none_of_lt {front back : List Char}
    (h : splitAtLast? part s = some (front, back)) (hs : s = a ++ b)
    (hlt : front.length < a.length) : splitAtLast? part b = none := by
  rw [Option.eq_none_iff_forall_ne_some]
  rintro ⟨c, d⟩ hlater
  have hle : (a ++ c).length ≤ front.length := by
    apply length_le_of_splitAtLast? (b := d) h
    rw [hs, eq_of_splitAtLast? hlater]
    simp only [append_assoc]
  rw [length_append] at hle
  omega

end WitnessReplay.Text
