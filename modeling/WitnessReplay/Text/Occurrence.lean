/-!
# Occurrences of one text in another
-/

namespace WitnessReplay.Text

def occursIn (part : List Char) : List Char → Bool
  | [] => part.isEmpty
  | c :: r => part.isPrefixOf (c :: r) || occursIn part r

def contains (s part : String) : Bool :=
  occursIn part.toList s.toList

theorem occursIn_iff {part s : List Char} : occursIn part s = true ↔ part <:+: s := by
  induction s with
  | nil => simp [occursIn]
  | cons c r ih =>
    rw [occursIn, Bool.or_eq_true, List.isPrefixOf_iff_prefix, ih, List.infix_cons_iff]

/-- What stands in front of the first occurrence of `part`, and what stands behind it. -/
def splitAtFirst? (part : List Char) (s : List Char) : Option (List Char × List Char) :=
  if part.isPrefixOf s then some ([], s.drop part.length)
  else
    match s with
    | [] => none
    | c :: r => (splitAtFirst? part r).map fun (before, behind) => (c :: before, behind)

/-- What stands in front of the last occurrence of `part`, and what stands behind it. -/
def splitAtLast? (part : List Char) : List Char → Option (List Char × List Char)
  | [] => if part.isEmpty then some ([], []) else none
  | c :: r =>
    match splitAtLast? part r with
    | some (before, behind) => some (c :: before, behind)
    | none => if part.isPrefixOf (c :: r) then some ([], (c :: r).drop part.length) else none

theorem eq_of_splitAtFirst? {part s before behind : List Char}
    (h : splitAtFirst? part s = some (before, behind)) :
    s = before ++ part ++ behind := by
  induction s generalizing before with
  | nil =>
    unfold splitAtFirst? at h
    split at h
    · rename_i hp
      obtain ⟨t, ht⟩ := List.isPrefixOf_iff_prefix.1 hp
      simp_all
    · cases h
  | cons c r ih =>
    unfold splitAtFirst? at h
    split at h
    · rename_i hp
      obtain ⟨t, ht⟩ := List.isPrefixOf_iff_prefix.1 hp
      cases h
      simp [← ht]
    · obtain ⟨⟨before', behind'⟩, hr, heq⟩ := Option.map_eq_some_iff.1 h
      cases heq
      simp [ih hr]

theorem eq_of_splitAtLast? {part s before behind : List Char}
    (h : splitAtLast? part s = some (before, behind)) :
    s = before ++ part ++ behind := by
  induction s generalizing before with
  | nil =>
    unfold splitAtLast? at h
    split at h
    · cases h
      simp_all
    · cases h
  | cons c r ih =>
    unfold splitAtLast? at h
    split at h
    · rename_i hr
      cases h
      simp [ih hr]
    · split at h
      · rename_i hp
        obtain ⟨t, ht⟩ := List.isPrefixOf_iff_prefix.1 hp
        cases h
        simp [← ht]
      · cases h

end WitnessReplay.Text
