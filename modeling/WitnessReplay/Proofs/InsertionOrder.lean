import Mathlib.Data.List.Induction
import WitnessReplay.OrderedMap

/-!
# Maps filled entry by entry

A map that is filled one entry after another gives each key the value of the last entry with
that key, and it lists the keys as they first occur. Both are seen by adding entries at the
end.
-/

namespace WitnessReplay.OrderedMap

open List

variable {α β γ : Type} [DecidableEq α] {m : OrderedMap α β} {a : α} {b : β}

theorem insertAll_concat (m : OrderedMap α β) (entries : List (α × β)) (e : α × β) :
    m.insertAll (entries ++ [e]) = (m.insertAll entries).insert e.1 e.2 := by
  unfold insertAll
  rw [foldl_append]
  rfl

/-! ### Values -/

def lastValue? (entries : List (α × β)) (a : α) : Option β :=
  (entries.filter (·.1 = a)).getLast?.map (·.2)

theorem lastValue?_concat (entries : List (α × β)) (e : α × β) (a : α) :
    lastValue? (entries ++ [e]) a = if a = e.1 then some e.2 else lastValue? entries a := by
  unfold lastValue?
  rw [filter_append]
  by_cases h : a = e.1
  · simp [h]
  · simp [h, Ne.symm h]

theorem get?_insertAll (m : OrderedMap α β) (entries : List (α × β)) (a : α) :
    (m.insertAll entries).get? a = (lastValue? entries a).or (m.get? a) := by
  induction entries using List.reverseRecOn with
  | nil => rfl
  | append_singleton entries e ih =>
    rw [insertAll_concat, get?_insert, lastValue?_concat, ih]
    split <;> rfl

theorem get?_ofList (entries : List (α × β)) (a : α) :
    (ofList entries).get? a = lastValue? entries a := by
  rw [ofList, get?_insertAll, get?_empty, Option.or_none]

theorem get?_insertNew (m : OrderedMap α β) (a a' : α) (b : β) :
    (m.insertNew a b).get? a' = (m.get? a').or (if a' = a then some b else none) := by
  unfold insertNew
  split
  · rename_i hold
    obtain ⟨b', hb'⟩ := Option.isSome_iff_exists.1 hold
    by_cases h : a' = a
    · rw [h, hb', Option.some_or]
    · rw [if_neg h, Option.or_none]
  · rename_i hnew
    have hnone : m.get? a = none := Option.not_isSome_iff_eq_none.1 hnew
    rw [get?_insert]
    by_cases h : a' = a
    · rw [if_pos h, if_pos h, h, hnone, Option.none_or]
    · rw [if_neg h, if_neg h, Option.or_none]

/-- Elements that give at most one entry each: the last one that gives an entry for the key
decides. -/
theorem lastValue?_filterMap_key (key : γ → Option α) (value : γ → β) (xs : List γ) (a : α) :
    lastValue? (xs.filterMap fun x => (key x).map (·, value x)) a =
      (xs.filter (key · = some a)).getLast?.map value := by
  induction xs using List.reverseRecOn with
  | nil => rfl
  | append_singleton xs x ih =>
    rw [filterMap_append, filter_append]
    cases hx : key x with
    | none => simpa [hx] using ih
    | some a' =>
      have hlast : [x].filterMap (fun x => (key x).map (·, value x)) = [(a', value x)] := by
        simp [hx]
      rw [hlast, lastValue?_concat, ih]
      by_cases h : a = a'
      · simp [hx, h]
      · simp [hx, h, Ne.symm h]

section FilterMap

variable {P : γ → Bool} {f : γ → Option β}

/-- Elements that give entries for their own keys, some of them: the last one with a key that
gives an entry decides. -/
theorem lastValue?_filterMap (hf : ∀ x, (f x).isSome = P x) (xs : List (α × γ)) (a : α) :
    lastValue? (xs.filterMap fun x => (f x.2).map (x.1, ·)) a =
      ((xs.filter fun x => x.1 = a ∧ P x.2).getLast?.map (·.2)).bind f := by
  induction xs using List.reverseRecOn with
  | nil => rfl
  | append_singleton xs x ih =>
    rw [filterMap_append, filter_append]
    have hx := hf x.2
    cases hfx : f x.2 with
    | none =>
      rw [hfx] at hx
      simpa [hfx, ← hx] using ih
    | some b =>
      rw [hfx] at hx
      have hlast : [x].filterMap (fun x => (f x.2).map (x.1, ·)) = [(x.1, b)] := by simp [hfx]
      rw [hlast, lastValue?_concat, ih]
      by_cases h : x.1 = a
      · simp [hfx, h, ← hx]
      · simp [h, Ne.symm h]

omit [DecidableEq α] in
theorem map_filterMap (hf : ∀ x, (f x).isSome = P x) (xs : List (α × γ)) :
    (xs.filterMap fun x => (f x.2).map (x.1, ·)).map (·.1) = (xs.filter (P ·.2)).map (·.1) := by
  induction xs with
  | nil => rfl
  | cons x xs ih =>
    have hx := hf x.2
    cases hfx : f x.2 with
    | none => simp_all
    | some b => simp_all

end FilterMap

/-! ### Keys -/

theorem mem_keys_iff : a ∈ m.keys ↔ m.contains a := by
  simp [keys, contains, get?, find?_isSome]

theorem map_insertEntry (a : α) (b : β) (entries : List (α × β)) :
    (insertEntry a b entries).map (·.1) =
      if a ∈ entries.map (·.1) then entries.map (·.1) else entries.map (·.1) ++ [a] := by
  induction entries with
  | nil => rfl
  | cons e rest ih =>
    by_cases h : e.1 = a
    · simp [insertEntry, h]
    · rw [insertEntry, if_neg h, map_cons, ih, map_cons]
      by_cases hrest : a ∈ rest.map (·.1)
      · rw [if_pos hrest, if_pos (mem_cons_of_mem _ hrest)]
      · rw [if_neg hrest, if_neg (not_mem_cons_of_ne_of_not_mem (Ne.symm h) hrest)]
        rfl

theorem keys_insert (m : OrderedMap α β) (a : α) (b : β) :
    (m.insert a b).keys = if a ∈ m.keys then m.keys else m.keys ++ [a] :=
  map_insertEntry a b m.entries

theorem eraseDups_concat (xs : List α) (a : α) :
    (xs ++ [a]).eraseDups = if a ∈ xs then xs.eraseDups else xs.eraseDups ++ [a] := by
  rw [eraseDups_append]
  by_cases h : a ∈ xs
  · simp [List.removeAll, h]
  · simp [List.removeAll, h, eraseDups_cons]

theorem keys_insertAll (m : OrderedMap α β) (entries : List (α × β)) :
    (m.insertAll entries).keys = m.keys ++ (entries.map (·.1)).eraseDups.filter (· ∉ m.keys) := by
  induction entries using List.reverseRecOn with
  | nil => exact (append_nil _).symm
  | append_singleton entries e ih =>
    rw [insertAll_concat, keys_insert, ih, map_append, map_singleton, eraseDups_concat]
    by_cases hold : e.1 ∈ m.keys
    · rw [if_pos (mem_append_left _ hold)]
      split
      · rfl
      · simp [hold]
    · by_cases hseen : e.1 ∈ entries.map (·.1)
      · have hkey : e.1 ∈ (entries.map (·.1)).eraseDups.filter (· ∉ m.keys) :=
          mem_filter.2 ⟨mem_eraseDups.2 hseen, by simpa using hold⟩
        rw [if_pos hseen, if_pos (mem_append_right _ hkey)]
      · have hkey : e.1 ∉ (entries.map (·.1)).eraseDups.filter (· ∉ m.keys) :=
          fun h => hseen (mem_eraseDups.1 (mem_filter.1 h).1)
        rw [if_neg hseen, if_neg (not_mem_append hold hkey), filter_append, append_assoc]
        simp [hold]

theorem keys_ofList (entries : List (α × β)) :
    (ofList entries).keys = (entries.map (·.1)).eraseDups := by
  have hkeys := keys_insertAll ∅ entries
  have hempty : (∅ : OrderedMap α β).keys = [] := rfl
  rw [hempty, nil_append, filter_eq_self.2 (by simp)] at hkeys
  exact hkeys

theorem nodup_keys_insert (h : m.keys.Nodup) : (m.insert a b).keys.Nodup := by
  rw [keys_insert]
  split
  · exact h
  · rename_i hnew
    exact nodup_append.2 ⟨h, by simp, fun x hx y hy hxy =>
      hnew (mem_singleton.1 hy ▸ hxy ▸ hx)⟩

theorem nodup_keys_insertAll (h : m.keys.Nodup) (entries : List (α × β)) :
    (m.insertAll entries).keys.Nodup := by
  induction entries using List.reverseRecOn with
  | nil => exact h
  | append_singleton entries e ih =>
    rw [insertAll_concat]
    exact nodup_keys_insert ih

theorem entries_eq (h : m.keys.Nodup) :
    m.entries.map (fun e => (e.1, some e.2)) = m.keys.map fun a => (a, m.get? a) := by
  rw [keys, map_map]
  refine map_congr_left fun e he => ?_
  have hfound : m.entries.find? (fun x => x.1 = e.1) = some e := by
    obtain ⟨before, after, hsplit⟩ := append_of_mem he
    rw [keys, hsplit, map_append, nodup_append] at h
    refine find?_eq_some_iff_append.2 ⟨by simp, before, after, hsplit, fun x hx => ?_⟩
    have hne := h.2.2 x.1 (mem_map_of_mem hx) e.1 (by simp)
    simpa using hne
  simp [get?, hfound]

/-- The values stand in the order in which their keys first occur, and each is the last one of
its key. -/
theorem values_ofList (entries : List (α × β)) :
    (ofList entries).values = (entries.map (·.1)).eraseDups.filterMap (lastValue? entries) := by
  have hempty : (∅ : OrderedMap α β).keys.Nodup := nodup_nil
  have hnodup : (ofList entries).keys.Nodup := nodup_keys_insertAll hempty entries
  have hvalues := congrArg (List.filterMap (·.2)) (entries_eq hnodup)
  rw [filterMap_map, filterMap_map, keys_ofList] at hvalues
  have hget : (ofList entries).get? = lastValue? entries := funext (get?_ofList entries)
  rw [← hget, values, ← filterMap_eq_map]
  exact hvalues

end WitnessReplay.OrderedMap
