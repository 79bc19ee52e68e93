import Mathlib.Algebra.Group.Nat.Defs
import WitnessReplay.Text.Place

/-!
# Line numbers

The line that is looked up for an offset is one more than the number of line feeds in front of
it, as far as 32 bits count. The search halves a part of the table that holds the border
between the lines that start up to the offset and the later ones; that the table is sorted
matters only in that there is one such border.
-/

namespace WitnessReplay.Text

/-- The first `k` entries of a table are at most `x`, and the others are greater. -/
structure PartedAt (table : Array Nat) (x k : Nat) : Prop where
  le_size : k ≤ table.size
  le_iff {i y : Nat} : table[i]? = some y → (y ≤ x ↔ i < k)

section Search

variable {table : Array Nat} {x k base size : Nat}

/-- The search keeps the last entry up to `x` among the entries that are left. -/
theorem lastUpTo_of_partedAt (h : PartedAt table x k) (hlow : base < k) (hhigh : k ≤ base + size)
    (hsize : base + size ≤ table.size) : lastUpTo table x base size = k - 1 := by
  induction size using Nat.strongRecOn generalizing base with
  | ind size ih =>
    rw [lastUpTo]
    split
    · omega
    · have hmid : base + size / 2 < table.size := by omega
      have hside := h.le_iff (Array.getElem?_eq_getElem hmid)
      simp only [Array.getElem?_eq_getElem hmid, Option.any_some]
      split
      · rename_i hlt
        have hlt := of_decide_eq_true hlt
        exact ih _ (by omega) hlow (by omega) (by omega)
      · rename_i hge
        have hge := Nat.le_of_not_lt fun hlt => hge (decide_eq_true hlt)
        exact ih _ (by omega) (hside.1 hge) (by omega) (by omega)

/-- What is searched for is the last entry up to it, or could be inserted behind that entry. -/
theorem binarySearch_of_partedAt (h : PartedAt table x k) (hpos : 0 < k) :
    binarySearch table x = if table[k - 1]? = some x then .ok (k - 1) else .error k := by
  have hsize := h.le_size
  have hlast : lastUpTo table x 0 table.size = k - 1 :=
    lastUpTo_of_partedAt h hpos (by omega) (by omega)
  obtain ⟨y, hy⟩ : ∃ y, table[k - 1]? = some y := ⟨_, Array.getElem?_eq_getElem (by omega)⟩
  have hle : y ≤ x := (h.le_iff hy).2 (by omega)
  rw [binarySearch, hlast, hy]
  simp only [Option.some.injEq]
  split
  · rfl
  · rw [if_pos (by omega), Nat.sub_add_cancel hpos]

end Search

namespace LineIndex

theorem startsFrom_append (offset : Nat) (a b : List Char) :
    startsFrom offset (a ++ b) = startsFrom offset a ++ startsFrom (offset + byteLength a) b := by
  induction a generalizing offset with
  | nil => rfl
  | cons c a ih =>
    rw [List.cons_append, startsFrom, startsFrom, ih, byteLength_cons, Nat.add_assoc]
    split <;> rfl

theorem length_startsFrom (offset : Nat) (s : List Char) :
    (startsFrom offset s).length = s.count '\n' := by
  induction s generalizing offset with
  | nil => rfl
  | cons c s ih =>
    rw [startsFrom, List.count_cons]
    split
    · rename_i hc
      rw [List.length_cons, ih, hc, beq_self_eq_true, if_pos rfl]
    · rename_i hc
      rw [ih, if_neg (by simpa using hc), Nat.add_zero]

theorem bounds_of_mem_startsFrom {offset n : Nat} {s : List Char} (h : n ∈ startsFrom offset s) :
    offset < n ∧ n ≤ offset + byteLength s := by
  induction s generalizing offset with
  | nil => cases h
  | cons c s ih =>
    have hpos := c.utf8Size_pos
    rw [byteLength_cons]
    rw [startsFrom] at h
    split at h
    · rcases List.mem_cons.1 h with rfl | h
      · omega
      · have hbounds := ih h
        omega
    · have hbounds := ih h
      omega

theorem partedAt_ofText (before rest : List Char) :
    PartedAt (ofText (before ++ rest)).starts (byteLength before) (1 + before.count '\n') := by
  have hstarts : 0 :: startsFrom 0 (before ++ rest) =
      (0 :: startsFrom 0 before) ++ startsFrom (byteLength before) rest := by
    rw [startsFrom_append, Nat.zero_add, List.cons_append]
  have hlength : (0 :: startsFrom 0 before).length = 1 + before.count '\n' := by
    rw [List.length_cons, length_startsFrom, Nat.add_comm]
  constructor
  · rw [ofText, hstarts, List.size_toArray, List.length_append, hlength]
    exact Nat.le_add_right _ _
  · intro i y hy
    rw [ofText, hstarts, List.getElem?_toArray] at hy
    rw [← hlength]
    constructor
    · intro hle
      refine Nat.lt_of_not_le fun hge => ?_
      rw [List.getElem?_append_right hge] at hy
      have hlater := bounds_of_mem_startsFrom (List.mem_of_getElem? hy)
      omega
    · intro hlt
      rw [List.getElem?_append_left hlt] at hy
      rcases List.mem_cons.1 (List.mem_of_getElem? hy) with rfl | hmem
      · exact Nat.zero_le _
      · have hbounds := bounds_of_mem_startsFrom hmem
        omega

theorem lineOf_ofText (before rest : List Char) :
    ((ofText (before ++ rest)).lineOf (byteLength before)).toNat =
      (1 + before.count '\n') % 2 ^ 32 := by
  have hsearch := binarySearch_of_partedAt (partedAt_ofText before rest) (by omega)
  rw [lineOf, hsearch]
  split
  · rename_i hi
    split at hi <;> cases hi
    rw [Nat.toUInt32_eq, UInt32.toNat_ofNat', Nat.sub_add_cancel (by omega)]
  · rename_i hi
    split at hi <;> cases hi
    rw [Nat.toUInt32_eq, UInt32.toNat_ofNat', Nat.sub_add_cancel (by omega)]

end LineIndex

def Span.behind (before text : List Char) : Span :=
  ⟨byteLength before, byteLength before + byteLength text⟩

namespace Place

def between (before rest : List Char) : Place :=
  (start (before ++ rest)).after before

theorem between_nil (s : List Char) : between [] s = start s :=
  after_nil _

theorem after_between (before text rest : List Char) :
    (between before (text ++ rest)).after text = between (before ++ text) rest := by
  rw [between, between, after_append, List.append_assoc]

theorem offset_between (before rest : List Char) :
    (between before rest).offset = byteLength before :=
  Nat.zero_add _

theorem line_between (before rest : List Char) :
    (between before rest).line = (1 + before.count '\n') % 2 ^ 32 := by
  rw [line, offset_between]
  exact LineIndex.lineOf_ofText before rest

theorem spanOf_between (before text rest : List Char) :
    Span.of (between before rest) text = .behind before text := by
  rw [Span.of, after, offset_between, Span.behind]

end Place

end WitnessReplay.Text
