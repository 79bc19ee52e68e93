/-!
# The lines of a text

A text's lines are found from offsets in it by a table of the offsets where its lines start.
Offsets count the bytes of the text's UTF-8 form. Lines are counted from one, in 32 bits, and
end at line feeds only.
-/

namespace WitnessReplay.Text

/-- The last entry of a sorted table that is at most `x`, among the `size` entries from `base`
on: the entries are halved until one is left. -/
@[semireducible] def lastUpTo (table : Array Nat) (x base size : Nat) : Nat :=
  if size ≤ 1 then base
  else
    let mid := base + size / 2
    lastUpTo table x (if table[mid]?.any (x < ·) then base else mid) (size - size / 2)
termination_by size

/-- Where `x` is in a sorted table, or else where it could be inserted. -/
def binarySearch (table : Array Nat) (x : Nat) : Except Nat Nat :=
  let i := lastUpTo table x 0 table.size
  match table[i]? with
  | none => .error 0
  | some y => if y = x then .ok i else if y < x then .error (i + 1) else .error i

/-- Where the lines of a text start. -/
structure LineIndex where
  starts : Array Nat
deriving DecidableEq, Repr

namespace LineIndex

def startsFrom (offset : Nat) : List Char → List Nat
  | [] => []
  | c :: cs =>
    if c = '\n' then (offset + 1) :: startsFrom (offset + c.utf8Size) cs
    else startsFrom (offset + c.utf8Size) cs

def ofText (text : List Char) : LineIndex :=
  ⟨(0 :: startsFrom 0 text).toArray⟩

/-- The line of an offset: the last one that starts up to there. -/
def lineOf (lines : LineIndex) (offset : Nat) : UInt32 :=
  let i :=
    match binarySearch lines.starts offset with
    | .ok i => i
    | .error i => i - 1
  (i + 1).toUInt32

end LineIndex

end WitnessReplay.Text
