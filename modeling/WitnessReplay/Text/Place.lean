import WitnessReplay.Text.LineIndex

/-!
# Places and spans

Where something stands in a text. Offsets count the bytes of the text's UTF-8 form.
-/

namespace WitnessReplay.Text

def byteLength (text : List Char) : Nat :=
  text.foldr (fun c n => c.utf8Size + n) 0

/-- A place in a text: the number of bytes in front of it, and the lines of the text. -/
structure Place where
  lines : LineIndex
  offset : Nat
deriving DecidableEq, Repr

namespace Place

def start (text : List Char) : Place := ⟨.ofText text, 0⟩

/-- The place reached from `p` when `text` has been read. -/
def after (p : Place) (text : List Char) : Place :=
  { p with offset := p.offset + byteLength text }

def line (p : Place) : Nat :=
  (p.lines.lineOf p.offset).toNat

end Place

/-- The bytes from `start` up to, but not including, `stop`. -/
structure Span where
  start : Nat
  stop : Nat
deriving DecidableEq, Repr, Inhabited

def Span.of (p : Place) (text : List Char) : Span :=
  ⟨p.offset, (p.after text).offset⟩

@[simp] theorem byteLength_nil : byteLength [] = 0 := rfl

@[simp] theorem byteLength_cons (c : Char) (cs : List Char) :
    byteLength (c :: cs) = c.utf8Size + byteLength cs := rfl

@[simp] theorem byteLength_append (a b : List Char) :
    byteLength (a ++ b) = byteLength a + byteLength b := by
  induction a with
  | nil => simp
  | cons c a ih => simp [ih, Nat.add_assoc]

@[simp] theorem Place.after_nil (p : Place) : p.after [] = p := by
  simp [Place.after]

theorem Place.after_append (p : Place) (a b : List Char) :
    p.after (a ++ b) = (p.after a).after b := by
  simp [Place.after, Nat.add_assoc]

end WitnessReplay.Text
