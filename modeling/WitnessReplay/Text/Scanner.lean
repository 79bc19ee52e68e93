import WitnessReplay.Text.Place

/-!
# Scanners

A scanner reads something at a place of a text: it fails, or it gives a value and the number of
characters it took. They are composed in order, and a failed alternative takes nothing.
-/

namespace WitnessReplay.Text

/-- A rule that reads an `α` from the characters at a place. -/
def Scanner (α : Type) : Type :=
  Place → List Char → Option (α × Nat)

namespace Scanner

variable {α β : Type}

instance : Monad Scanner where
  pure a := fun _ _ => some (a, 0)
  bind x f := fun p s =>
    match x p s with
    | none => none
    | some (a, n) =>
      match f a (p.after (s.take n)) (s.drop n) with
      | none => none
      | some (b, m) => some (b, n + m)

def here : Scanner Place :=
  fun p _ => some (p, 0)

def text (t : String) : Scanner Unit :=
  fun _ s => if t.toList.isPrefixOf s then some ((), t.length) else none

def ahead (t : String) : Scanner Bool :=
  fun _ s => some (t.toList.isPrefixOf s, 0)

def require (b : Bool) : Scanner Unit :=
  fun _ _ => if b then some ((), 0) else none

def option (x : Scanner α) : Scanner (Option α) :=
  fun p s =>
    match x p s with
    | some (a, n) => some (some a, n)
    | none => some (none, 0)

def test (x : Scanner α) : Scanner Bool := do
  return (← option x).isSome

def either (x y : Scanner α) : Scanner α :=
  fun p s => x p s <|> y p s

def many (x : Scanner α) : Scanner (List α) :=
  fun p s => some (go p s)
where
  /-- The values, and how many characters they take together. -/
  go (p : Place) (s : List Char) : List α × Nat :=
    match s with
    | [] => ([], 0)
    | c :: r =>
      match x p (c :: r) with
      | none => ([], 0)
      | some (a, n) =>
        if n = 0 then ([], 0)
        else
          let (as, m) := go (p.after ((c :: r).take n)) (r.drop (n - 1))
          (a :: as, n + m)
  termination_by s.length

def takeWhile (p : Char → Bool) : Scanner (List Char) :=
  fun _ s =>
    let taken := s.takeWhile p
    some (taken, taken.length)

def one (p : Char → Bool) : Scanner Char :=
  fun _ s =>
    match s with
    | c :: _ => if p c then some (c, 1) else none
    | [] => none

def ofOption (o : Option α) : Scanner α :=
  fun _ _ => o.map (·, 0)

def runAll (x : Scanner α) (s : List Char) : Option α :=
  match x (.start s) s with
  | some (a, n) => if n = s.length then some a else none
  | none => none

end Scanner

end WitnessReplay.Text
