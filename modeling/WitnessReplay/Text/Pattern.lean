import WitnessReplay.Text.Blank
import WitnessReplay.Text.WordChar

/-!
# Text patterns

Patterns with repetition and alternatives, matched by backtracking: of two alternatives the
first one is tried first, a repetition takes as much as it can and gives back one character at
a time, and the parts of a group are remembered. `search?` looks for the leftmost place where a
pattern matches.
-/

namespace WitnessReplay.Text

inductive CharClass where
  | is (c : Char)
  | space
  | nonSpace
  | digit
  | wordChar
  | notLineFeed
deriving DecidableEq, Repr

def CharClass.contains : CharClass → Char → Bool
  | is c, d => d == c
  | space, d => isWhiteSpace d
  | nonSpace, d => !isWhiteSpace d
  | digit, d => isDigit d
  | wordChar, d => isWordChar d
  | notLineFeed, d => d != '\n'

inductive Pattern where
  /-- Exactly these characters. -/
  | text (t : List Char)
  /-- One character of the class, or nothing. -/
  | optional (k : CharClass)
  /-- Any number of characters of the class. -/
  | many (k : CharClass)
  /-- At least one character of the class. -/
  | oneOrMore (k : CharClass)
  /-- One pattern and then another. -/
  | seq (a b : Pattern)
  /-- The first pattern, else the second one. -/
  | either (a b : Pattern)
  /-- A pattern whose text is remembered. -/
  | group (a : Pattern)
deriving DecidableEq, Repr

namespace Pattern

instance : Append Pattern := ⟨seq⟩

instance : OrElse Pattern := ⟨fun a b => either a (b ())⟩

def exactly (t : String) : Pattern :=
  text t.toList

/-- Tries `next` on what is left after as many characters of the class as possible, then after
one character less, and so on. -/
def tryMany {β : Type} (k : CharClass) (next : List Char → Option β) : List Char → Option β
  | [] => next []
  | c :: r => if k.contains c then tryMany k next r <|> next (c :: r) else next (c :: r)

/-- Matches a pattern at the start of a text, and then `next` on what is left. The first way in
which both succeed counts. A group is remembered in the answer by what is left of the text at
its start and behind it. -/
def run {β : Type} (p : Pattern) (remember : List Char → List Char → β → β)
    (next : List Char → Option β) (s : List Char) : Option β :=
  match p with
  | text t => if t.isPrefixOf s then next (s.drop t.length) else none
  | optional k =>
    match s with
    | c :: r => if k.contains c then next r <|> next (c :: r) else next (c :: r)
    | [] => next []
  | many k => tryMany k next s
  | oneOrMore k =>
    match s with
    | c :: r => if k.contains c then tryMany k next r else none
    | [] => none
  | seq a b => a.run remember (b.run remember next) s
  | either a b => a.run remember next s <|> b.run remember next s
  | group a =>
    (a.run (fun start rest m => (remember start rest m.1, m.2)) (fun rest =>
      (next rest).map (·, rest)) s).map
      fun m => remember s m.2 m.1

/-- A remembered group: what is left of the text at its start, and what is left behind it. -/
structure Group where
  start : List Char
  rest : List Char
deriving DecidableEq, Repr

def Group.text (g : Group) : List Char :=
  g.start.take (g.start.length - g.rest.length)

/-- A match: the remembered groups in order, and what is left behind the match. -/
structure Match where
  groups : List Group
  rest : List Char
deriving DecidableEq, Repr

def Match.remember (start rest : List Char) (m : Match) : Match :=
  { m with groups := ⟨start, rest⟩ :: m.groups }

def match? (p : Pattern) (s : List Char) : Option Match :=
  p.run Match.remember (fun rest => some ⟨[], rest⟩) s

def search? (p : Pattern) (s : List Char) : Option Match :=
  match s with
  | [] => p.match? []
  | c :: r => p.match? (c :: r) <|> p.search? r

end Pattern

end WitnessReplay.Text
