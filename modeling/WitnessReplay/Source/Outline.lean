import WitnessReplay.Source.Token
import WitnessReplay.Text.Split

/-!
# Outlines

What is kept of a source file: its package, its imports, the calls in it and the functions it
declares.
-/

namespace WitnessReplay.Source

open Text

/-- An import: of one name, or of everything below it. -/
structure Import where
  /-- The path with points between its segments, without the star. -/
  path : String
  wildcard : Bool := false
  isStatic : Bool := false
  /-- The name under which the import is used, if it is another one. -/
  newName : Option String := none
  line : Nat := 0
deriving DecidableEq, Repr

def Import.segments (i : Import) : List String :=
  split '.' i.path

/-- A call `qualifier.name(...)`. -/
structure Call where
  name : String
  /-- The words in front of the name that points join to it. -/
  qualifier : Option String
  /-- The line of the name. -/
  line : Nat := 0
  span : Span := default
deriving DecidableEq, Repr

structure Function where
  name : String
  paramCount : Nat
  line : Nat
  nameSpan : Span
  /-- The parameter list with its parentheses. -/
  paramsSpan : Span
  /-- The number of blocks around the declaration. -/
  depth : Nat
  /-- The line of what the function returns, if its body does nothing else first. -/
  firstReturnLine : Option Nat
deriving DecidableEq, Repr

def Function.isTopLevel (f : Function) : Bool :=
  f.depth == 0

structure Findings where
  calls : List Call := []
  functions : List Function := []
deriving Repr

namespace Findings

def append (a b : Findings) : Findings :=
  ⟨a.calls ++ b.calls, a.functions ++ b.functions⟩

instance : Append Findings := ⟨append⟩

end Findings

structure Outline where
  package : Option String := none
  imports : List Import := []
  calls : List Call := []
  functions : List Function := []
deriving Repr

/-- The words in front of a name that points, or safe-call signs, join to it, in source order;
and the tokens in front of them. Tokens are given nearest first. -/
def qualifierBefore : List Token → List String × List Token
  | dot :: t :: before =>
    if dot.isSymbol '.' then
      match t.word? with
      | some w =>
        let (words, start) := qualifierBefore before
        (words ++ [w], start)
      | none =>
        match before with
        | [] => ([], dot :: t :: before)
        | u :: before' =>
          match t.isSymbol '?', u.word? with
          | true, some w =>
            let (words, start) := qualifierBefore before'
            (words ++ [w], start)
          | _, _ => ([], dot :: t :: u :: before')
    else ([], dot :: t :: before)
  | before => ([], before)

def qualifierText (words : List String) : Option String :=
  if words.isEmpty then none else some (".".intercalate words)

/-- The number of parameters between the parentheses of a list: the parts between commas that
hold anything, where commas inside angle brackets do not separate. -/
def countParams (tokens : List Token) : Nat :=
  go 0 false tokens
where
  /-- `angle` is the number of open angle brackets, `filled` tells whether the current part
  holds anything. -/
  go (angle : Nat) (filled : Bool) : List Token → Nat
    | [] => if filled then 1 else 0
    | t :: ts =>
      if t.isSymbol '<' then go (angle + 1) true ts
      else if t.isSymbol '>' then go (angle - 1) true ts
      else if t.isSymbol ',' && angle == 0 then (if filled then 1 else 0) + go angle false ts
      else go angle true ts

/-- The line of a block's first token if it is a `return`. -/
def leadingReturn (block : List Token) : Option Nat :=
  match block with
  | t :: _ => if t.isWord "return" then some t.line else none
  | [] => none

/-- The depth of what stands inside a group: only braces enclose a block. -/
def Delimiter.inner (d : Delimiter) (depth : Nat) : Nat :=
  if d = .brace then depth + 1 else depth

end WitnessReplay.Source
