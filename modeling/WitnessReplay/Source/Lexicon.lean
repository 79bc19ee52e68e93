import WitnessReplay.Source.Token

/-!
# Lexicons

The lexical rules of a source language. A rule looks at the characters from some point on and
answers with the number of characters it takes, so what is left is the text with that many
characters dropped. The rules that the languages share are written here; a `Lexicon` collects
those in which they differ.
-/

namespace WitnessReplay.Source

open Text

def isBlank (c : Char) : Bool :=
  c == ' ' || c == '\t' || c == '\r' || c == '\n' || c == '\x0c' || c == '\ufeff'

def isLineEnd (c : Char) : Bool :=
  c == '\n' || c == '\r'

/-- The length of a literal's rest after its opening quote, closing quote included. A backslash
takes the next character along, and a line feed that is not taken so ends the literal. -/
def quotedTail (quote : Char) : List Char → Option Nat
  | [] => none
  | [c] => if c = quote then some 1 else none
  | c :: d :: r =>
    if c = '\\' then (quotedTail quote r).map (· + 2)
    else if c = quote then some 1
    else if c = '\n' then none
    else (quotedTail quote (d :: r)).map (· + 1)

/-- A character literal: like a string between single quotes, and not empty. -/
def charLiteral : List Char → Option Nat
  | '\'' :: r => if r.head? = some '\'' then none else (quotedTail '\'' r).map (· + 1)
  | _ => none

/-- The rest of a number after its first digit: letters, digits, underscores, and points with a
digit after them. -/
def numberTail : List Char → Nat
  | [] => 0
  | [c] => if c.isAlphanum || c == '_' then 1 else 0
  | c :: d :: r =>
    if c.isAlphanum || c == '_' then numberTail (d :: r) + 1
    else if c == '.' && d.isDigit then numberTail r + 2
    else 0

def number : List Char → Option Nat
  | c :: r => if c.isDigit then some (numberTail r + 1) else none
  | [] => none

/-- Any character that no other rule starts with, except where a block comment opens. -/
def symbol : List Char → Option Nat
  | '/' :: '*' :: _ => none
  | c :: _ => if Delimiter.isDelimiter c || c == '"' || c == '\'' then none else some 1
  | [] => none

/-- The lexical rules in which the source languages differ. -/
structure Lexicon where
  /-- Whether a character may go on with a name. -/
  isNameChar : Char → Bool
  /-- The rest of a block comment after its opening. -/
  commentTail : List Char → Option Nat
  /-- A string, character or number. -/
  literal : List Char → Option Nat
  /-- A name or keyword. -/
  word : List Char → Option Nat

namespace Lexicon

/-- The length of the blanks and complete comments in front of `s`. -/
def blanks (L : Lexicon) (s : List Char) : Nat :=
  match s with
  | [] => 0
  | c :: r =>
    if isBlank c then L.blanks r + 1
    else if c = '/' then
      match r with
      | '/' :: r' =>
        let n := (r'.takeWhile (!isLineEnd ·)).length
        n + 2 + L.blanks (r'.drop n)
      | '*' :: r' =>
        match L.commentTail r' with
        | some n => n + 2 + L.blanks (r'.drop n)
        | none => 0
      | _ => 0
    else 0
termination_by s.length

/-- A name as it is compared: without enclosing backticks. -/
def bareName (text : List Char) : String :=
  String.ofList (text.filter (· != '\x60'))

/-- The token without children at the start of `s`, and its length: a literal, else a word,
else a symbol. -/
def leaf (L : Lexicon) (p : Place) (s : List Char) : Option (Token × Nat) :=
  match L.literal s, L.word s, symbol s, s with
  | some n, _, _, _ => some (.literal (String.ofList (s.take n)) (Span.of p (s.take n)) p.line, n)
  | none, some n, _, _ => some (.word (bareName (s.take n)) (Span.of p (s.take n)) p.line, n)
  | none, none, some n, c :: _ => some (.symbol c (Span.of p (s.take n)) p.line, n)
  | _, _, _, _ => none

end Lexicon

end WitnessReplay.Source
