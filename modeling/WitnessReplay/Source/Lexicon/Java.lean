import WitnessReplay.Source.Lexicon
import WitnessReplay.Text.Identifier

/-!
# The lexicon of Java

Block comments do not nest, strings are plain or text blocks, and a dollar sign counts as a letter.
-/

namespace WitnessReplay.Source

namespace Java

/-- The rest of a block comment: up to the first closing mark. -/
def commentTail : List Char → Option Nat
  | '*' :: '/' :: _ => some 2
  | _ :: r => (commentTail r).map (· + 1)
  | [] => none

/-- The rest of a text block: up to the first three quotes, where a backslash takes the next
character along. -/
def textBlockTail : List Char → Option Nat
  | '"' :: '"' :: '"' :: _ => some 3
  | '\\' :: _ :: r => (textBlockTail r).map (· + 2)
  | _ :: r => (textBlockTail r).map (· + 1)
  | [] => none

/-- A text block where three quotes open one that is closed, else a string on one line. -/
def string : List Char → Option Nat
  | '"' :: r =>
    match r with
    | '"' :: '"' :: r' =>
      match textBlockTail r' with
      | some n => some (n + 3)
      | none => (quotedTail '"' r).map (· + 1)
    | _ => (quotedTail '"' r).map (· + 1)
  | _ => none

def isNameChar (c : Char) : Bool :=
  Text.isIdentifierContinue c || c == '$'

def word : List Char → Option Nat
  | c :: r =>
    if Text.isIdentifierStart c || c == '_' || c == '$' then
      some ((r.takeWhile isNameChar).length + 1) else none
  | [] => none

def literal (s : List Char) : Option Nat :=
  string s <|> charLiteral s <|> number s

end Java

def Lexicon.java : Lexicon where
  isNameChar := Java.isNameChar
  commentTail := Java.commentTail
  literal := Java.literal
  word := Java.word

end WitnessReplay.Source
