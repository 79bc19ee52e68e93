import WitnessReplay.Text.Place

/-!
# Token trees

A source text after its header is kept as a forest of tokens: words, literals, single-character
symbols, and groups between matching delimiters. Nothing finer is needed to find calls and
declared functions.
-/

namespace WitnessReplay.Source

open Text

inductive Delimiter where
  | brace
  | paren
  | bracket
deriving DecidableEq, Repr

namespace Delimiter

def opening : Delimiter → Char
  | brace => '{'
  | paren => '('
  | bracket => '['

def closing : Delimiter → Char
  | brace => '}'
  | paren => ')'
  | bracket => ']'

def ofOpening? (c : Char) : Option Delimiter :=
  if c = '{' then some brace
  else if c = '(' then some paren
  else if c = '[' then some bracket
  else none

theorem ofOpening?_eq_some_iff {c : Char} {d : Delimiter} :
    ofOpening? c = some d ↔ c = d.opening := by
  cases d <;> simp only [ofOpening?, opening] <;> grind

def isDelimiter (c : Char) : Bool :=
  [brace, paren, bracket].any fun d => c == d.opening || c == d.closing

end Delimiter

/-- A token with the bytes it covers and the line it starts on. -/
inductive Token where
  /-- Tokens between two matching delimiters, which belong to the span. -/
  | group (delimiter : Delimiter) (children : List Token) (span : Span) (line : Nat)
  /-- A name or keyword, without the backticks that may enclose it. -/
  | word (text : String) (span : Span) (line : Nat)
  /-- A number, character or string, as written. -/
  | literal (text : String) (span : Span) (line : Nat)
  /-- Any other character. -/
  | symbol (char : Char) (span : Span) (line : Nat)
deriving Repr

namespace Token

def line : Token → Nat
  | group _ _ _ line => line
  | word _ _ line => line
  | literal _ _ line => line
  | symbol _ _ line => line

def span : Token → Span
  | group _ _ span _ => span
  | word _ span _ => span
  | literal _ span _ => span
  | symbol _ span _ => span

def word? : Token → Option String
  | word text _ _ => some text
  | _ => none

def isWord (t : Token) (text : String) : Bool :=
  t.word? == some text

def isWordIn (t : Token) (words : List String) : Bool :=
  t.word?.any fun text => words.contains text

def isSymbol (t : Token) (c : Char) : Bool :=
  match t with
  | symbol c' _ _ => c' == c
  | _ => false

def children? (t : Token) (d : Delimiter) : Option (List Token) :=
  match t with
  | group d' children _ _ => if d' = d then some children else none
  | _ => none

def isGroup (t : Token) (d : Delimiter) : Bool :=
  (t.children? d).isSome

end Token

end WitnessReplay.Source
