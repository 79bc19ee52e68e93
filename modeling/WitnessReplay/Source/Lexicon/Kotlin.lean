import WitnessReplay.Source.Lexicon
import WitnessReplay.Text.Identifier

/-!
# The lexicon of Kotlin

Block comments nest, strings hold templates, three quotes enclose a raw string, and a name may
stand between backticks.

A comment or template that is opened inside another one and never closed is not an error by
itself: its opening characters then count as plain text, and the search for the end of the
outer one goes on behind them.
-/

namespace WitnessReplay.Source

namespace Kotlin

/-- The rest of a block comment after its opening, nested comments included. -/
def commentTail (s : List Char) : Option Nat :=
  match s with
  | '*' :: '/' :: _ => some 2
  | '/' :: '*' :: r =>
    match commentTail r with
    | some n => (commentTail (r.drop n)).map (· + (n + 2))
    | none => (commentTail ('*' :: r)).map (· + 1)
  | _ :: r => (commentTail r).map (· + 1)
  | [] => none
termination_by s.length

mutual

/-- The length of a template's rest after its opening brace, closing brace included. -/
def templateTail (s : List Char) : Option Nat :=
  let n := templateParts s
  match s.drop n with
  | '}' :: _ => some (n + 1)
  | _ => none
termination_by 2 * s.length + 1

/-- The length of the parts inside a template: blocks in braces, strings, characters, and any
other character up to the closing brace. -/
def templateParts (s : List Char) : Nat :=
  match s with
  | [] => 0
  | c :: r =>
    if c = '}' then 0
    else
      let part :=
        if c = '{' then templateTail r
        else if c = '"' then stringTail r
        else if c = '\'' then (charLiteral (c :: r)).map (· - 1)
        else none
      let n := part.getD 0
      n + 1 + templateParts (r.drop n)
termination_by 2 * s.length

/-- The rest of a string after its first quote: a raw string where two more quotes follow and
it is closed, else a plain string. -/
def stringTail (s : List Char) : Option Nat :=
  match s with
  | '"' :: '"' :: r =>
    match rawTail r with
    | some n => some (n + 2)
    | none => some 1
  | r => plainTail r
termination_by 2 * s.length + 1

/-- The rest of a plain string: up to the next quote, on one line. A backslash takes the next
character along, and templates are passed over. -/
def plainTail (s : List Char) : Option Nat :=
  match s with
  | [] => none
  | '"' :: _ => some 1
  | '\n' :: _ => none
  | '\\' :: _ :: r => (plainTail r).map (· + 2)
  | '$' :: '{' :: r =>
    match templateTail r with
    | some n => (plainTail (r.drop n)).map (· + (n + 2))
    | none => (plainTail ('{' :: r)).map (· + 1)
  | _ :: r => (plainTail r).map (· + 1)
termination_by 2 * s.length

/-- The rest of a raw string: up to the next three quotes and all quotes right behind them. -/
def rawTail (s : List Char) : Option Nat :=
  match s with
  | [] => none
  | '"' :: '"' :: '"' :: r => some ((r.takeWhile (· == '"')).length + 3)
  | '$' :: '{' :: r =>
    match templateTail r with
    | some n => (rawTail (r.drop n)).map (· + (n + 2))
    | none => (rawTail ('{' :: r)).map (· + 1)
  | _ :: r => (rawTail r).map (· + 1)
termination_by 2 * s.length

end

def string : List Char → Option Nat
  | '"' :: r => (stringTail r).map (· + 1)
  | _ => none

/-- A name starts with a letter or an underscore, or stands between backticks on one line. -/
def word : List Char → Option Nat
  | '\x60' :: r =>
    let n := (r.takeWhile fun c => c != '\x60' && c != '\n').length
    if n ≠ 0 ∧ (r.drop n).head? = some '\x60' then some (n + 2) else none
  | c :: r =>
    if Text.isIdentifierStart c || c == '_' then
      some ((r.takeWhile Text.isIdentifierContinue).length + 1) else none
  | [] => none

def literal (s : List Char) : Option Nat :=
  string s <|> charLiteral s <|> number s

end Kotlin

def Lexicon.kotlin : Lexicon where
  isNameChar := Text.isIdentifierContinue
  commentTail := Kotlin.commentTail
  literal := Kotlin.literal
  word := Kotlin.word

end WitnessReplay.Source
