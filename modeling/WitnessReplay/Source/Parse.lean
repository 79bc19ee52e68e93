import WitnessReplay.Language
import WitnessReplay.Source.Outline.Java
import WitnessReplay.Source.Outline.Kotlin

/-!
# Reading source files

A file is its header followed by a token forest that goes on to the end of the text. Where the
forest ends early, at an unmatched delimiter or an unfinished literal or comment, the file has
a syntax error.
-/

namespace WitnessReplay.Source

open Text

def lexicon : Language → Lexicon
  | .java => .java
  | .kotlin => .kotlin

def header : Language → Scanner (Option String × List Import)
  | .java => Java.header
  | .kotlin => Kotlin.header

def findings : Language → List Token → Findings
  | .java => Java.findings 0 []
  | .kotlin => Kotlin.findings 0

/-- The tokens of a body that stands at `p`, if they go on to the end of the text. -/
def body? (L : Lexicon) (p : Place) (s : List Char) : Option (List Token) :=
  let (tokens, n) := L.forest p s
  let rest := s.drop n
  if L.blanks rest = rest.length then some tokens else none

def outlineChars? (language : Language) (s : List Char) : Option Outline := do
  let start := Place.start s
  let ((package, imports), n) ← header language start s
  let tokens ← body? (lexicon language) (start.after (s.take n)) (s.drop n)
  let found := findings language tokens
  return { package, imports, calls := found.calls, functions := found.functions }

def outline? (language : Language) (source : String) : Option Outline :=
  outlineChars? language source.toList

structure SyntaxError where
  file : String
deriving DecidableEq, Repr

/-- The wording of a syntax error; what the grammar expected is not part of it. -/
def SyntaxError.message (e : SyntaxError) : String :=
  s!"Syntax error in {e.file}: <syntax>"

def parse (language : Language) (source file : String) : Except SyntaxError Outline :=
  match outline? language source with
  | some outline => .ok outline
  | none => .error ⟨file⟩

end WitnessReplay.Source
