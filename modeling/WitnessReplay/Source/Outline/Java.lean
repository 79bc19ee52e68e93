import WitnessReplay.Source.Lexicon.Java
import WitnessReplay.Source.Outline
import WitnessReplay.Source.Header

/-!
# Outlines of Java files

The header is read exactly. In the token forest after it, a name with a parameter list behind
it is a declared method if a block follows, or if a semicolon follows and a type stands in
front; otherwise it is a call.
-/

namespace WitnessReplay.Source

namespace Java

open Text Text.Scanner Header

def annotation : Scanner Unit := do
  text "@"
  blanks .java
  require !(← ahead "interface")
  let _ ← qualifiedName .java
  let _ ← option do
    blanks .java
    group .java .paren

def packageDecl : Scanner (List String) := do
  let _ ← many do
    annotation
    blanks .java
  keyword .java "package"
  blanks .java
  let path ← qualifiedName .java
  blanks .java
  text ";"
  return path

def importDecl : Scanner Import := do
  let start ← here
  keyword .java "import"
  blanks .java
  let isStatic ← test (keyword .java "static")
  blanks .java
  let path ← qualifiedName .java
  blanks .java
  let everything ← test (wildcard .java)
  blanks .java
  text ";"
  return { path := ".".intercalate path, wildcard := everything, isStatic, line := start.line }

def header : Scanner (Option String × List Import) := do
  blanks .java
  let package ← option packageDecl
  blanks .java
  let imports ← many do
    let i ← importDecl
    blanks .java
    return i
  return (package.map (".".intercalate ·), imports)

def keywords : List String :=
  ["assert", "case", "catch", "default", "do", "else", "for", "if", "instanceof", "new", "return",
    "super", "switch",
   "synchronized", "this", "throw", "try", "while", "yield"]

/-- Words that may stand in front of a call and are not the type of a declared method. -/
def expressionStarters : List String :=
  ["assert", "case", "do", "else", "return", "throw", "yield"]

def endsType : Token → Bool
  | .word text _ _ => !expressionStarters.contains text
  | .group .bracket _ _ _ => true
  | _ => false

/-- What makes a name with a parameter list a declaration. -/
inductive Declaration where
  /-- A block follows. -/
  | block (body : List Token)
  /-- A type stands in front and a semicolon follows. -/
  | bodiless

/-- The tokens after a `throws` clause, if one starts here: from the next block or semicolon on. -/
def afterThrows (after : List Token) : List Token :=
  match after with
  | t :: _ => if t.isWord "throws" then after.dropWhile fun u =>
    !(u.isGroup .brace || u.isSymbol ';') else after
  | [] => []

/-- How a name with a parameter list is declared, given the token in front of the name and the
tokens after the list. -/
def declaration? (previous : Option Token) (after : List Token) : Option Declaration :=
  if previous.any (·.isSymbol '.') then none
  else
    match afterThrows after with
    | [] => none
    | t :: _ =>
      match t.children? .brace with
      | some body => some (.block body)
      | none => if t.isSymbol ';' && previous.any endsType then some .bodiless else none

/-- The call or declaration whose name is the word `name`, if any. The tokens in front of it
are given nearest first. -/
def findingsAt (depth : Nat) (before : List Token) (name : Token) (after : List Token) : Findings :=
  match name.word?, after with
  | some text, params :: after =>
    match params.children? .paren with
    | none => {}
    | some paramTokens =>
      let (words, start) := qualifierBefore before
      if keywords.contains text || before.head?.any (·.isSymbol '@') ||
        start.head?.any (·.isWord "new") then {}
      else
        match declaration? before.head? after with
        | some declaration =>
          { functions :=
              [{ name := text
                 paramCount := countParams paramTokens
                 line := name.line
                 nameSpan := name.span
                 paramsSpan := params.span
                 depth
                 firstReturnLine :=
                  match declaration with
                  | .block body => leadingReturn body
                  | .bodiless => none }] }
        | none =>
          { calls := [{ name := text, qualifier := qualifierText words, line := name.line,
                        span := name.span }] }
  | _, _ => {}

/-- The calls and declarations in a forest at the given depth, in source order. -/
def findings (depth : Nat) (before : List Token) : List Token → Findings
  | [] => {}
  | .group d children span line :: after =>
    findings (d.inner depth) [] children ++
      findings depth (.group d children span line :: before) after
  | t :: after => findingsAt depth before t after ++ findings depth (t :: before) after

end Java

end WitnessReplay.Source
