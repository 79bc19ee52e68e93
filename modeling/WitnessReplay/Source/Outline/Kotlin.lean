import WitnessReplay.Source.Lexicon.Kotlin
import WitnessReplay.Source.Outline
import WitnessReplay.Source.Header

/-!
# Outlines of Kotlin files

The header is read exactly. In the token forest after it, the word `fun` declares the name in
front of the next parameter list; every other name with a parenthesis behind it is a call.
-/

namespace WitnessReplay.Source

namespace Kotlin

open Text Text.Scanner Header

def fileAnnotation : Scanner Unit := do
  text "@file"
  blanks .kotlin
  text ":"
  blanks .kotlin
  either
    (do
      let _ ← group .kotlin .bracket)
    (do
      let _ ← qualifiedName .kotlin
      let _ ← option do
        blanks .kotlin
        group .kotlin .paren)

def packageHeader : Scanner (List String) := do
  keyword .kotlin "package"
  blanks .kotlin
  let path ← qualifiedName .kotlin
  blanks .kotlin
  let _ ← option (text ";")
  return path

def importAlias : Scanner String := do
  keyword .kotlin "as"
  blanks .kotlin
  name .kotlin

def importHeader : Scanner Import := do
  let start ← here
  keyword .kotlin "import"
  blanks .kotlin
  let path ← qualifiedName .kotlin
  blanks .kotlin
  let everything ← test (wildcard .kotlin)
  let renamed ← if everything then pure none else option importAlias
  blanks .kotlin
  let _ ← option (text ";")
  return { path := ".".intercalate path, wildcard := everything, newName := renamed,
           line := start.line }

def noLineEnd : Scanner Unit :=
  fun _ s => if s.head?.any isLineEnd then none else some ((), 0)

/-- A character of the script line, with blanks skipped between the look for a line end and the
character. -/
def scriptChar : Scanner Char := do
  noLineEnd
  blanks .kotlin
  one fun _ => true

def laterScriptChar : Scanner Char := do
  blanks .kotlin
  scriptChar

def scriptChars : Scanner (Option (List Char)) :=
  option do
    let first ← scriptChar
    let others ← many laterScriptChar
    return first :: others

/-- The script line at the start of a file. It means to end with the line, but as between the
parts of any other rule of a header, blanks are skipped between its characters. -/
def scriptLine : Scanner Unit := do
  text "#!"
  blanks .kotlin
  let _ ← scriptChars

def header : Scanner (Option String × List Import) := do
  blanks .kotlin
  let _ ← option scriptLine
  blanks .kotlin
  let _ ← many do
    fileAnnotation
    blanks .kotlin
  let package ← option packageHeader
  blanks .kotlin
  let imports ← many do
    let i ← importHeader
    blanks .kotlin
    return i
  return (package.map (".".intercalate ·), imports)

def keywords : List String :=
  ["as", "catch", "constructor", "do", "else", "for", "fun", "if", "in", "init", "is", "object",
    "return", "super",
   "this", "throw", "try", "typeof", "when", "while"]

def declarators : List String :=
  ["class", "interface", "object", "constructor", "fun"]

def bodyStops : List String :=
  ["abstract", "class", "companion", "const", "data", "enum", "fun", "inline", "interface",
    "internal", "lateinit",
   "object", "open", "operator", "override", "private", "protected", "public", "sealed",
   "suspend", "val", "var"]

/-- The line of what a function returns if its body does nothing else first, given the tokens
after its parameter list: the first `return` of a block, or the expression after an equals
sign. -/
def firstReturnLine : List Token → Option Nat
  | [] => none
  | t :: after =>
    match t.children? .brace with
    | some block => leadingReturn block
    | none =>
      if t.isSymbol '=' then after.head?.map (·.line)
      else if t.isSymbol ';' || t.isSymbol '@' || t.isWordIn bodyStops then none
      else firstReturnLine after

/-- The tokens up to the first parameter list, the list, and the tokens after it. A block or an
equals sign ends the search. -/
def paramsOf? : List Token → Option (List Token × Token × List Token)
  | [] => none
  | t :: after =>
    if t.isGroup .paren then some ([], t, after)
    else if t.isGroup .brace || t.isSymbol '=' then none
    else (paramsOf? after).map fun (front, params, rest) => (t :: front, params, rest)

/-- The function that a `fun` declares, given the tokens after it, and how many tokens behind
the `fun` its name stands. A parameter list right after the `fun` has no name. -/
def declared? (depth : Nat) (after : List Token) : Option (Nat × Function) := do
  let (front, params, rest) ← paramsOf? after
  let name ← front.getLast?
  let text ← name.word?
  return (front.length,
    { name := text
      paramCount := countParams ((params.children? .paren).getD [])
      line := name.line
      nameSpan := name.span
      paramsSpan := params.span
      depth
      firstReturnLine := firstReturnLine rest })

/-- The functions declared directly in a forest, each with the index of its name. `i` is the
index of the first token. -/
def declarations (depth i : Nat) : List Token → List (Nat × Function)
  | [] => []
  | t :: after =>
    match (if t.isWord "fun" then declared? depth after else none) with
    | some (n, f) => (i + n, f) :: declarations depth (i + 1) after
    | none => declarations depth (i + 1) after

/-- The call whose name is the token `name`, if any. The tokens in front of it are given
nearest first. -/
def callAt? (before : List Token) (name : Token) (after : List Token) : Option Call := do
  let text ← name.word?
  let next ← after.head?
  if keywords.contains text || !next.isGroup .paren then none
  else if before.head?.any fun t => t.isSymbol '@' || t.isWordIn declarators then none
  else
    some { name := text, qualifier := qualifierText (qualifierBefore before).1, line := name.line,
           span := name.span }

mutual

/-- The calls and declarations in a forest at the given depth: first the functions that it
declares itself, then what the tokens hold, in source order. -/
def findings (depth : Nat) (tokens : List Token) : Findings :=
  let declared := declarations depth 0 tokens
  { functions := declared.map (·.2) } ++ nested depth (declared.map (·.1)) [] tokens
termination_by (sizeOf tokens, 1)

/-- The calls in a forest, and the findings inside its groups. The names at the indices
`declared` are not calls. -/
def nested (depth : Nat) (declared : List Nat) (before tokens : List Token) : Findings :=
  match tokens with
  | [] => {}
  | t :: after =>
    let here : Findings :=
      match t with
      | .group d children _ _ => findings (d.inner depth) children
      | t =>
        if declared.contains before.length then {} else { calls := (callAt? before t after).toList }
    here ++ nested depth declared (t :: before) after
termination_by (sizeOf tokens, 0)

end

def isMain (f : Function) : Bool :=
  f.isTopLevel && f.name = "main"

end Kotlin

end WitnessReplay.Source
