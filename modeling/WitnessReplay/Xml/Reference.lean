import WitnessReplay.Xml.Markup

/-!
# References in character data

What character data and attribute values stand for: references are replaced by the characters
they name, and line ends and white space are normalised.
-/

namespace WitnessReplay.Xml

open Text Text.Scanner

/-- A character of character data: written plainly, or by a reference. -/
inductive Chunk where
  | plain (c : Char)
  | reference (c : Char)
deriving DecidableEq, Repr

def namedCharacters : List (String × Char) :=
  [("quot", '"'), ("apos", '\''), ("amp", '&'), ("lt", '<'), ("gt", '>')]

/-- The number that digits to a base spell, if it fits into 32 bits. -/
def number? (base : Nat) (digits : List Nat) : Option Nat :=
  let n := digits.foldl (fun n d => n * base + d) 0
  if digits.isEmpty || UInt32.size ≤ n then none else some n

/-- The character with a number: the replacement character where there is none, and only
document characters. -/
def numberedCharacter? (n : Nat) : Option Char :=
  let c := if n.isValidChar then Char.ofNat n else '\ufffd'
  if isDocumentChar c then some c else none

def hexValue? (c : Char) : Option Nat :=
  if c.isDigit then some (c.toNat - '0'.toNat)
  else if 'a' ≤ c ∧ c ≤ 'f' then some (c.toNat - 'a'.toNat + 10)
  else if 'A' ≤ c ∧ c ≤ 'F' then some (c.toNat - 'A'.toNat + 10)
  else none

/-- The character that a reference stands for, given the characters behind its ampersand, and
how many of them belong to it. -/
def reference : Scanner Char := do
  if ← test (text "#") then
    let base ← if ← test (text "x") then pure 16 else pure 10
    let digits ← takeWhile fun c => if base = 16 then (hexValue? c).isSome else c.isDigit
    text ";"
    ofOption ((number? base (digits.filterMap hexValue?)).bind numberedCharacter?)
  else
    let name ← takeWhile isNameChar
    text ";"
    ofOption (namedCharacters.lookup (String.ofList name))

/-- The chunks of character data or of an attribute value. Only the predefined names and
character numbers may be referred to. -/
def chunks? (raw : List Char) : Option (List Chunk) :=
  many chunk |>.runAll raw
where
  /-- A plain character or a reference. -/
  chunk : Scanner Chunk :=
    either (do text "&"; return .reference (← reference)) (do return .plain (← one (· != '&')))

/-- Puts a plain character behind what has been read, last character first: a carriage return,
alone or before a line feed, becomes a line feed. It is changed when the next plain character
arrives, or at the end of the text. -/
def pushPlain (c : Char) (atEnd : Bool) (done : List Char) : List Char :=
  let c' := if atEnd && c == '\r' then '\n' else c
  match done with
  | '\r' :: before => if c == '\n' then '\n' :: before else c' :: '\n' :: before
  | _ => c' :: done

/-- The text that chunks stand for. A referenced character is put down as it is, and so is the
plain character right behind it. -/
def joinText (asIs : Bool) (done : List Char) : List Chunk → List Char
  | [] => done.reverse
  | .reference c :: rest => joinText true (c :: done) rest
  | .plain c :: rest =>
    joinText false (if asIs then c :: done else pushPlain c rest.isEmpty done) rest

def decodeText (raw : List Char) : Option String :=
  (chunks? raw).map fun chunks => String.ofList (joinText false [] chunks)

def decodeCdata (raw : List Char) : String :=
  String.ofList (joinText false [] (raw.map .plain))

/-- The value that the chunks of an attribute stand for: plain white space becomes a blank, and
a carriage return before a line feed is dropped. -/
def joinAttribute : List Chunk → List Char
  | [] => []
  | .reference c :: rest => c :: joinAttribute rest
  | .plain c :: rest =>
    if c == '\r' && rest.head? == some (.plain '\n') then joinAttribute rest
    else (if isSpace c then ' ' else c) :: joinAttribute rest

def decodeAttribute (raw : List Char) : Option String :=
  (chunks? raw).map fun chunks => String.ofList (joinAttribute chunks)

end WitnessReplay.Xml
