import WitnessReplay.Text.CodePoint
import WitnessReplay.Text.Scanner

/-!
# The pieces of an XML document

The lexical level of XML: a document is a row of tags, character data, CDATA sections, comments
and processing instructions. References inside character data and attribute values are left as
written.

Document type declarations are not accepted.
-/

namespace WitnessReplay.Xml

open Text Text.Scanner

def isSpace (c : Char) : Bool :=
  c == ' ' || c == '\t' || c == '\n' || c == '\r'

def isDocumentChar (c : Char) : Bool :=
  if c.toNat < 0x20 then isSpace c else c.toNat != 0xfffe && c.toNat != 0xffff

def nameStartRanges : List (Nat × Nat) :=
  [(0xc0, 23), (0xd8, 31), (0xf8, 520), (0x370, 14), (0x37f, 7297), (0x200c, 2), (0x2070, 288),
   (0x2c00, 1008), (0x3001, 43007), (0xf900, 1232), (0xfdf0, 526), (0x10000, 917504)]

def isNameStart (c : Char) : Bool :=
  if c.toNat ≤ 128 then c.isAlpha || c == ':' || c == '_' else inRanges nameStartRanges c

def isNameChar (c : Char) : Bool :=
  if c.toNat ≤ 128 then c.isAlphanum || c == ':' || c == '_' || c == '-' || c == '.'
  else inRanges nameStartRanges c || inRanges [(0xb7, 1), (0x300, 112), (0x203f, 2)] c

/-- A name with an optional qualifier in front of a colon. -/
structure TagName where
  qualifier : String
  name : String
deriving DecidableEq, Repr

structure RawAttribute where
  name : TagName
  value : List Char
deriving DecidableEq, Repr

inductive Piece where
  /-- A start tag, or the tag of an empty element. -/
  | opening (name : TagName) (attributes : List RawAttribute) (empty : Bool)
  | closing (name : TagName)
  | characters (raw : List Char)
  | cdata (raw : List Char)
  /-- A comment or a processing instruction. -/
  | remark
deriving DecidableEq, Repr

/-- The qualified name that a run of name characters spells: at most one colon, and both parts
start like a name. -/
def TagName.ofChars? (run : List Char) : Option TagName :=
  let before := run.takeWhile (· != ':')
  let startsWell (part : List Char) : Bool := part.head?.any isNameStart
  match run.drop before.length with
  | [] => if startsWell before then some ⟨"", String.ofList before⟩ else none
  | _ :: after =>
    if (before.isEmpty || startsWell before) && startsWell after && !after.contains ':' then
      some ⟨String.ofList before, String.ofList after⟩
    else none

def spaces : Scanner (List Char) :=
  takeWhile isSpace

def tagName : Scanner TagName :=
  fun _ s =>
    let run := s.takeWhile isNameChar
    (TagName.ofChars? run).map fun name => (name, run.length)

def plainName : Scanner Unit := do
  let _ ← one isNameStart
  let _ ← takeWhile isNameChar

/-- The length of the text in front of the first occurrence of `stop`, if only document
characters are in front of it. -/
def lengthUntil (stop : List Char) : List Char → Option Nat
  | [] => none
  | c :: r =>
    if stop.isPrefixOf (c :: r) then some 0
    else if isDocumentChar c then (lengthUntil stop r).map (· + 1)
    else none

/-- The text in front of the first `stop`, which is taken along. -/
def upTo (stop : String) : Scanner (List Char) :=
  fun _ s => (lengthUntil stop.toList s).map fun n => (s.take n, n + stop.length)

/-- An attribute: its value stands in quotes of one kind and holds no angle bracket that opens
a tag. -/
def rawAttribute : Scanner RawAttribute := do
  let name ← tagName
  let _ ← spaces
  text "="
  let _ ← spaces
  let quote ← one fun c => c == '"' || c == '\''
  let value ← takeWhile fun c => c != quote && c != '<'
  require (value.all isDocumentChar)
  let _ ← one (· == quote)
  return ⟨name, value⟩

/-- A start tag or the tag of an empty element. White space stands in front of every attribute. -/
def openingTag : Scanner Piece := do
  text "<"
  let name ← tagName
  let attributes ← many do
    let _ ← one isSpace
    let _ ← spaces
    rawAttribute
  let _ ← spaces
  let empty ← test (text "/")
  text ">"
  return .opening name attributes empty

def closingTag : Scanner Piece := do
  text "</"
  let name ← tagName
  let _ ← spaces
  text ">"
  return .closing name

def comment : Scanner Piece := do
  text "<!--"
  let content ← upTo "-->"
  require (!hasDoubleHyphen content)
  return .remark
where
  /-- Two hyphens in a row, or one at the end. -/
  hasDoubleHyphen : List Char → Bool
    | [] => false
    | ['-'] => true
    | '-' :: '-' :: _ => true
    | _ :: r => hasDoubleHyphen r

/-- A processing instruction; the XML declaration is none. -/
def instruction : Scanner Piece := do
  require !(← ahead "<?xml ")
  text "<?"
  plainName
  let _ ← upTo "?>"
  return .remark

def cdataSection : Scanner Piece := do
  text "<![CDATA["
  return .cdata (← upTo "]]>")

/-- Character data up to the next angle bracket that opens a tag, without the end mark of a
CDATA section. -/
def characterData : Scanner Piece := do
  let raw ← takeWhile (· != '<')
  require (!raw.isEmpty && raw.all isDocumentChar && (lengthUntil "]]>".toList raw).isNone)
  return .characters raw

def piece : Scanner Piece :=
  either comment (either cdataSection
    (either instruction (either closingTag (either openingTag characterData))))

/-- One part of the XML declaration: an attribute whose name starts with `start`, with white
space behind it unless the declaration ends there. -/
def declarationPart (start : String) : Scanner Unit := do
  require (← ahead start)
  let _ ← rawAttribute
  let gap ← spaces
  require (!gap.isEmpty || (← ahead "?>"))

/-- The XML declaration at the start of a document: the version, then possibly the encoding and
the standalone mark. -/
def declaration : Scanner Unit := do
  text "<?xml "
  let _ ← spaces
  declarationPart "version"
  let _ ← option (declarationPart "encoding")
  let _ ← option (declarationPart "standalone")
  text "?>"

/-- The pieces of a whole document, after a byte order mark and the declaration, if any. -/
def document : Scanner (List Piece) := do
  let _ ← option (text "\ufeff")
  if ← ahead "<?xml " then declaration
  many piece

end WitnessReplay.Xml
