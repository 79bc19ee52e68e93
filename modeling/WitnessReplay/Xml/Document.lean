import WitnessReplay.Xml.Reference

/-!
# XML documents

A document as a tree of elements and texts. Tags must nest, every qualifier must be bound to a
namespace, and no element has two attributes of one name in one namespace. Names are kept
without their qualifiers, because elements and attributes are looked up by name alone.
-/

namespace WitnessReplay.Xml

def reservedNames : String := "http://www.w3.org/"

def xmlNamespace : String := reservedNames ++ "XML/1998/namespace"

def declarationNamespace : String := reservedNames ++ "2000/xmlns/"

/-- An attribute. The namespace is absent for a name without a qualifier. -/
structure Attribute where
  space : Option String
  name : String
  value : String
deriving DecidableEq, Repr

inductive Node where
  | element (name : String) (attributes : List Attribute) (children : List Node)
  | text (content : String)
  /-- A comment or a processing instruction. -/
  | remark
deriving Repr

/-- Namespaces by their qualifiers; the default namespace has the empty qualifier. -/
abbrev Scope := List (String × String)

/-- A namespace declaration among the attributes of an element, given those in front of it:
which qualifier is bound, if it is to be kept. Reserved namespaces and qualifiers keep their
meaning, and no qualifier is bound twice. -/
def declare (scope : Scope) (name : TagName) (value : String) : Option Scope :=
  if name.qualifier = "xmlns" then
    if value = declarationNamespace then none
    else if (name.name = "xml") ≠ (value = xmlNamespace) then none
    else if (scope.lookup name.name).isSome then none
    else if value = xmlNamespace then some scope
    else some (scope ++ [(name.name, value)])
  else if value = xmlNamespace ∨ value = declarationNamespace then none
  else some (scope ++ [("", value)])

def isDeclaration (name : TagName) : Bool :=
  name.qualifier == "xmlns" || name.name == "xmlns"

/-- Separates the attributes of a tag into namespace declarations and others, with their values
decoded. -/
def readAttributes (scope : Scope) (others : List (TagName × String)) :
    List RawAttribute → Option (Scope × List (TagName × String))
  | [] => some (scope, others)
  | a :: rest => do
    let value ← decodeAttribute a.value
    if isDeclaration a.name then readAttributes (← declare scope a.name value) others rest
    else readAttributes scope (others ++ [(a.name, value)]) rest

def attributeSpace (scope : Scope) (name : TagName) : Option (Option String) :=
  if name.qualifier = "xml" then some (some xmlNamespace)
  else if name.qualifier = "" then some none
  else (scope.lookup name.qualifier).map some

def resolveAttributes (scope : Scope) (done : List Attribute) :
    List (TagName × String) → Option (List Attribute)
  | [] => some done
  | (name, value) :: rest => do
    let space ← attributeSpace scope name
    if done.any fun a => a.space = space ∧ a.name = name.name then none
    else resolveAttributes scope (done ++ [⟨space, name.name, value⟩]) rest

/-- An element whose end tag has not been read. -/
structure OpenElement where
  name : TagName
  attributes : List Attribute
  scope : Scope
  /-- The children so far, last one first. -/
  children : List Node

def OpenElement.close (e : OpenElement) : Node :=
  .element e.name.name e.attributes e.children.reverse

/-- The element with one more child; texts side by side become one. -/
def OpenElement.add (e : OpenElement) (n : Node) : OpenElement :=
  match n, e.children with
  | .text t, .text t' :: before => { e with children := .text (t' ++ t) :: before }
  | _, _ => { e with children := n :: e.children }

/-- How far a document has been read: the open elements, innermost first, and the root element
once it is closed. -/
structure Reading where
  opened : List OpenElement := []
  root : Option Node := none

namespace Reading

/-- Puts a node where the document has been read to; outside the root element there is room for
the root only. -/
def put (r : Reading) (n : Node) : Option Reading :=
  match r.opened with
  | e :: outer => some { r with opened := e.add n :: outer }
  | [] => if r.root.isSome then none else some { r with root := some n }

def start (r : Reading) (name : TagName) (attributes : List RawAttribute) : Option OpenElement := do
  let outer := (r.opened.head?.map (·.scope)).getD []
  let (own, others) ← readAttributes [] [] attributes
  let scope := own ++ outer
  let attributes ← resolveAttributes scope [] others
  if name.qualifier = "" ∨ (name.qualifier ≠ "xmlns" ∧ (scope.lookup name.qualifier).isSome) then
    some { name, attributes, scope, children := [] }
  else none

def step (r : Reading) (p : Piece) : Option Reading :=
  match p with
  | .opening name attributes empty => do
    let e ← r.start name attributes
    if empty then r.put e.close
    else if r.opened.isEmpty && r.root.isSome then none
    else some { r with opened := e :: r.opened }
  | .closing name =>
    match r.opened with
    | e :: outer => if e.name = name then { r with opened := outer }.put e.close else none
    | [] => none
  | .characters raw =>
    if r.opened.isEmpty then if raw.all isSpace then some r else none
    else (decodeText raw).bind fun t => r.put (.text t)
  | .cdata raw => if r.opened.isEmpty then none else r.put (.text (decodeCdata raw))
  | .remark => if r.opened.isEmpty then some r else r.put .remark

def finish (r : Reading) : Option Node :=
  if r.opened.isEmpty then r.root else none

end Reading

def parse? (source : String) : Option Node := do
  let pieces ← document.runAll source.toList
  let reading ← pieces.foldlM Reading.step {}
  reading.finish

namespace Node

def elementName? : Node → Option String
  | element name _ _ => some name
  | _ => none

def children : Node → List Node
  | element _ _ children => children
  | _ => []

def attribute? (n : Node) (name : String) : Option String :=
  match n with
  | element _ attributes _ =>
    (attributes.find? fun a => a.space = none ∧ a.name = name).map (·.value)
  | _ => none

def elements (n : Node) (name : String) : List Node :=
  n.children.filter fun c => c.elementName? == some name

/-- The text with which the content of an element starts; empty if it starts with something else. -/
def leadingText (n : Node) : String :=
  match n.children with
  | text t :: _ => t
  | _ => ""

mutual

def allText : Node → String
  | element _ _ children => allTexts children
  | text t => t
  | remark => ""

def allTexts : List Node → String
  | [] => ""
  | n :: ns => n.allText ++ allTexts ns

end

end Node

end WitnessReplay.Xml
