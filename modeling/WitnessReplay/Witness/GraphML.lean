import WitnessReplay.Witness.Graph
import WitnessReplay.Witness.Sanitize
import WitnessReplay.Xml.Document

/-!
# Reading witnesses

Witnesses are written in GraphML. Keys are declared with a name, a domain and possibly a
default value; the data of the graph, its nodes and its edges refer to them.
-/

namespace WitnessReplay.Witness

open Xml (Node)

structure Key where
  name : String
  /-- The kind of element that the default value is for, or `all`. -/
  domain : String
  default : Option String
deriving Repr

abbrev Keys := OrderedMap String Key

def Keys.declare (keys : Keys) (element : Node) : Except FormatFault Keys :=
  match element.attribute? "id" with
  | none => .error .keyWithoutId
  | some id => .ok <| keys.insert id
      { name := (element.attribute? "attr.name").getD id
        domain := (element.attribute? "for").getD "all"
        default := (element.elements "default").head?.map fun d => Text.trim d.leadingText }

/-- The name that data with the given key gets: an undeclared key stands for itself. -/
def Keys.nameOf (keys : Keys) (key : String) : String :=
  ((keys.get? key).map (·.name)).getD key

def Keys.applyDefaults (keys : Keys) (domain : String) (data : Attributes) : Attributes :=
  keys.values.foldl (fun data key =>
    if key.domain = domain ∨ key.domain = "all" then
      match key.default with
      | some value => data.insertNew key.name value
      | none => data
    else data) data

def givenData (keys : Keys) (element : Node) : Attributes :=
  (element.elements "data").foldl (fun data d =>
    match d.attribute? "key" with
    | some key => data.insert (keys.nameOf key) d.allText
    | none => data) ∅

def elementData (keys : Keys) (domain : String) (element : Node) : Attributes :=
  keys.applyDefaults domain (givenData keys element)

/-- The nodes read so far, with an index of their places by identifier. -/
structure NodeTable where
  nodes : List Vertex
  index : OrderedMap String Nat
  isIndex : index.entries = nodes.zipIdx.map fun (v, i) => (v.id, i)

namespace NodeTable

def empty : NodeTable where
  nodes := []
  index := ∅
  isIndex := rfl

def add (t : NodeTable) (id : String) (data : Attributes) (hnew : t.index.get? id = none) :
    NodeTable where
  nodes := t.nodes ++ [⟨id, data⟩]
  index := t.index.insert id t.nodes.length
  isIndex := by
    rw [OrderedMap.insert, OrderedMap.insertEntry_of_get?_eq_none hnew, t.isIndex,
      List.zipIdx_append, List.map_append, Nat.zero_add]
    rfl

end NodeTable

def addNode (keys : Keys) (t : NodeTable) (element : Node) : Except FormatFault NodeTable :=
  match element.attribute? "id" with
  | none => .error .nodeWithoutId
  | some id =>
    match hid : t.index.get? id with
    | some _ => .error (.duplicateNode id)
    | none => .ok (t.add id (elementData keys "node" element) hid)

/-- The place of the node with an identifier. A node that was not declared is added, with
default values only. -/
def nodeIndex (keys : Keys) (t : NodeTable) (id : String) : Nat × NodeTable :=
  match hid : t.index.get? id with
  | some i => (i, t)
  | none => (t.nodes.length, t.add id (keys.applyDefaults "node" ∅) hid)

def addEdge (keys : Keys) (read : NodeTable × List Edge) (element : Node) :
    Except FormatFault (NodeTable × List Edge) :=
  match element.attribute? "source", element.attribute? "target" with
  | some source, some target =>
    let (start, t) := nodeIndex keys read.1 source
    let (stop, t) := nodeIndex keys t target
    .ok (t, read.2 ++ [⟨start, stop, elementData keys "edge" element⟩])
  | _, _ => .error .edgeWithoutEnds

/-- The graph of a document with the given root element: keys first, then nodes, then edges. -/
def Graph.ofDocument (origin : String) (root : Node) : Except FormatFault Graph := do
  let name := root.elementName?.getD ""
  if name ≠ "graphml" then throw (.unexpectedRoot name)
  let keys ← (root.elements "key").foldlM Keys.declare ∅
  match (root.elements "graph").head? with
  | none => throw .noGraph
  | some graph =>
    let declared ← (graph.elements "node").foldlM (addNode keys) .empty
    let (table, edges) ← (graph.elements "edge").foldlM (addEdge keys) (declared, [])
    return { origin, attributes := elementData keys "graph" graph, nodes := table.nodes, edges }

def Graph.ofXml (document origin : String) : Except WitnessError Graph :=
  match Xml.parse? document with
  | none => .error ⟨origin, .notXml⟩
  | some root =>
    match Graph.ofDocument origin root with
    | .ok graph => .ok graph
    | .error fault => .error ⟨origin, .format fault⟩

/-- The graph that a text describes, which is a document once its angle brackets are escaped. -/
def Graph.ofText (text origin : String) : Except WitnessError Graph :=
  Graph.ofXml (sanitize text) origin

end WitnessReplay.Witness
