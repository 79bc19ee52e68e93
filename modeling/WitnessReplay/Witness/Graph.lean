import WitnessReplay.Language
import WitnessReplay.OrderedMap
import WitnessReplay.Witness.Error

/-!
# Witness graphs

A witness is a directed graph whose nodes and edges carry attributes by name. Edges refer to
nodes by their indices, and for each node the graph lists the indices of the edges that leave
it.
-/

namespace WitnessReplay.Witness

abbrev Attributes := OrderedMap String String

structure Vertex where
  id : String
  data : Attributes
deriving Repr

structure Edge where
  source : Nat
  target : Nat
  data : Attributes
deriving Repr

def isTrue (value : String) : Bool :=
  let text := Text.asciiLower (Text.trim value)
  text == "true" || text == "1"

def Vertex.flag (v : Vertex) (key : String) : Bool :=
  (v.data.get? key).any isTrue

def Vertex.isEntry (v : Vertex) : Bool :=
  v.flag "isEntryNode"

def Vertex.isViolation (v : Vertex) : Bool :=
  v.flag "isViolationNode"

def noteEdge (lists : List (List Nat)) (edge : Edge × Nat) : List (List Nat) :=
  lists.modify edge.1.source (· ++ [edge.2])

/-- The indices of the edges that leave each of `n` nodes, noted edge by edge. -/
def adjacencyLists (n : Nat) (edges : List Edge) : List (List Nat) :=
  edges.zipIdx.foldl noteEdge (List.replicate n [])

structure Graph where
  /-- Where the witness was read from. -/
  origin : String
  attributes : Attributes
  nodes : List Vertex
  edges : List Edge
  adjacency : List (List Nat) := adjacencyLists nodes.length edges
  isAdjacency : adjacency = adjacencyLists nodes.length edges := by rfl
deriving Repr

namespace Graph

def producer (g : Graph) : Option String :=
  g.attributes.get? "producer"

def witnessType (g : Graph) : Option String :=
  g.attributes.get? "witness-type"

def sourceLanguage (g : Graph) : Option String :=
  g.attributes.get? "sourcecodelang"

def nodeId (g : Graph) (i : Nat) : String :=
  (g.nodes[i]?.map (·.id)).getD ""

def nodesWhere (g : Graph) (p : Vertex → Bool) : List Nat :=
  (g.nodes.zipIdx.filter fun (v, _) => p v).map (·.2)

def outgoing (g : Graph) (v : Nat) : List Nat :=
  g.adjacency[v]?.getD []

def error (g : Graph) (fault : StructureFault) : WitnessError :=
  ⟨g.origin, .structural fault⟩

end Graph

theorem length_le_of_mem_noteEdge {lists : List (List Nat)} {bound : Nat}
    (h : ∀ l ∈ lists, l.length ≤ bound)
    (edge : Edge × Nat) : ∀ l ∈ noteEdge lists edge, l.length ≤ bound + 1 := by
  intro l hl
  obtain ⟨v, hv⟩ := List.getElem?_of_mem hl
  rw [noteEdge, List.getElem?_modify] at hv
  obtain ⟨old, hold, rfl⟩ := Option.map_eq_some_iff.1 hv
  have hle := h old (List.mem_of_getElem? hold)
  split
  · rw [List.length_append]
    exact Nat.add_le_add_right hle 1
  · exact Nat.le_succ_of_le hle

theorem length_le_of_mem_foldl_noteEdge (edges : List (Edge × Nat)) {lists : List (List Nat)}
    {bound : Nat} (h : ∀ l ∈ lists, l.length ≤ bound) : ∀ l ∈ edges.foldl noteEdge lists,
    l.length ≤ bound + edges.length := by
  induction edges generalizing lists bound with
  | nil => exact h
  | cons edge edges ih =>
    intro l hl
    have hle := ih (length_le_of_mem_noteEdge h edge) l hl
    rw [List.length_cons]
    omega

theorem Graph.length_outgoing_le (g : Graph) (v : Nat) :
    (g.outgoing v).length ≤ g.edges.length := by
  have hlists : ∀ l ∈ g.adjacency, l.length ≤ g.edges.length := by
    intro l hl
    rw [g.isAdjacency] at hl
    have hempty : ∀ l ∈ List.replicate g.nodes.length ([] : List Nat), l.length ≤ 0 := by
      intro l hl
      rw [List.eq_of_mem_replicate hl]
      exact Nat.le_refl 0
    have hle := length_le_of_mem_foldl_noteEdge g.edges.zipIdx hempty l hl
    rwa [Nat.zero_add, List.length_zipIdx] at hle
  unfold Graph.outgoing
  cases hv : g.adjacency[v]? with
  | none => exact Nat.zero_le _
  | some l => exact hlists l (List.mem_of_getElem? hv)

/-- Something about a witness that does not prevent its replay. -/
inductive Warning where
  | noType
  | noLanguage
  | otherLanguage (declared : String)
deriving DecidableEq, Repr

def Warning.message : Warning → String
  | noType => "witness type is not specified"
  | noLanguage => "witness source code language is not specified"
  | otherLanguage _ => "witness source language differs from the selected frontend"

/-- The warnings given before the check ended, and the fault at which it ended, if any. -/
structure AttributeCheck where
  warnings : List Warning := []
  fault : Option StructureFault := none
deriving DecidableEq, Repr

/-- Checks the source language of a witness that is replayed as a program in `language`. -/
def Graph.checkLanguage (g : Graph) (language : Language) : AttributeCheck :=
  match g.sourceLanguage with
  | none => { warnings := [.noLanguage] }
  | some tag =>
    if language.matchesTag tag then {}
    else if [Language.java, .kotlin].any (·.matchesTag tag) then
      { warnings := [.otherLanguage tag] }
    else { fault := some (.unsupportedLanguage tag) }

/-- Checks the type and then the source language of a witness. What is not given only causes a
warning. -/
def Graph.checkAttributes (g : Graph) (language : Language) : AttributeCheck :=
  match g.witnessType with
  | some type =>
    if Text.trim type = "violation_witness" then g.checkLanguage language
    else { fault := some (.unsupportedType type) }
  | none =>
    let check := g.checkLanguage language
    { check with warnings := .noType :: check.warnings }

end WitnessReplay.Witness
