import WitnessReplay.Proofs.ElementOrder
import WitnessReplay.Proofs.InsertionOrder

/-!
# The shape of a graph that is read

Nodes arise twice: first from their own elements, and then from edges that mention what no
element has declared. Here the two kinds are told apart. The declared nodes come first, in the
order of their elements, and the others follow in the order in which they are first mentioned.
Edges lead to nodes by number, and each edge is listed with the node where it starts.
-/

namespace WitnessReplay.Witness

open Xml (Node)
open List

variable {keys : Keys} {origin : String} {graph : Node} {g : Graph}

/-! ### Nodes -/

/-- The identifiers that are mentioned without being declared, each where it is first mentioned. -/
def undeclared (declared mentioned : List String) : List String :=
  (mentioned.filter (· ∉ declared)).eraseDups

theorem mem_undeclared_iff {declared mentioned : List String} {id : String} :
    id ∈ undeclared declared mentioned ↔ id ∈ mentioned ∧ id ∉ declared := by
  simp [undeclared]

theorem undeclared_concat (declared mentioned : List String) (id : String) :
    undeclared declared (mentioned ++ [id]) =
      if id ∈ declared ++ undeclared declared mentioned then undeclared declared mentioned
      else undeclared declared mentioned ++ [id] := by
  simp only [mem_append, mem_undeclared_iff]
  unfold undeclared
  rw [filter_append]
  by_cases hold : id ∈ declared
  · simp [hold]
  · have hnew : [id].filter (· ∉ declared) = [id] := by simp [hold]
    rw [hnew, OrderedMap.eraseDups_concat]
    simp [hold]

def mentionedVertex (keys : Keys) (id : String) : Vertex :=
  ⟨id, keys.applyDefaults "node" ∅⟩

theorem ids_append_mentioned (keys : Keys) (nodes : List Vertex) (ids : List String) :
    (nodes ++ ids.map (mentionedVertex keys)).map (·.id) = nodes.map (·.id) ++ ids := by
  rw [map_append, map_map]
  exact congrArg (_ ++ ·) (map_id ids)

theorem foldl_mention_eq (keys : Keys) (nodes : List Vertex) (ids : List String) :
    ids.foldl (mention keys) nodes =
      nodes ++ (undeclared (nodes.map (·.id)) ids).map (mentionedVertex keys) := by
  induction ids using List.reverseRecOn with
  | nil => exact (append_nil nodes).symm
  | append_singleton ids id ih =>
    rw [foldl_append, ih, undeclared_concat]
    show mention keys _ id = _
    rw [mention, ids_append_mentioned]
    split
    · rfl
    · rw [map_append, append_assoc]
      rfl

def declaredIds (graph : Node) : List String :=
  (graph.elements "node").filterMap (·.attribute? "id")

def mentionedIds (graph : Node) : List String :=
  undeclared (declaredIds graph) ((graph.elements "edge").flatMap endsOf)

theorem WellFormed.id_vertexOf (h : WellFormed keys graph) {element : Node}
    (helement : element ∈ graph.elements "node") :
    element.attribute? "id" = some (vertexOf keys element).id := by
  obtain ⟨id, hid⟩ := Option.isSome_iff_exists.1 (h.id element helement)
  rw [vertexOf, hid, Option.getD_some]

theorem WellFormed.ids_vertexOf (h : WellFormed keys graph) :
    ((graph.elements "node").map (vertexOf keys)).map (·.id) = declaredIds graph := by
  rw [map_map]
  exact (filterMap_eq_map_iff_forall_eq_some.2 fun element helement =>
    h.id_vertexOf helement).symm

theorem WellFormed.map_some_declaredIds (h : WellFormed keys graph) :
    (graph.elements "node").map (·.attribute? "id") = (declaredIds graph).map some := by
  rw [← h.ids_vertexOf, map_map, map_map]
  exact map_congr_left fun element helement => h.id_vertexOf helement

/-- The nodes that are declared, and behind them those that only edges mention. -/
theorem WellFormed.nodesOf_eq (h : WellFormed keys graph) :
    nodesOf keys graph = (graph.elements "node").map (vertexOf keys) ++
    (mentionedIds graph).map (mentionedVertex keys) := by
  rw [nodesOf, foldl_mention_eq, h.ids_vertexOf]
  rfl

theorem WellFormed.ids_nodesOf (h : WellFormed keys graph) :
    (nodesOf keys graph).map (·.id) = declaredIds graph ++ mentionedIds graph := by
  rw [h.nodesOf_eq, ids_append_mentioned, h.ids_vertexOf]

/-! ### Edges -/

/-- Whether a number leads to the node that an attribute of an element names. -/
structure LeadsTo (nodes : List Vertex) (i : Nat) (id? : Option String) : Prop where
  lt : i < nodes.length
  id : id? = some nodes[i].id

theorem leadsTo_indexOf {nodes : List Vertex} {id? : Option String} (hsome : id?.isSome)
    (hmem : id?.getD "" ∈ nodes.map (·.id)) : LeadsTo nodes (indexOf nodes (id?.getD "")) id? := by
  obtain ⟨id, rfl⟩ := Option.isSome_iff_exists.1 hsome
  rw [Option.getD_some] at hmem ⊢
  have hat : (nodes.map (·.id))[indexOf nodes id]? = some id := getElem?_idxOf hmem
  rw [getElem?_map] at hat
  obtain ⟨v, hv, rfl⟩ := Option.map_eq_some_iff.1 hat
  obtain ⟨hlt, heq⟩ := List.getElem?_eq_some_iff.1 hv
  exact ⟨hlt, by rw [heq]⟩

def Edge.Joins (nodes : List Vertex) (element : Node) (e : Edge) : Prop :=
  LeadsTo nodes e.source (element.attribute? "source") ∧
    LeadsTo nodes e.target (element.attribute? "target")

theorem WellFormed.joins_edgeOf (h : WellFormed keys graph) {element : Node}
    (helement : element ∈ graph.elements "edge") :
    Edge.Joins (nodesOf keys graph) element (edgeOf keys (nodesOf keys graph) element) := by
  obtain ⟨hsource, htarget⟩ := h.ends element helement
  obtain ⟨hsource', htarget'⟩ := h.end_mem_nodesOf helement
  exact ⟨leadsTo_indexOf hsource hsource', leadsTo_indexOf htarget htarget'⟩

theorem WellFormed.forall₂_joins (h : WellFormed keys graph) :
    List.Forall₂ (Edge.Joins (nodesOf keys graph)) (graph.elements "edge")
    (graphOf origin keys graph).edges := by
  show List.Forall₂ _ _ ((graph.elements "edge").map _)
  rw [List.forall₂_map_right_iff, List.forall₂_same]
  intro element helement
  exact h.joins_edgeOf helement

/-! ### Outgoing edges -/

theorem Graph.adjacency_eq_map_outgoing (g : Graph) :
    g.adjacency = (List.range g.nodes.length).map g.outgoing := by
  rw [g.isAdjacency, Graph.adjacencyLists_eq]
  apply map_congr_left
  intro v hv
  exact (Graph.outgoing_of_lt (mem_range.1 hv)).symm

theorem Graph.mem_outgoing_iff_of_endsInRange (hrange : EndsInRange g.nodes g.edges) {v i : Nat} :
    i ∈ g.outgoing v ↔ ∃ e, g.edges[i]? = some e ∧ e.source = v := by
  rw [Graph.mem_outgoing_iff]
  constructor
  · exact And.right
  · rintro ⟨e, hedge, rfl⟩
    exact ⟨(hrange e (mem_of_getElem? hedge)).1, e, hedge, rfl⟩

/-! ### The whole graph -/

/-- What a graph element says about the nodes and edges of a graph. -/
structure ShapedBy (graph : Node) (g : Graph) : Prop where
  /-- Every node element has an identifier. -/
  declared : (graph.elements "node").map (·.attribute? "id") = (declaredIds graph).map some
  /-- The declared nodes come first, and then those that only edges mention. -/
  ids : g.nodes.map (·.id) = declaredIds graph ++ mentionedIds graph
  nodup : (g.nodes.map (·.id)).Nodup
  /-- There is one edge for each edge element, between the nodes that it names. -/
  edges : List.Forall₂ (Edge.Joins g.nodes) (graph.elements "edge") g.edges
  /-- The graph has a list of outgoing edges for every node. -/
  listed : g.adjacency = (List.range g.nodes.length).map g.outgoing
  increasing : ∀ v, (g.outgoing v).Pairwise (· < ·)
  outgoing : ∀ v i, i ∈ g.outgoing v ↔ ∃ e, g.edges[i]? = some e ∧ e.source = v

/-- **The shape of a graph.** The nodes of a graph that is read are told apart by their
identifiers: they are those of the node elements, in order, and then those that only edges
mention, in the order of their first mention. Each edge element gives one edge, between nodes
of the graph with the identifiers that it names, and each node lists its outgoing edges in
increasing order. -/
theorem shapedBy_of_ofText {text : String} (h : Graph.ofText text origin = .ok g) :
    ∃ root graph, Xml.parse? (sanitize text) = some root ∧
      (root.elements "graph").head? = some graph ∧ ShapedBy graph g := by
  obtain ⟨root, hroot, hdoc⟩ := ofText_eq_ok_iff.1 h
  have hrange := endsInRange_ofDocument hdoc
  obtain ⟨-, keys, graph, -, hgraph, hwell, rfl⟩ := ofDocument_eq_ok_iff.1 hdoc
  refine ⟨root, graph, hroot, hgraph, ?_⟩
  constructor
  · exact hwell.map_some_declaredIds
  · exact hwell.ids_nodesOf
  · exact hwell.nodup_nodesOf
  · exact hwell.forall₂_joins
  · exact Graph.adjacency_eq_map_outgoing _
  · exact Graph.outgoing_increasing _
  · intro v i
    exact Graph.mem_outgoing_iff_of_endsInRange hrange

def mentioningDocument : List Char :=
  "<graphml><key id='k' attr.name='isEntryNode' for='node'><default> no </default></key><graph>".toList ++
  "<node id='a'><data key='k'>1</data></node>".toList ++ "<edge source='c' target='a'/>".toList ++
  "<edge source='b' target='c'/>".toList ++ "</graph></graphml>".toList

theorem exists_ofText_mentioningDocument :
    ∃ g, Graph.ofText (.ofList mentioningDocument) "mentions" = .ok g ∧
      g.nodes.map (fun v => (v.id, v.data.get? "isEntryNode")) =
        [("a", some "1"), ("c", some "no"), ("b", some "no")] ∧
        g.edges.map (fun e => (e.source, e.target)) = [(1, 0), (2, 1)] := by
  have heval : (rootOf? mentioningDocument).map (fun root =>
      (Graph.ofDocument "mentions" root).map fun g =>
        (g.nodes.map (fun v => (v.id, v.data.get? "isEntryNode")),
        g.edges.map (fun e => (e.source, e.target)))) =
          some (.ok ([("a", some "1"), ("c", some "no"), ("b", some "no")], [(1, 0), (2, 1)])) := by
    decide +kernel
  obtain ⟨root, hroot, hgraph⟩ := Option.map_eq_some_iff.1 heval
  obtain ⟨g, hdoc, hg⟩ := map_eq_ok_iff.1 hgraph
  obtain ⟨hnodes, hedges⟩ := Prod.mk.inj hg
  exact ⟨g, ofText_eq_ok_iff.2 ⟨root, (parse?_sanitize_ofList mentioningDocument).trans hroot,
    hdoc⟩, hnodes, hedges⟩

theorem shapedBy_mentioningDocument :
    ∃ g root graph, Graph.ofText (.ofList mentioningDocument) "mentions" = .ok g ∧
      Xml.parse? (sanitize (.ofList mentioningDocument)) = some root ∧
      (root.elements "graph").head? = some graph ∧
        ShapedBy graph g ∧ declaredIds graph ++ mentionedIds graph = ["a", "c", "b"] ∧
          g.edges.map (fun e => (e.source, e.target)) = [(1, 0), (2, 1)] := by
  obtain ⟨g, hread, hnodes, hedges⟩ := exists_ofText_mentioningDocument
  obtain ⟨root, graph, hroot, hgraph, hshape⟩ := shapedBy_of_ofText hread
  refine ⟨g, root, graph, hread, hroot, hgraph, hshape, ?_, hedges⟩
  have hids := congrArg (List.map (·.1)) hnodes
  rw [map_map] at hids
  exact hshape.ids.symm.trans hids

end WitnessReplay.Witness
