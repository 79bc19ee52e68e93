import WitnessReplay.Proofs.Relabelling

/-!
# The order of the elements of a graph

A graph is read element by element: nodes get their numbers in the order in which they are
declared, or else mentioned as ends of edges. Here the graph that is read is written down at
once. Its nodes and edges are the same in whatever order the elements stand, up to their
numbers, and so are all the answers that a witness gives.
-/

namespace WitnessReplay.Witness

open Xml (Node)
open List

variable {keys : Keys} {nodes nodes' : List Vertex} {t t' : NodeTable} {id : String}
    {ids : List String}
  {v : Vertex}

def indexOf (nodes : List Vertex) (id : String) : Nat :=
  (nodes.map (·.id)).idxOf id

def mention (keys : Keys) (nodes : List Vertex) (id : String) : List Vertex :=
  if id ∈ nodes.map (·.id) then nodes else nodes ++ [⟨id, keys.applyDefaults "node" ∅⟩]

theorem mention_of_mem (h : id ∈ nodes.map (·.id)) : mention keys nodes id = nodes :=
  if_pos h

theorem mention_of_notMem (h : id ∉ nodes.map (·.id)) :
    mention keys nodes id = nodes ++ [⟨id, keys.applyDefaults "node" ∅⟩] :=
  if_neg h

theorem mem_mention_iff : v ∈ mention keys nodes id ↔
    v ∈ nodes ∨ v.id = id ∧ v.id ∉ nodes.map (·.id) ∧ v.data = keys.applyDefaults "node" ∅ := by
  by_cases h : id ∈ nodes.map (·.id)
  · rw [mention_of_mem h]
    constructor
    · exact .inl
    · rintro (hv | ⟨rfl, hnot, -⟩)
      · exact hv
      · exact absurd h hnot
  · rw [mention_of_notMem h, mem_append, mem_singleton]
    obtain ⟨i, data⟩ := v
    constructor
    · rintro (hv | hv)
      · exact .inl hv
      · cases hv
        exact .inr ⟨rfl, h, rfl⟩
    · rintro (hv | ⟨rfl, -, rfl⟩)
      · exact .inl hv
      · exact .inr rfl

theorem id_mem_mention (keys : Keys) (nodes : List Vertex) (id : String) :
    id ∈ (mention keys nodes id).map (·.id) := by
  by_cases h : id ∈ nodes.map (·.id)
  · rwa [mention_of_mem h]
  · rw [mention_of_notMem h, map_append]
    exact mem_append_right _ mem_cons_self

theorem ids_subset_mention (h : id ∈ nodes.map (·.id)) (id' : String) :
    id ∈ (mention keys nodes id').map (·.id) := by
  obtain ⟨v, hv, rfl⟩ := mem_map.1 h
  exact mem_map_of_mem (mem_mention_iff.2 (.inl hv))

theorem nodup_ids_concat_iff : ((nodes ++ [v]).map (·.id)).Nodup ↔ v.id ∉ nodes.map (·.id) ∧
    (nodes.map (·.id)).Nodup := by
  rw [map_append, map_singleton, ← concat_eq_append, nodup_concat]

theorem nodup_mention (h : (nodes.map (·.id)).Nodup) (id : String) :
    ((mention keys nodes id).map (·.id)).Nodup := by
  by_cases hmem : id ∈ nodes.map (·.id)
  · rwa [mention_of_mem hmem]
  · rw [mention_of_notMem hmem]
    exact nodup_ids_concat_iff.2 ⟨hmem, h⟩

theorem indexOf_mention (h : id ∈ nodes.map (·.id)) (id' : String) :
    indexOf (mention keys nodes id') id = indexOf nodes id := by
  by_cases h' : id' ∈ nodes.map (·.id)
  · rw [mention_of_mem h']
  · rw [mention_of_notMem h', indexOf, map_append, idxOf_append_of_mem h, indexOf]

theorem findIdx_id (nodes : List Vertex) (id : String) :
    nodes.findIdx (·.id = id) = indexOf nodes id := by
  rw [indexOf, List.idxOf, findIdx_map]
  rfl

theorem nodeIndex_eq (keys : Keys) (t : NodeTable) (id : String) :
    (nodeIndex keys t id).1 = indexOf (mention keys t.nodes id) id ∧
      (nodeIndex keys t id).2.nodes = mention keys t.nodes id := by
  obtain ⟨i, hi, heq⟩ | ⟨hnone, hplace, hnodes⟩ := nodeIndex_cases keys t id
  · obtain ⟨hlt, rfl⟩ := findIdx?_eq_some_iff_findIdx_eq.1 hi
    obtain ⟨v, hv, hid⟩ := findIdx_lt_length.1 hlt
    have hmem : id ∈ t.nodes.map (·.id) := mem_map.2 ⟨v, hv, by simpa using hid⟩
    rw [mention_of_mem hmem, heq]
    exact ⟨findIdx_id t.nodes id, rfl⟩
  · have hnot : id ∉ t.nodes.map (·.id) := by
      rintro hmem
      obtain ⟨v, hv, rfl⟩ := mem_map.1 hmem
      simpa using findIdx?_eq_none_iff.1 hnone v hv
    rw [hplace, hnodes, mention_of_notMem hnot, indexOf, map_append, idxOf_append_of_notMem hnot]
    simp

theorem mem_foldl_mention_iff : v ∈ ids.foldl (mention keys) nodes ↔
    v ∈ nodes ∨ v.id ∈ ids ∧ v.id ∉ nodes.map (·.id) ∧ v.data = keys.applyDefaults "node" ∅ := by
  induction ids generalizing nodes with
  | nil => simp
  | cons id ids ih =>
    rw [foldl_cons, ih, mem_mention_iff]
    constructor
    · rintro ((hv | ⟨hid, hnot, hdata⟩) | ⟨hid, hnot, hdata⟩)
      · exact .inl hv
      · exact .inr ⟨hid ▸ mem_cons_self, hnot, hdata⟩
      · exact .inr ⟨mem_cons_of_mem _ hid, fun hmem => hnot (ids_subset_mention hmem id), hdata⟩
    · rintro (hv | ⟨hid, hnot, hdata⟩)
      · exact .inl (.inl hv)
      · by_cases heq : v.id = id
        · exact .inl (.inr ⟨heq, hnot, hdata⟩)
        · refine .inr ⟨(mem_cons.1 hid).resolve_left heq, fun hmem => ?_, hdata⟩
          obtain ⟨u, hu, hsame⟩ := mem_map.1 hmem
          rcases mem_mention_iff.1 hu with hu | ⟨hu, -⟩
          · exact hnot (mem_map.2 ⟨u, hu, hsame⟩)
          · exact heq (hsame.symm.trans hu)

theorem nodup_foldl_mention (h : (nodes.map (·.id)).Nodup) (ids : List String) :
    ((ids.foldl (mention keys) nodes).map (·.id)).Nodup := by
  induction ids generalizing nodes with
  | nil => exact h
  | cons id ids ih => exact ih (nodup_mention h id)

theorem indexOf_foldl_mention (h : id ∈ nodes.map (·.id)) (ids : List String) :
    indexOf (ids.foldl (mention keys) nodes) id = indexOf nodes id := by
  induction ids generalizing nodes with
  | nil => rfl
  | cons id' ids ih => rw [foldl_cons, ih (ids_subset_mention h id'), indexOf_mention h]

theorem id_mem_foldl_mention (h : id ∈ nodes.map (·.id) ∨ id ∈ ids) :
    id ∈ (ids.foldl (mention keys) nodes).map (·.id) := by
  by_cases hold : id ∈ nodes.map (·.id)
  · obtain ⟨v, hv, rfl⟩ := mem_map.1 hold
    exact mem_map_of_mem (mem_foldl_mention_iff.2 (.inl hv))
  · have hnew : ⟨id, keys.applyDefaults "node" ∅⟩ ∈ ids.foldl (mention keys) nodes :=
      mem_foldl_mention_iff.2 (.inr ⟨h.resolve_left hold, hold, rfl⟩)
    exact mem_map.2 ⟨_, hnew, rfl⟩

def vertexOf (keys : Keys) (element : Node) : Vertex :=
  ⟨(element.attribute? "id").getD "", elementData keys "node" element⟩

def endsOf (element : Node) : List String :=
  (element.attribute? "source").toList ++ (element.attribute? "target").toList

def edgeOf (keys : Keys) (nodes : List Vertex) (element : Node) : Edge where
  source := indexOf nodes ((element.attribute? "source").getD "")
  target := indexOf nodes ((element.attribute? "target").getD "")
  data := elementData keys "edge" element

/-- What the elements of a graph have to give: each node an identifier of its own, and each
edge two ends. -/
structure WellFormed (keys : Keys) (graph : Node) : Prop where
  id : ∀ element ∈ graph.elements "node", (element.attribute? "id").isSome
  nodup : (((graph.elements "node").map (vertexOf keys)).map (·.id)).Nodup
  ends : ∀ element ∈ graph.elements "edge", (element.attribute? "source").isSome ∧
    (element.attribute? "target").isSome

/-- The nodes of a graph: those that are declared, and those that edges mention besides. -/
def nodesOf (keys : Keys) (graph : Node) : List Vertex :=
  ((graph.elements "edge").flatMap endsOf).foldl (mention keys)
    ((graph.elements "node").map (vertexOf keys))

def graphOf (origin : String) (keys : Keys) (graph : Node) : Graph where
  origin := origin
  attributes := elementData keys "graph" graph
  nodes := nodesOf keys graph
  edges := (graph.elements "edge").map (edgeOf keys (nodesOf keys graph))

theorem addNode_eq_ok_iff {element : Node} :
    addNode keys t element = .ok t' ↔
      (element.attribute? "id").isSome ∧ (vertexOf keys element).id ∉ t.nodes.map (·.id) ∧
        t'.nodes = t.nodes ++ [vertexOf keys element] := by
  unfold addNode
  split
  · rename_i hid
    rw [hid]
    exact ⟨nofun, nofun⟩
  · rename_i id hid
    have hvertex : vertexOf keys element = ⟨id, elementData keys "node" element⟩ := by
      rw [vertexOf, hid, Option.getD_some]
    have hindexed : (t.index.get? id).isSome ↔ id ∈ t.nodes.map (·.id) := by
      rw [t.get?_index, findIdx?_isSome]
      simp
    rw [hvertex, hid]
    split
    · rename_i i hi
      refine ⟨nofun, fun h => absurd (hindexed.1 ?_) h.2.1⟩
      rw [hi]
      rfl
    · rename_i hnone
      constructor
      · intro h
        cases h
        refine ⟨rfl, fun hmem => ?_, rfl⟩
        have hsome := hindexed.2 hmem
        rw [hnone] at hsome
        cases hsome
      · rintro ⟨-, -, hnodes⟩
        exact congrArg Except.ok (NodeTable.ext hnodes.symm)

theorem foldlM_addNode_eq_ok_iff {elements : List Node} (hnodes : (t.nodes.map (·.id)).Nodup) :
    elements.foldlM (addNode keys) t = .ok t' ↔
      (∀ element ∈ elements, (element.attribute? "id").isSome) ∧
        ((t.nodes ++ elements.map (vertexOf keys)).map (·.id)).Nodup ∧
          t'.nodes = t.nodes ++ elements.map (vertexOf keys) := by
  induction elements generalizing t with
  | nil =>
    rw [map_nil, append_nil]
    constructor
    · intro h
      cases h
      exact ⟨by simp, hnodes, rfl⟩
    · rintro ⟨-, -, hsame⟩
      exact congrArg Except.ok (NodeTable.ext hsame.symm)
  | cons element rest ih =>
    rw [foldlM_cons, bind_eq_ok_iff, map_cons, append_cons, forall_mem_cons]
    constructor
    · rintro ⟨added, hadd, hrest⟩
      obtain ⟨hid, hnot, hadded⟩ := addNode_eq_ok_iff.1 hadd
      have hnodup : (added.nodes.map (·.id)).Nodup := hadded ▸ nodup_ids_concat_iff.2 ⟨hnot, hnodes⟩
      obtain ⟨hids, hall, hsame⟩ := (ih hnodup).1 hrest
      rw [hadded] at hall hsame
      exact ⟨⟨hid, hids⟩, hall, hsame⟩
    · rintro ⟨⟨hid, hids⟩, hall, hsame⟩
      have hnodup : ((t.nodes ++ [vertexOf keys element]).map (·.id)).Nodup := by
        rw [map_append] at hall
        exact (nodup_append.1 hall).1
      have hnot := (nodup_ids_concat_iff.1 hnodup).1
      obtain ⟨added, hadded⟩ : ∃ added :
        NodeTable, added.nodes = t.nodes ++ [vertexOf keys element] :=
        ⟨⟨_, ⟨_⟩, rfl⟩, rfl⟩
      refine ⟨added, addNode_eq_ok_iff.2 ⟨hid, hnot, hadded⟩, (ih (hadded ▸ hnodup)).2 ⟨hids, ?_⟩⟩
      rw [hadded]
      exact ⟨hall, hsame⟩

theorem addEdge_eq_ok_iff {edges : List Edge} {element : Node} {read : NodeTable × List Edge} :
    addEdge keys (t, edges) element = .ok read ↔
      ((element.attribute? "source").isSome ∧ (element.attribute? "target").isSome) ∧
        read.1.nodes = (endsOf element).foldl (mention keys) t.nodes ∧
          read.2 = edges ++ [edgeOf keys ((endsOf element).foldl (mention keys) t.nodes)
          element] := by
  unfold addEdge
  split
  · rename_i source target hsource htarget
    have hends : endsOf element = [source, target] := by rw [endsOf, hsource, htarget]; rfl
    have hindex :
        indexOf (mention keys (mention keys t.nodes source) target) source =
          indexOf (mention keys t.nodes source) source :=
      indexOf_mention (id_mem_mention keys t.nodes source) target
    obtain ⟨hstart, hfirst⟩ := nodeIndex_eq keys t source
    obtain ⟨hstop, hsecond⟩ := nodeIndex_eq keys (nodeIndex keys t source).2 target
    rw [hfirst] at hstop hsecond
    rw [hends, hsource, htarget]
    simp only [hstart, hstop, edgeOf, hsource, htarget, Option.getD_some, foldl_cons,
      foldl_nil, hindex]
    constructor
    · intro h
      cases h
      exact ⟨⟨rfl, rfl⟩, hsecond, rfl⟩
    · rintro ⟨-, hnodes, hedges⟩
      exact congrArg Except.ok (Prod.ext (NodeTable.ext (hsecond.trans hnodes.symm)) hedges.symm)
  · rename_i hends
    refine ⟨nofun, ?_⟩
    rintro ⟨⟨hsource, htarget⟩, -⟩
    obtain ⟨source, hsource⟩ := Option.isSome_iff_exists.1 hsource
    obtain ⟨target, htarget⟩ := Option.isSome_iff_exists.1 htarget
    exact absurd htarget (hends source target hsource)

theorem mem_endsOf {element : Node}
    (h : (element.attribute? "source").isSome ∧ (element.attribute? "target").isSome) :
    (element.attribute? "source").getD "" ∈ endsOf element ∧
    (element.attribute? "target").getD "" ∈ endsOf element := by
  obtain ⟨source, hsource⟩ := Option.isSome_iff_exists.1 h.1
  obtain ⟨target, htarget⟩ := Option.isSome_iff_exists.1 h.2
  simp [endsOf, hsource, htarget]

theorem edgeOf_foldl_mention {element : Node}
    (h : (element.attribute? "source").isSome ∧ (element.attribute? "target").isSome) :
    edgeOf keys (ids.foldl (mention keys) ((endsOf element).foldl (mention keys) nodes)) element =
      edgeOf keys ((endsOf element).foldl (mention keys) nodes) element := by
  obtain ⟨hsource, htarget⟩ := mem_endsOf h
  rw [edgeOf, edgeOf, indexOf_foldl_mention (id_mem_foldl_mention (.inr hsource)),
    indexOf_foldl_mention (id_mem_foldl_mention (.inr htarget))]

theorem foldlM_addEdge_eq_ok_iff {elements : List Node} {edges : List Edge}
    {read : NodeTable × List Edge} :
    elements.foldlM (addEdge keys) (t, edges) = .ok read ↔
      (∀ element ∈ elements, (element.attribute? "source").isSome ∧
      (element.attribute? "target").isSome) ∧
        read.1.nodes = (elements.flatMap endsOf).foldl (mention keys) t.nodes ∧
          read.2 = edges ++ elements.map
          (edgeOf keys ((elements.flatMap endsOf).foldl (mention keys) t.nodes)) := by
  induction elements generalizing t edges with
  | nil =>
    simp only [foldlM_nil, flatMap_nil, foldl_nil, map_nil, append_nil]
    constructor
    · intro h
      cases h
      exact ⟨by simp, rfl, rfl⟩
    · rintro ⟨-, hnodes, hedges⟩
      exact congrArg Except.ok (Prod.ext (NodeTable.ext hnodes.symm) hedges.symm)
  | cons element rest ih =>
    rw [foldlM_cons, bind_eq_ok_iff, forall_mem_cons, flatMap_cons,
      foldl_append, map_cons, append_cons]
    constructor
    · rintro ⟨⟨table, added⟩, hadd, hrest⟩
      obtain ⟨hends, htable, rfl⟩ := addEdge_eq_ok_iff.1 hadd
      obtain ⟨hall, hread⟩ := ih.1 hrest
      replace htable : table.nodes = _ := htable
      rw [htable] at hread
      rw [edgeOf_foldl_mention hends]
      exact ⟨⟨hends, hall⟩, hread⟩
    · rintro ⟨⟨hends, hall⟩, hread⟩
      obtain ⟨table, htable⟩ : ∃ table :
        NodeTable, table.nodes = (endsOf element).foldl (mention keys) t.nodes :=
        ⟨⟨_, ⟨_⟩, rfl⟩, rfl⟩
      rw [edgeOf_foldl_mention hends, ← htable] at hread
      exact ⟨(table, _), addEdge_eq_ok_iff.2 ⟨hends, htable, by rw [htable]⟩, ih.2 ⟨hall, hread⟩⟩

theorem Graph.eq_of_same {g g' : Graph} (horigin : g.origin = g'.origin)
    (hattributes : g.attributes = g'.attributes)
    (hnodes : g.nodes = g'.nodes) (hedges : g.edges = g'.edges) : g = g' := by
  obtain ⟨origin, attributes, nodes, edges, adjacency, hadjacency⟩ := g
  obtain ⟨origin', attributes', nodes', edges', adjacency', hadjacency'⟩ := g'
  dsimp only at horigin hattributes hnodes hedges
  subst horigin hattributes hnodes hedges hadjacency hadjacency'
  rfl

/-- The graph of a document, if there is one, is the graph that the elements of its first graph
element describe. -/
theorem ofDocument_eq_ok_iff {origin : String} {root : Node} {g : Graph} :
    Graph.ofDocument origin root = .ok g ↔
      root.elementName?.getD "" = "graphml" ∧
        ∃ keys graph, (root.elements "key").foldlM Keys.declare ∅ = .ok keys ∧
          (root.elements "graph").head? = some graph ∧
            WellFormed keys graph ∧ g = graphOf origin keys graph := by
  unfold Graph.ofDocument
  simp only []
  split
  · rename_i hname
    exact iff_of_false (by rintro ⟨⟩) fun h => hname h.1
  · rename_i hname
    have hnil : (NodeTable.empty.nodes.map (·.id)).Nodup := nodup_nil
    rw [bind_eq_ok_iff]
    constructor
    · rintro ⟨keys, hkeys, h⟩
      split at h
      · cases h
      · rename_i graph hgraph
        obtain ⟨declared, hdeclared, h⟩ := bind_eq_ok_iff.1 h
        obtain ⟨⟨table, edges⟩, hread, h⟩ := bind_eq_ok_iff.1 h
        obtain ⟨hid, hnodup, hnodes⟩ := (foldlM_addNode_eq_ok_iff hnil).1 hdeclared
        obtain ⟨hends, htable, hedges⟩ := foldlM_addEdge_eq_ok_iff.1 hread
        cases h
        refine ⟨not_not.1 hname, keys, graph, hkeys, hgraph, ⟨hid, hnodup, hends⟩, ?_⟩
        rw [hnodes] at htable hedges
        exact Graph.eq_of_same rfl rfl htable hedges
    · rintro ⟨-, keys, graph, hkeys, hgraph, hwell, rfl⟩
      refine ⟨keys, hkeys, ?_⟩
      rw [hgraph]
      obtain ⟨declared, hdeclared⟩ : ∃ declared :
        NodeTable, declared.nodes = (graph.elements "node").map (vertexOf keys) :=
        ⟨⟨_, ⟨_⟩, rfl⟩, rfl⟩
      obtain ⟨table, htable⟩ : ∃ table : NodeTable, table.nodes = nodesOf keys graph :=
        ⟨⟨_, ⟨_⟩, rfl⟩, rfl⟩
      refine bind_eq_ok_iff.2 ⟨declared,
        (foldlM_addNode_eq_ok_iff hnil).2 ⟨hwell.id, hwell.nodup, hdeclared⟩, ?_⟩
      refine bind_eq_ok_iff.2 ⟨(table,
        (graph.elements "edge").map (edgeOf keys (nodesOf keys graph))), ?_, ?_⟩
      · exact foldlM_addEdge_eq_ok_iff.2 ⟨hwell.ends, by rw [htable, nodesOf, hdeclared],
          by rw [nodesOf, hdeclared]; rfl⟩
      · exact congrArg Except.ok (Graph.eq_of_same rfl rfl htable rfl)

def isNodeOrEdge (n : Node) : Bool :=
  n.elementName? == some "node" || n.elementName? == some "edge"

section Reordering

variable {origin : String} {graph graph' root root' : Node} {g : Graph}

/-- A graph element whose nodes and edges stand in another order, while all else keeps its order. -/
inductive ReorderedGraph : Node → Node → Prop
  | intro {attributes : List Xml.Attribute} {children children' : List Node}
      (hperm : children.Perm children')
      (hothers : children'.filter (!isNodeOrEdge ·) = children.filter (!isNodeOrEdge ·)) :
      ReorderedGraph (.element "graph" attributes children) (.element "graph" attributes children')

inductive ReorderedDocument : Node → Node → Prop
  | intro {name : String} {attributes : List Xml.Attribute} {front back : List Node}
      {graph graph' : Node}
      (hfirst : ∀ n ∈ front, n.elementName? ≠ some "graph") (hgraph : ReorderedGraph graph graph') :
      ReorderedDocument (.element name attributes (front ++ graph :: back))
      (.element name attributes (front ++ graph' :: back))

theorem ReorderedGraph.elementName?_eq (h : ReorderedGraph graph graph') :
    graph.elementName? = some "graph" ∧ graph'.elementName? = some "graph" := by
  cases h
  exact ⟨rfl, rfl⟩

theorem ReorderedGraph.perm (h : ReorderedGraph graph graph') (name : String) :
    (graph.elements name).Perm (graph'.elements name) := by
  obtain ⟨hperm, -⟩ := h
  exact hperm.filter _

theorem ReorderedGraph.elementData_eq (h : ReorderedGraph graph graph') (keys : Keys)
    (domain : String) :
    elementData keys domain graph' = elementData keys domain graph := by
  obtain ⟨-, hothers⟩ := h
  -- Data elements are among what keeps its order.
  have hdata (children : List Node) : children.filter (·.elementName? == some "data") =
      (children.filter (!isNodeOrEdge ·)).filter (·.elementName? == some "data") := by
    rw [filter_filter]
    congr 1
    funext n
    by_cases hn : n.elementName? = some "data" <;> simp [isNodeOrEdge, hn]
  simp only [elementData, givenData, Node.elements, Node.children]
  rw [hdata, hothers, ← hdata]

theorem ReorderedDocument.elementName?_eq (h : ReorderedDocument root root') :
    root'.elementName? = root.elementName? := by
  cases h
  rfl

theorem ReorderedDocument.elements_key (h : ReorderedDocument root root') :
    root'.elements "key" = root.elements "key" := by
  obtain ⟨-, hgraph⟩ := h
  obtain ⟨hname, hname'⟩ := hgraph.elementName?_eq
  simp [Node.elements, Node.children, filter_append, hname, hname']

theorem ReorderedDocument.head?_graph (h : ReorderedDocument root root') :
    ∃ graph graph', (root.elements "graph").head? = some graph ∧
      (root'.elements "graph").head? = some graph' ∧
        ReorderedGraph graph graph' := by
  obtain @⟨name, attributes, front, back, graph, graph', hfirst, hgraph⟩ := h
  obtain ⟨hname, hname'⟩ := hgraph.elementName?_eq
  have hfront : front.filter (·.elementName? == some "graph") = [] := by
    rw [filter_eq_nil_iff]
    intro n hn
    simpa using hfirst n hn
  refine ⟨graph, graph', ?_, ?_, hgraph⟩ <;>
    simp [Node.elements, Node.children, filter_append, hfront, hname, hname']

theorem WellFormed.of_perm (h : WellFormed keys graph)
    (hnodes : (graph.elements "node").Perm (graph'.elements "node"))
    (hedges : (graph.elements "edge").Perm (graph'.elements "edge")) : WellFormed keys graph' where
  id element helement := h.id element (hnodes.mem_iff.2 helement)
  nodup := ((hnodes.map _).map _).nodup_iff.1 h.nodup
  ends element helement := h.ends element (hedges.mem_iff.2 helement)

theorem WellFormed.nodup_nodesOf (h : WellFormed keys graph) :
    ((nodesOf keys graph).map (·.id)).Nodup :=
  nodup_foldl_mention h.nodup _

theorem WellFormed.perm_nodesOf (h : WellFormed keys graph)
    (hnodes : (graph.elements "node").Perm (graph'.elements "node"))
    (hedges : (graph.elements "edge").Perm (graph'.elements "edge")) :
    (nodesOf keys graph).Perm (nodesOf keys graph') := by
  have h' := h.of_perm hnodes hedges
  refine (perm_ext_iff_of_nodup h.nodup_nodesOf.of_map h'.nodup_nodesOf.of_map).2 fun v => ?_
  have hdeclared := hnodes.map (vertexOf keys)
  rw [nodesOf, nodesOf, mem_foldl_mention_iff, mem_foldl_mention_iff, hdeclared.mem_iff,
    (hdeclared.map _).mem_iff, (hedges.flatMap_right endsOf).mem_iff]

theorem indexOf_relabel {σ : Nat → Nat} (hσ : ∀ i, nodes'[σ i]? = nodes[i]?)
    (hnodup : (nodes'.map (·.id)).Nodup)
    (hmem : id ∈ nodes.map (·.id)) : indexOf nodes' id = σ (indexOf nodes id) := by
  have hat : (nodes.map (·.id))[indexOf nodes id]? = some id := getElem?_idxOf hmem
  have hat' : (nodes'.map (·.id))[σ (indexOf nodes id)]? = some id := by
    rw [getElem?_map, hσ, ← getElem?_map, hat]
  obtain ⟨hlt, heq⟩ := List.getElem?_eq_some_iff.1 hat'
  calc indexOf nodes' id
      = (nodes'.map (·.id)).idxOf (nodes'.map (·.id))[σ (indexOf nodes id)] := by rw [heq, indexOf]
    _ = σ (indexOf nodes id) := hnodup.idxOf_getElem _ hlt

theorem WellFormed.end_mem_nodesOf (h : WellFormed keys graph) {element : Node}
    (helement : element ∈ graph.elements "edge") :
    (element.attribute? "source").getD "" ∈ (nodesOf keys graph).map (·.id) ∧
      (element.attribute? "target").getD "" ∈ (nodesOf keys graph).map (·.id) := by
  have hmentioned (id : String) (hid : id ∈ endsOf element) :
      id ∈ (nodesOf keys graph).map (·.id) :=
    id_mem_foldl_mention (.inr (mem_flatMap.2 ⟨element, helement, hid⟩))
  obtain ⟨hsource, htarget⟩ := mem_endsOf (h.ends element helement)
  exact ⟨hmentioned _ hsource, hmentioned _ htarget⟩

theorem WellFormed.exists_relabels (h : WellFormed keys graph)
    (hnodes : (graph.elements "node").Perm (graph'.elements "node"))
    (hedges : (graph.elements "edge").Perm (graph'.elements "edge")) :
    ∃ σ τ, Graph.Relabels σ τ (graphOf origin keys graph) (graphOf origin keys graph') := by
  have hperm := h.perm_nodesOf hnodes hedges
  have hnodup := (h.of_perm hnodes hedges).nodup_nodesOf
  obtain ⟨σ, hσ⟩ := exists_equiv_of_perm hperm
  obtain ⟨τ, hτ⟩ := exists_equiv_of_perm hedges
  refine ⟨σ, τ, rfl, hperm, hσ, fun i => ?_⟩
  simp only [graphOf, getElem?_map, hτ, Option.map_map]
  refine Option.map_congr fun element helement => ?_
  obtain ⟨hsource, htarget⟩ := h.end_mem_nodesOf (mem_of_getElem? helement)
  simp only [edgeOf, Edge.relabel, Function.comp_apply, indexOf_relabel hσ hnodup hsource,
    indexOf_relabel hσ hnodup htarget]

theorem ReorderedDocument.exists_relabels (h : ReorderedDocument root root')
    (hg : Graph.ofDocument origin root = .ok g) :
    ∃ g' σ τ, Graph.ofDocument origin root' = .ok g' ∧ Graph.Relabels σ τ g g' ∧
      g'.attributes = g.attributes := by
  obtain ⟨hname, keys, graph, hkeys, hgraph, hwell, rfl⟩ := ofDocument_eq_ok_iff.1 hg
  obtain ⟨first, graph', hfirst, hgraph', hreordered⟩ := h.head?_graph
  cases hfirst.symm.trans hgraph
  obtain ⟨σ, τ, hrelabels⟩ :=
    hwell.exists_relabels (hreordered.perm "node") (hreordered.perm "edge")
  refine ⟨_, σ, τ, ofDocument_eq_ok_iff.2 ⟨?_, keys, graph', ?_, hgraph', ?_, rfl⟩, hrelabels, ?_⟩
  · rw [h.elementName?_eq, hname]
  · rw [h.elements_key, hkeys]
  · exact hwell.of_perm (hreordered.perm "node") (hreordered.perm "edge")
  · exact hreordered.elementData_eq keys "graph"

/-- **The order of the elements.** Nodes and edges may stand in any order: the document is
accepted all the same, with the same attributes; both graphs are linear, or neither is and for
the same reason; and the same is stated on the path, in the same order, or the same error is
found there. -/
theorem statements_of_reordered (h : ReorderedDocument root root')
    (hg : Graph.ofDocument origin root = .ok g) :
    ∃ g', Graph.ofDocument origin root' = .ok g' ∧ g'.attributes = g.attributes ∧
      g'.linearPath.map List.length = g.linearPath.map List.length ∧
        ∀ f, (LinearWitness.ofGraph g' >>= fun w => w.statements f) =
          (LinearWitness.ofGraph g >>= fun w => w.statements f) := by
  obtain ⟨g', σ, τ, hg', hrelabels, hattributes⟩ := h.exists_relabels hg
  have hends := endsInRange_ofDocument hg
  have hends' := endsInRange_ofDocument hg'
  refine ⟨g', hg', hattributes, ?_, fun f => hrelabels.statements_ofGraph hends hends' f⟩
  rw [hrelabels.linearPath_eq hends hends']
  cases g.linearPath with
  | error fault => rfl
  | ok path => exact congrArg Except.ok (length_map τ)

end Reordering

def plainElement (name : String) (attributes : List (String × String)) (children : List Node) :
    Node :=
  .element name (attributes.map fun (name, value) => ⟨none, name, value⟩) children

def dataElement (key value : String) : Node :=
  plainElement "data" [("key", key)] [.text value]

def assumingEdge (source target line value : String) : Node :=
  plainElement "edge" [("source", source), ("target", target)]
    [dataElement "originFileName" "Main.java", dataElement "startline" line,
    dataElement "assumption" value,
      dataElement "assumption.scope" "main"]

/-- The path leads from `a` to `c` by way of `b`, which only edges mention. -/
def detour : List Node :=
  [plainElement "node" [("id", "a")] [dataElement "isEntryNode" "true"], .text "\n",
    plainElement "node" [("id", "c")] [dataElement "isViolationNode" "true"],
    assumingEdge "a" "b" "3" "x = 1", assumingEdge "b" "c" "5" "y = 2"]

theorem statements_of_reversed_detour :
    ∃ g g', Graph.ofDocument "detour" (plainElement "graphml" [] [.remark,
    .element "graph" [] detour]) = .ok g ∧
      Graph.ofDocument "detour" (plainElement "graphml" [] [.remark,
      .element "graph" [] detour.reverse]) = .ok g' ∧
        (LinearWitness.ofGraph g' >>= fun w => w.statements .lenient) =
          .ok [⟨⟨"Main", 3⟩, "x = 1", "main"⟩, ⟨⟨"Main", 5⟩, "y = 2", "main"⟩] := by
  have heval : ((Graph.ofDocument "detour" (plainElement "graphml" [] [.remark,
      .element "graph" [] detour])).map fun g =>
        LinearWitness.ofGraph g >>= fun w => w.statements .lenient) =
          .ok (.ok [⟨⟨"Main", 3⟩, "x = 1", "main"⟩, ⟨⟨"Main", 5⟩, "y = 2", "main"⟩]) := by
    decide +kernel
  obtain ⟨g, hg, hstatements⟩ := map_eq_ok_iff.1 heval
  have hgraph : ReorderedGraph (.element "graph" [] detour) (.element "graph" [] detour.reverse) :=
    .intro detour.reverse_perm.symm rfl
  have hfirst : ∀ n ∈ [Node.remark], n.elementName? ≠ some "graph" := by simp [Node.elementName?]
  obtain ⟨g', hg', -, -, hsame⟩ := statements_of_reordered (.intro hfirst hgraph) hg
  exact ⟨g, g', hg, hg', (hsame .lenient).trans hstatements⟩

end WitnessReplay.Witness
