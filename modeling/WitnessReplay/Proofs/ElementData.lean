import WitnessReplay.Proofs.GraphShape

/-!
# The attributes of the elements of a graph

An attribute of the graph, of a node or of an edge comes from the data in its element, or else
from a default value. Keys stand between both and the names of attributes: data refers to a key
by its identifier, and a key that is declared again takes the place of the earlier one. Here an
attribute is looked up in the elements themselves, and this is what a graph that is read gives.
-/

namespace WitnessReplay.Witness

open Xml (Node)
open OrderedMap (lastValue?)

variable {keys : Keys} {origin : String} {g : Graph} {element : Node}

/-! ### Keys -/

def declaration? (element : Node) : Option (String × Key) := do
  let id ← element.attribute? "id"
  return (id, { name := (element.attribute? "attr.name").getD id
                domain := (element.attribute? "for").getD "all"
                default := (element.elements "default").head?.map fun d =>
                Text.trim d.leadingText })

def declarations (root : Node) : List (String × Key) :=
  (root.elements "key").filterMap declaration?

theorem declare_eq_ok {keys' : Keys} (h : keys.declare element = .ok keys') :
    ∃ id key, declaration? element = some (id, key) ∧ keys' = keys.insert id key := by
  unfold Keys.declare at h
  split at h
  · cases h
  · rename_i id hid
    cases h
    exact ⟨id, _, by rw [declaration?, hid]; rfl, rfl⟩

theorem foldlM_declare_eq_ok {elements : List Node} {keys' : Keys}
    (h : elements.foldlM Keys.declare keys = .ok keys') :
    keys' = keys.insertAll (elements.filterMap declaration?) := by
  induction elements generalizing keys with
  | nil =>
    cases h
    rfl
  | cons element rest ih =>
    rw [List.foldlM_cons] at h
    obtain ⟨declared, hdeclare, hrest⟩ := bind_eq_ok_iff.1 h
    obtain ⟨id, key, hkey, rfl⟩ := declare_eq_ok hdeclare
    rw [List.filterMap_cons_some hkey]
    exact ih hrest

/-- The name that data with a key gets from the last declaration of the key. -/
def attributeName (declared : List (String × Key)) (key : String) : String :=
  ((lastValue? declared key).map (·.name)).getD key

theorem nameOf_ofList (declared : List (String × Key)) (key : String) :
    Keys.nameOf (OrderedMap.ofList declared) key = attributeName declared key := by
  rw [Keys.nameOf, OrderedMap.get?_ofList, attributeName]

/-- The keys that are in force: one for each identifier, in the order in which identifiers
first appear, as it was declared last. -/
def keysInForce (declared : List (String × Key)) : List Key :=
  (declared.map (·.1)).eraseDups.filterMap (lastValue? declared)

/-! ### Values -/

/-- The text of the last data in an element that is for an attribute. -/
def givenValue? (declared : List (String × Key)) (element : Node) (name : String) : Option String :=
  ((element.elements "data").filter fun d => (d.attribute? "key").map (attributeName declared) =
    some name).getLast?.map
    (·.allText)

theorem givenData_eq (keys : Keys) (element : Node) :
    givenData keys element = OrderedMap.ofList ((element.elements "data").filterMap fun d =>
      ((d.attribute? "key").map keys.nameOf).map (·, d.allText)) := by
  rw [givenData, OrderedMap.ofList, OrderedMap.insertAll, List.foldl_filterMap]
  congr 1
  funext data d
  cases d.attribute? "key" with
  | none => rfl
  | some key => rfl

theorem get?_givenData (declared : List (String × Key)) (element : Node) (name : String) :
    (givenData (OrderedMap.ofList declared) element).get? name =
      givenValue? declared element name := by
  have hname : Keys.nameOf (OrderedMap.ofList declared) = attributeName declared :=
    funext (nameOf_ofList declared)
  rw [givenData_eq, hname, OrderedMap.get?_ofList, OrderedMap.lastValue?_filterMap_key, givenValue?]

/-- Whether a key has a default value for an attribute of a kind of element. -/
def Key.IsDefaultFor (key : Key) (kind name : String) : Prop :=
  key.name = name ∧ key.default.isSome ∧ (key.domain = kind ∨ key.domain = "all")

instance (key : Key) (kind name : String) : Decidable (key.IsDefaultFor kind name) :=
  inferInstanceAs (Decidable (_ ∧ _ ∧ _))

/-- The default value of an attribute: that of the first key that has one. -/
def firstDefault? (keys : List Key) (kind name : String) : Option String :=
  (keys.find? (·.IsDefaultFor kind name)).bind (·.default)

theorem firstDefault?_cons (key : Key) (keys : List Key) (kind name : String) :
    firstDefault? (key :: keys) kind name =
      if key.IsDefaultFor kind name then key.default else firstDefault? keys kind name := by
  unfold firstDefault?
  rw [List.find?_cons]
  by_cases h : key.IsDefaultFor kind name <;> simp [h]

/-- A default value is for what is not given, nor has a default value from an earlier key. -/
theorem get?_applyDefaults (keys : Keys) (kind : String) (data : Attributes) (name : String) :
    (keys.applyDefaults kind data).get? name =
      (data.get? name).or (firstDefault? keys.values kind name) := by
  unfold Keys.applyDefaults
  generalize keys.values = keys
  -- Along the keys: what one key has set, later keys keep, as it counts as given for them.
  induction keys generalizing data with
  | nil => exact Option.or_none.symm
  | cons key rest ih =>
    rw [List.foldl_cons, ih, firstDefault?_cons]
    by_cases hdomain : key.domain = kind ∨ key.domain = "all"
    · rw [if_pos hdomain]
      cases hdefault : key.default with
      | none =>
        have hnot : ¬ key.IsDefaultFor kind name := fun h => by simpa [hdefault] using h.2.1
        rw [if_neg hnot]
      | some value =>
        simp only [OrderedMap.get?_insertNew]
        by_cases hname : key.name = name
        · have hfor : key.IsDefaultFor kind name := ⟨hname, by rw [hdefault]; rfl, hdomain⟩
          rw [if_pos hfor, if_pos hname.symm, Option.or_assoc, Option.some_or]
        · have hnot : ¬ key.IsDefaultFor kind name := fun h => hname h.1
          rw [if_neg hnot, if_neg (Ne.symm hname), Option.or_none]
    · have hnot : ¬ key.IsDefaultFor kind name := fun h => hdomain h.2.2
      rw [if_neg hdomain, if_neg hnot]

/-- The value of an attribute that an element does not give. -/
def defaultValue? (declared : List (String × Key)) (kind name : String) : Option String :=
  firstDefault? (keysInForce declared) kind name

def value? (declared : List (String × Key)) (kind : String) (element : Node) (name : String) :
    Option String :=
  (givenValue? declared element name).or (defaultValue? declared kind name)

theorem get?_elementData (declared : List (String × Key)) (kind : String) (element : Node)
    (name : String) :
    (elementData (OrderedMap.ofList declared) kind element).get? name =
      value? declared kind element name := by
  rw [elementData, get?_applyDefaults, get?_givenData, OrderedMap.values_ofList]
  rfl

theorem get?_defaults (declared : List (String × Key)) (kind name : String) :
    (Keys.applyDefaults (OrderedMap.ofList declared) kind ∅).get? name =
      defaultValue? declared kind name := by
  rw [get?_applyDefaults, OrderedMap.get?_empty, Option.none_or, OrderedMap.values_ofList]
  rfl

/-! ### The whole graph -/

def Attributes.AreOf (data : Attributes) (declared : List (String × Key)) (kind : String)
    (element : Node) : Prop :=
  ∀ name, data.get? name = value? declared kind element name

/-- What the elements of a graph say about the attributes of the graph, its nodes and its edges. -/
structure DescribedBy (declared : List (String × Key)) (graph : Node) (g : Graph) : Prop where
  attributes : Attributes.AreOf g.attributes declared "graph" graph
  /-- The node of a node element has the place of the element. -/
  node : ∀ (i : Nat) (element : Node), (graph.elements "node")[i]? = some element →
    ∃ v, g.nodes[i]? = some v ∧ element.attribute? "id" = some v.id ∧
      Attributes.AreOf v.data declared "node" element
  /-- Nodes that only edges mention have the default values. -/
  mentioned : ∀ v ∈ g.nodes,
    (∀ element ∈ graph.elements "node", element.attribute? "id" ≠ some v.id) →
    ∀ name, v.data.get? name = defaultValue? declared "node" name
  /-- The edge of an edge element has the place of the element. -/
  edge : ∀ (i : Nat) (element : Node), (graph.elements "edge")[i]? = some element →
    ∃ e, g.edges[i]? = some e ∧ Attributes.AreOf e.data declared "edge" element

theorem WellFormed.describedBy {declared : List (String × Key)} {graph : Node}
    (h : WellFormed (OrderedMap.ofList declared) graph) :
    DescribedBy declared graph (graphOf origin (OrderedMap.ofList declared) graph) where
  attributes := get?_elementData declared "graph" graph
  node i element helement := by
    refine ⟨vertexOf (OrderedMap.ofList declared) element, ?_,
      h.id_vertexOf (List.mem_of_getElem? helement),
      get?_elementData declared "node" element⟩
    have hvertex : ((graph.elements "node").map (vertexOf (OrderedMap.ofList declared)))[i]? =
        some (vertexOf (OrderedMap.ofList declared) element) := by
      rw [List.getElem?_map, helement, Option.map_some]
    obtain ⟨hlt, -⟩ := List.getElem?_eq_some_iff.1 hvertex
    show (nodesOf _ graph)[i]? = _
    rw [h.nodesOf_eq, List.getElem?_append_left hlt]
    exact hvertex
  mentioned v hv hnot := by
    have hmem : v ∈ nodesOf (OrderedMap.ofList declared) graph := hv
    rw [h.nodesOf_eq, List.mem_append] at hmem
    rcases hmem with hdeclared | hmentioned
    · obtain ⟨element, helement, rfl⟩ := List.mem_map.1 hdeclared
      exact absurd (h.id_vertexOf helement) (hnot element helement)
    · obtain ⟨id, -, rfl⟩ := List.mem_map.1 hmentioned
      exact get?_defaults declared "node"
  edge i element helement := by
    refine ⟨edgeOf (OrderedMap.ofList declared) (nodesOf (OrderedMap.ofList declared) graph)
      element, ?_,
      get?_elementData declared "edge" element⟩
    show ((graph.elements "edge").map _)[i]? = _
    rw [List.getElem?_map, helement, Option.map_some]

/-- **The attributes of a graph.** In a graph that is read, an attribute of the graph, of a
node or of an edge has the text of the last data in its element that is for the attribute;
without such data it has the default value of the first key in force that has one for this
attribute and this kind of element; and otherwise no value. Nodes that only edges mention have
the default values. -/
theorem describedBy_of_ofText {text : String} (h : Graph.ofText text origin = .ok g) :
    ∃ root graph, Xml.parse? (sanitize text) = some root ∧
      (root.elements "graph").head? = some graph ∧
        DescribedBy (declarations root) graph g := by
  obtain ⟨root, hroot, hdoc⟩ := ofText_eq_ok_iff.1 h
  obtain ⟨-, keys, graph, hkeys, hgraph, hwell, rfl⟩ := ofDocument_eq_ok_iff.1 hdoc
  have hdeclared : keys = OrderedMap.ofList (declarations root) := foldlM_declare_eq_ok hkeys
  subst hdeclared
  exact ⟨root, graph, hroot, hgraph, hwell.describedBy⟩

/-- In `mentioningDocument`, what is given to one node is a default value for the others. -/
theorem describedBy_mentioningDocument :
    ∃ g root graph, Graph.ofText (.ofList mentioningDocument) "mentions" = .ok g ∧
      Xml.parse? (sanitize (.ofList mentioningDocument)) = some root ∧
      (root.elements "graph").head? = some graph ∧
        DescribedBy (declarations root) graph g ∧
          g.nodes.map (fun v => (v.id, v.data.get? "isEntryNode")) =
            [("a", some "1"), ("c", some "no"), ("b", some "no")] := by
  obtain ⟨g, hread, hnodes, -⟩ := exists_ofText_mentioningDocument
  obtain ⟨root, graph, hroot, hgraph, hdescribed⟩ := describedBy_of_ofText hread
  exact ⟨g, root, graph, hread, hroot, hgraph, hdescribed, hnodes⟩

end WitnessReplay.Witness
