import WitnessReplay.Proofs.Fallible
import WitnessReplay.Witness.GraphML

/-!
# Graphs that are read

The edges of a graph that has been read lead from nodes of the graph to nodes of the graph: an
end that was not declared is added to the nodes before the edge is.
-/

namespace WitnessReplay.Witness

theorem ofText_eq_ok_iff {text origin : String} {g : Graph} :
    Graph.ofText text origin = .ok g ↔
      ∃ root, Xml.parse? (sanitize text) = some root ∧ Graph.ofDocument origin root = .ok g := by
  unfold Graph.ofText Graph.ofXml
  cases Xml.parse? (sanitize text) with
  | none => simp
  | some root => cases hdoc : Graph.ofDocument origin root <;> simp [hdoc]

def rootOf? (characters : List Char) : Option Xml.Node := do
  let pieces ← Xml.document.runAll ((Text.lines characters).flatMap sanitizeLine)
  let reading ← pieces.foldlM Xml.Reading.step {}
  reading.finish

theorem parse?_sanitize_ofList (characters : List Char) :
    Xml.parse? (sanitize (.ofList characters)) = rootOf? characters := by
  rw [Xml.parse?, sanitize, String.toList_ofList, String.toList_ofList, rootOf?]

def EndsInRange (nodes : List Vertex) (edges : List Edge) : Prop :=
  ∀ e ∈ edges, e.source < nodes.length ∧ e.target < nodes.length

theorem EndsInRange.of_le {nodes nodes' : List Vertex} {edges : List Edge}
    (h : EndsInRange nodes edges)
    (hle : nodes.length ≤ nodes'.length) : EndsInRange nodes' edges := by
  intro e he
  obtain ⟨hs, ht⟩ := h e he
  exact ⟨by omega, by omega⟩

theorem NodeTable.get?_index (t : NodeTable) (id : String) :
    t.index.get? id = t.nodes.findIdx? (·.id = id) := by
  have hplaces (nodes : List Vertex) (k : Nat) :
      (((nodes.zipIdx k).map fun e => (e.1.id, e.2)).find? (fun e => e.1 = id)).map (·.2) =
        (nodes.findIdx? (·.id = id)).map (k + ·) := by
    induction nodes generalizing k with
    | nil => rfl
    | cons v nodes ih =>
      rw [List.zipIdx_cons, List.map_cons, List.find?_cons, List.findIdx?_cons]
      by_cases hv : v.id = id
      · simp [hv]
      · simp only [hv, decide_false, Bool.false_eq_true, if_false, ih (k + 1), Option.map_map]
        congr 1
        funext i
        exact Nat.add_right_comm k 1 i
  rw [OrderedMap.get?, t.isIndex]
  exact (hplaces t.nodes 0).trans (by simp)

@[ext] theorem NodeTable.ext {t t' : NodeTable} (h : t.nodes = t'.nodes) : t = t' := by
  obtain ⟨nodes, ⟨entries⟩, hindex⟩ := t
  obtain ⟨nodes', ⟨entries'⟩, hindex'⟩ := t'
  obtain rfl : nodes = nodes' := h
  obtain rfl : entries = entries' := hindex.trans hindex'.symm
  rfl

theorem nodeIndex_cases (keys : Keys) (t : NodeTable) (id : String) :
    (∃ i, t.nodes.findIdx? (·.id = id) = some i ∧ nodeIndex keys t id = (i, t)) ∨
      t.nodes.findIdx? (·.id = id) = none ∧ (nodeIndex keys t id).1 = t.nodes.length ∧
        (nodeIndex keys t id).2.nodes = t.nodes ++ [⟨id, keys.applyDefaults "node" ∅⟩] := by
  unfold nodeIndex
  split
  next i hid => exact .inl ⟨i, (t.get?_index id).symm.trans hid, rfl⟩
  next hid => exact .inr ⟨(t.get?_index id).symm.trans hid, rfl, rfl⟩

theorem nodeIndex_lt (keys : Keys) (t : NodeTable) (id : String) :
    (nodeIndex keys t id).1 < (nodeIndex keys t id).2.nodes.length := by
  obtain ⟨i, hi, heq⟩ | ⟨-, hplace, hnodes⟩ := nodeIndex_cases keys t id
  · rw [heq]
    exact (List.findIdx?_eq_some_iff_getElem.1 hi).1
  · rw [hplace, hnodes, List.length_append]
    exact Nat.lt_succ_self _

theorem length_le_nodeIndex (keys : Keys) (t : NodeTable) (id : String) :
    t.nodes.length ≤ (nodeIndex keys t id).2.nodes.length := by
  obtain ⟨i, -, heq⟩ | ⟨-, -, hnodes⟩ := nodeIndex_cases keys t id
  · exact Nat.le_of_eq (congrArg (·.2.nodes.length) heq.symm)
  · rw [hnodes, List.length_append]
    exact Nat.le_add_right _ _

theorem endsInRange_addEdge {keys : Keys} {element : Xml.Node} {read read' : NodeTable × List Edge}
    (h : EndsInRange read.1.nodes read.2) (hadd : addEdge keys read element = .ok read') :
    EndsInRange read'.1.nodes read'.2 := by
  unfold addEdge at hadd
  split at hadd
  · rename_i source target _ _
    cases hadd
    have hs := nodeIndex_lt keys read.1 source
    have ht := nodeIndex_lt keys (nodeIndex keys read.1 source).2 target
    have hle := length_le_nodeIndex keys read.1 source
    have hle' := length_le_nodeIndex keys (nodeIndex keys read.1 source).2 target
    intro e he
    rcases List.mem_append.1 he with hold | hnew
    · exact h.of_le (Nat.le_trans hle hle') e hold
    · rw [List.mem_singleton] at hnew
      subst hnew
      exact ⟨Nat.lt_of_lt_of_le hs hle', ht⟩
  · cases hadd

theorem endsInRange_ofDocument {origin : String} {root : Xml.Node} {g : Graph}
    (h : Graph.ofDocument origin root = .ok g) : EndsInRange g.nodes g.edges := by
  unfold Graph.ofDocument at h
  simp only [] at h
  split at h
  · cases h
  · obtain ⟨keys, -, h⟩ := bind_eq_ok_iff.1 h
    split at h
    · cases h
    · obtain ⟨declared, -, h⟩ := bind_eq_ok_iff.1 h
      obtain ⟨read, hread, h⟩ := bind_eq_ok_iff.1 h
      cases h
      exact foldlM_keeps (fun read => EndsInRange read.1.nodes read.2) (fun _ _ _ hb hadd =>
        endsInRange_addEdge hb hadd) _
        (fun e he => absurd he (List.not_mem_nil)) hread

theorem endsInRange_ofText {text origin : String} {g : Graph}
    (h : Graph.ofText text origin = .ok g) :
    EndsInRange g.nodes g.edges := by
  obtain ⟨root, -, hdoc⟩ := ofText_eq_ok_iff.1 h
  exact endsInRange_ofDocument hdoc

end WitnessReplay.Witness
