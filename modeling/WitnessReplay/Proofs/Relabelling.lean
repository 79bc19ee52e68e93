import Mathlib.Logic.Equiv.Basic
import WitnessReplay.Proofs.LinearPath
import WitnessReplay.Witness.Assumption

/-!
# Graphs up to the numbers of their nodes and edges

Nodes and edges are known by their indices, which depend on the order in which they were read.
When one graph arises from another by giving other numbers to nodes and edges, its simple paths
are those of the other graph in the new numbers. So both are linear or neither is, for the same
reason, and the statements on the path are the same.
-/

namespace WitnessReplay.Witness

/-- The numbering that keeps zero and gives other numbers to what is behind it. -/
def behindZero (σ : Nat ≃ Nat) : Nat ≃ Nat where
  toFun
    | 0 => 0
    | i + 1 => σ i + 1
  invFun
    | 0 => 0
    | i + 1 => σ.symm i + 1
  left_inv i := by cases i <;> simp
  right_inv i := by cases i <;> simp

/-- Lists with the same elements differ in the numbers of the elements only. -/
theorem exists_equiv_of_perm {α : Type} {l l' : List α} (h : l.Perm l') : ∃ σ :
    Nat ≃ Nat, ∀ i, l'[σ i]? = l[i]? := by
  induction h with
  | nil => exact ⟨Equiv.refl _, fun i => rfl⟩
  | cons a _ ih =>
    obtain ⟨σ, hσ⟩ := ih
    refine ⟨behindZero σ, fun i => ?_⟩
    cases i with
    | zero => rfl
    | succ i => exact hσ i
  | swap a b l =>
    refine ⟨Equiv.swap 0 1, fun i => ?_⟩
    match i with
    | 0 => rfl
    | 1 => rfl
    | i + 2 => rw [Equiv.swap_apply_of_ne_of_ne (by omega) (by omega)]; rfl
  | trans _ _ ih₁ ih₂ =>
    obtain ⟨σ, hσ⟩ := ih₁
    obtain ⟨τ, hτ⟩ := ih₂
    exact ⟨σ.trans τ, fun i => (hτ (σ i)).trans (hσ i)⟩

def Edge.relabel (σ : Nat → Nat) (e : Edge) : Edge :=
  { e with source := σ e.source, target := σ e.target }

namespace Graph

/-- `g'` is `g` with other numbers for nodes and edges. -/
structure Relabels (σ τ : Nat ≃ Nat) (g g' : Graph) : Prop where
  origin : g'.origin = g.origin
  perm : g.nodes.Perm g'.nodes
  nodes : ∀ i, g'.nodes[σ i]? = g.nodes[i]?
  edges : ∀ i, g'.edges[τ i]? = g.edges[i]?.map (Edge.relabel σ)

namespace Relabels

variable {σ τ : Nat ≃ Nat} {g g' : Graph} {v w : Nat} {path : List Nat} {p : Vertex → Bool}

theorem symm (h : Relabels σ τ g g') : Relabels σ.symm τ.symm g' g := by
  refine ⟨h.origin.symm, h.perm.symm, fun i => ?_, fun i => ?_⟩
  · have hi := h.nodes (σ.symm i)
    rw [Equiv.apply_symm_apply] at hi
    exact hi.symm
  · have hi := h.edges (τ.symm i)
    rw [Equiv.apply_symm_apply] at hi
    rw [hi, Option.map_map]
    have hback : Edge.relabel σ.symm ∘ Edge.relabel σ = id := by
      funext e
      simp [Edge.relabel]
    rw [hback, Option.map_id_apply]

theorem targets_map (h : Relabels σ τ g g') (path : List Nat) :
    g'.targets (path.map τ) = (g.targets path).map σ := by
  induction path with
  | nil => rfl
  | cons i path ih =>
    have hedge := h.edges i
    cases he : g.edges[i]? with
    | none =>
      rw [he] at hedge
      simp_all [targets]
    | some e =>
      rw [he] at hedge
      rw [List.map_cons, targets_cons hedge, targets_cons he, ih]
      rfl

theorem walk (h : Relabels σ τ g g') (hwalk : g.Walk v path w) :
    g'.Walk (σ v) (path.map τ) (σ w) := by
  induction hwalk with
  | nil v => exact .nil (σ v)
  | @cons i w e path hedge hrest ih =>
    have hedge' := h.edges i
    rw [hedge] at hedge'
    exact .cons hedge' ih

theorem simplePath (h : Relabels σ τ g g') (hpath : g.SimplePath v path w) :
    g'.SimplePath (σ v) (path.map τ) (σ w) := by
  refine ⟨h.walk hpath.walk, ?_⟩
  rw [h.targets_map, ← List.map_cons]
  exact hpath.nodup.map σ.injective

theorem exists_simplePath (h : Relabels σ τ g g') (hpath : g'.SimplePath (σ v) path (σ w)) :
    ∃ path', g.SimplePath v path' w ∧ path = path'.map τ := by
  refine ⟨path.map τ.symm, ?_, ?_⟩
  · have hback := h.symm.simplePath hpath
    rwa [Equiv.symm_apply_apply, Equiv.symm_apply_apply] at hback
  · rw [List.map_map, Equiv.self_comp_symm, List.map_id]

theorem isOnlyNode (h : Relabels σ τ g g') (honly : g.IsOnlyNode p v) : g'.IsOnlyNode p (σ v) := by
  intro i
  obtain ⟨j, rfl⟩ := σ.surjective i
  rw [h.nodes, honly j, σ.injective.eq_iff]

theorem countP_nodes (h : Relabels σ τ g g') (p : Vertex → Bool) :
    g'.nodes.countP p = g.nodes.countP p :=
  (h.perm.countP_eq p).symm

theorem linearity (h : Relabels σ τ g g') {outcome : Except StructureFault (List Nat)}
    (hg : g.Linearity outcome) :
    g'.Linearity (outcome.map (List.map τ)) := by
  cases hg with
  | entryNodes hcount hne => exact .entryNodes ((h.countP_nodes _).trans hcount) hne
  | noViolationNode hentry hcount =>
    exact .noViolationNode (h.isOnlyNode hentry) ((h.countP_nodes _).trans hcount)
  | violationNodes hentry hcount hseveral =>
    exact .violationNodes (h.isOnlyNode hentry) ((h.countP_nodes _).trans hcount) hseveral
  | unreachable hentry hgoal hnone =>
    refine .unreachable (h.isOnlyNode hentry) (h.isOnlyNode hgoal) fun path hpath => ?_
    obtain ⟨path', hpath', -⟩ := h.exists_simplePath hpath
    exact hnone path' hpath'
  | multiplePaths hentry hgoal hne hone hother =>
    refine .multiplePaths (h.isOnlyNode hentry) (h.isOnlyNode hgoal) ?_ (h.simplePath hone)
      (h.simplePath hother)
    exact fun heq => hne (List.map_injective_iff.2 τ.injective heq)
  | linear hentry hgoal hpath honly =>
    refine .linear (h.isOnlyNode hentry) (h.isOnlyNode hgoal)
      (h.simplePath hpath) fun other hother => ?_
    obtain ⟨other', hother', rfl⟩ := h.exists_simplePath hother
    rw [honly other' hother']

theorem linearPath_eq (h : Relabels σ τ g g') (hg : EndsInRange g.nodes g.edges)
    (hg' : EndsInRange g'.nodes g'.edges) :
    g'.linearPath = g.linearPath.map (List.map τ) := by
  have hlinear := linearity_linearPath (g := g) fun e he => (hg e he).2
  have hlinear' := linearity_linearPath (g := g') fun e he => (hg' e he).2
  exact hlinear'.eq (h.linearity hlinear)

theorem nodeId (h : Relabels σ τ g g') (i : Nat) : g'.nodeId (σ i) = g.nodeId i := by
  rw [Graph.nodeId, Graph.nodeId, h.nodes]

theorem collect_relabel (h : Relabels σ τ g g') (f : ScopeFilter) (collected : List Statement)
    (e : Edge) :
    g'.collect f collected (e.relabel σ) = g.collect f collected e := by
  have hposition : g'.edgePosition (e.relabel σ) = g.edgePosition e := by
    simp only [edgePosition, Edge.relabel, h.nodeId]
  simp only [collect, hposition]
  rfl

theorem collected_relabel (h : Relabels σ τ g g') (f : ScopeFilter) (collected : List Statement)
    (edges : List Edge) :
    (edges.map (Edge.relabel σ)).foldlM (g'.collect f) collected =
      edges.foldlM (g.collect f) collected := by
  rw [List.foldlM_map]
  simp only [h.collect_relabel]

theorem edgesAt (h : Relabels σ τ g g') (path : List Nat) :
    (path.map τ).filterMap (g'.edges[·]?) =
      (path.filterMap (g.edges[·]?)).map (Edge.relabel σ) := by
  rw [List.filterMap_map, List.map_filterMap]
  congr 1
  ext1 i
  exact h.edges i

end Relabels

end Graph

theorem LinearWitness.ofGraph_of_ok {g : Graph} {path : List Nat} (h : g.linearPath = .ok path) :
    ofGraph g = .ok ⟨g, path, h⟩ := by
  unfold ofGraph
  split
  · rename_i path' hpath
    cases h.symm.trans hpath
    rfl
  · rename_i fault hfault
    cases h.symm.trans hfault

theorem LinearWitness.ofGraph_of_error {g : Graph} {fault : StructureFault}
    (h : g.linearPath = .error fault) :
    ofGraph g = .error (g.error fault) := by
  unfold ofGraph
  split
  · rename_i path hpath
    cases h.symm.trans hpath
  · rename_i fault' hfault
    cases h.symm.trans hfault
    rfl

/-- What is stated on the path, or why there is no path, does not depend on the numbers of
nodes and edges. -/
theorem Graph.Relabels.statements_ofGraph {σ τ : Nat ≃ Nat} {g g' : Graph} (h : Relabels σ τ g g')
    (hg : EndsInRange g.nodes g.edges) (hg' : EndsInRange g'.nodes g'.edges) (f : ScopeFilter) :
    (LinearWitness.ofGraph g' >>= fun w => w.statements f) = (LinearWitness.ofGraph g >>= fun w =>
    w.statements f) := by
  have hpath' := h.linearPath_eq hg hg'
  have herror : g'.error = g.error := by
    funext fault
    rw [Graph.error, Graph.error, h.origin]
  cases hpath : g.linearPath with
  | error fault =>
    rw [hpath] at hpath'
    rw [LinearWitness.ofGraph_of_error hpath', LinearWitness.ofGraph_of_error hpath, herror]
  | ok path =>
    rw [hpath] at hpath'
    rw [LinearWitness.ofGraph_of_ok hpath', LinearWitness.ofGraph_of_ok hpath]
    show LinearWitness.statements _ f = LinearWitness.statements _ f
    simp only [LinearWitness.statements, LinearWitness.pathEdges, h.edgesAt, h.collected_relabel,
      herror]

end WitnessReplay.Witness
