import Mathlib.Data.Finset.Card
import WitnessReplay.Witness.Graph

/-!
# Simple paths

A path is a list of edges, each of which starts where the one before it ends. It is simple if
it visits no node twice. Paths are told apart by their edges, so two edges side by side give
two paths.

`pathsVia` lists the simple paths to a goal by plain recursion, in the order in which a search
meets them. It is the list that the search for the path of a witness is compared with.
-/

namespace WitnessReplay.Witness

open List

namespace Graph

/-- The edges with the given indices lead, one behind the other, from one node to another. -/
inductive Walk (g : Graph) : Nat → List Nat → Nat → Prop where
  | nil (v : Nat) : Walk g v [] v
  | cons {i w : Nat} {e : Edge} {path : List Nat}
      (hedge : g.edges[i]? = some e) (hrest : Walk g e.target path w) :
      Walk g e.source (i :: path) w

def targets (g : Graph) (path : List Nat) : List Nat :=
  path.filterMap fun i => (g.edges[i]?).map (·.target)

/-- A path from one node to another that visits no node twice. -/
structure SimplePath (g : Graph) (v : Nat) (path : List Nat) (w : Nat) : Prop where
  walk : g.Walk v path w
  nodup : (v :: g.targets path).Nodup

variable {g : Graph} {i v w goal : Nat} {e : Edge} {path : List Nat} {free : Finset Nat}

@[simp] theorem targets_nil : g.targets [] = [] := rfl

theorem targets_cons (h : g.edges[i]? = some e) (path : List Nat) :
    g.targets (i :: path) = e.target :: g.targets path := by
  simp [targets, h]

theorem walk_nil_iff : g.Walk v [] w ↔ v = w := by
  constructor
  · rintro ⟨⟩
    rfl
  · rintro rfl
    exact .nil v

theorem walk_cons_iff :
    g.Walk v (i :: path) w ↔ ∃ e, g.edges[i]? = some e ∧ e.source = v ∧ g.Walk e.target path w := by
  constructor
  · rintro ⟨⟩
    rename_i e hedge hrest
    exact ⟨e, hedge, rfl, hrest⟩
  · rintro ⟨e, hedge, rfl, hrest⟩
    exact .cons hedge hrest

theorem Walk.end_mem_targets (h : g.Walk v path w) (hne : path ≠ []) : w ∈ g.targets path := by
  induction h with
  | nil v => exact absurd rfl hne
  | @cons i w e path hedge hrest ih =>
    rw [targets_cons hedge]
    cases path with
    | nil =>
      rw [walk_nil_iff.1 hrest]
      exact mem_cons_self
    | cons j path => exact mem_cons_of_mem _ (ih (by simp))

theorem lt_of_mem_targets {n : Nat} (hrange : ∀ e ∈ g.edges, e.target < n)
    (h : v ∈ g.targets path) : v < n := by
  obtain ⟨i, -, hi⟩ := mem_filterMap.1 h
  obtain ⟨e, he, rfl⟩ := Option.map_eq_some_iff.1 hi
  exact hrange e (mem_of_getElem? he)

theorem simplePath_self_iff : g.SimplePath v path v ↔ path = [] := by
  constructor
  · rintro ⟨hwalk, hnodup⟩
    by_contra hne
    exact (nodup_cons.1 hnodup).1 (hwalk.end_mem_targets hne)
  · rintro rfl
    exact ⟨.nil v, by simp⟩

def leaving (edges : List Edge) (v : Nat) : List Nat :=
  (edges.zipIdx.filter fun (e, _) => e.source = v).map (·.2)

theorem leaving_concat (edges : List Edge) (e : Edge) (v : Nat) :
    leaving (edges ++ [e]) v = if e.source = v then leaving edges v ++ [edges.length] else
    leaving edges v := by
  unfold leaving
  rw [zipIdx_append, filter_append, map_append]
  split <;> simp [*]

theorem adjacencyLists_eq (n : Nat) (edges : List Edge) :
    adjacencyLists n edges = (List.range n).map (leaving edges) := by
  induction edges using List.reverseRecOn with
  | nil =>
    show List.replicate n [] = (List.range n).map fun _ => []
    rw [map_const', length_range]
  | append_singleton edges e ih =>
    have hnoted : adjacencyLists n (edges ++ [e]) =
        noteEdge (adjacencyLists n edges) (e, edges.length) := by
      rw [adjacencyLists, zipIdx_append, foldl_append, Nat.zero_add]
      rfl
    rw [hnoted, ih, noteEdge]
    apply ext_getElem?
    intro v
    rw [getElem?_modify, getElem?_map, getElem?_map]
    by_cases hv : v < n
    · rw [getElem?_range hv, Option.map_some, Option.map_some, leaving_concat]
      split <;> rfl
    · rw [getElem?_eq_none (by simpa using hv)]
      rfl

theorem outgoing_of_lt (h : v < g.nodes.length) : g.outgoing v = leaving g.edges v := by
  rw [outgoing, g.isAdjacency, adjacencyLists_eq, getElem?_map, getElem?_range h]
  rfl

theorem outgoing_of_le (h : g.nodes.length ≤ v) : g.outgoing v = [] := by
  rw [outgoing, g.isAdjacency, adjacencyLists_eq, getElem?_eq_none (by simpa using h)]
  rfl

theorem mem_leaving_iff {edges : List Edge} :
    i ∈ leaving edges v ↔ ∃ e, edges[i]? = some e ∧ e.source = v := by
  simp only [leaving, mem_map, mem_filter, Prod.exists, mem_zipIdx_iff_getElem?,
    decide_eq_true_eq]
  constructor
  · rintro ⟨e, j, ⟨hedge, hsource⟩, rfl⟩
    exact ⟨e, hedge, hsource⟩
  · rintro ⟨e, hedge, hsource⟩
    exact ⟨e, i, ⟨hedge, hsource⟩, rfl⟩

theorem mem_outgoing_iff : i ∈ g.outgoing v ↔ v < g.nodes.length ∧ ∃ e, g.edges[i]? = some e ∧
    e.source = v := by
  by_cases hv : v < g.nodes.length
  · rw [outgoing_of_lt hv, mem_leaving_iff, and_iff_right hv]
  · rw [outgoing_of_le (Nat.not_lt.1 hv)]
    simp [hv]

theorem outgoing_increasing (g : Graph) (v : Nat) : (g.outgoing v).Pairwise (· < ·) := by
  by_cases hv : v < g.nodes.length
  · have hsub : (leaving g.edges v).Sublist (g.edges.zipIdx.map (·.2)) := filter_sublist.map _
    rw [outgoing_of_lt hv]
    refine List.Pairwise.sublist hsub ?_
    rw [zipIdx_map_snd]
    exact pairwise_lt_range'
  · rw [outgoing_of_le (Nat.not_lt.1 hv)]
    exact List.Pairwise.nil

theorem nodup_outgoing (g : Graph) (v : Nat) : (g.outgoing v).Nodup :=
  (g.outgoing_increasing v).imp Nat.ne_of_lt

/-- The simple paths to the goal that start with one of the given edges and go on through free
nodes only, in the lexicographic order of their edges. -/
def pathsVia (g : Graph) (goal : Nat) (free : Finset Nat) : List Nat → List (List Nat)
  | [] => []
  | i :: rest =>
    (match g.edges[i]? with
    | none => []
    | some e =>
      if e.target = goal then [[i]]
      else if e.target ∈ free then
        (pathsVia g goal (free.erase e.target) (g.outgoing e.target)).map (i :: ·)
      else []) ++ pathsVia g goal free rest
termination_by edges => (free.card, edges.length)
decreasing_by
  · exact .left _ _ (Finset.card_erase_lt_of_mem ‹_›)
  · exact .right _ (by simp)

@[simp] theorem pathsVia_nil : g.pathsVia goal free [] = [] := by
  rw [pathsVia]

theorem pathsVia_cons_goal (hedge : g.edges[i]? = some e) (hgoal : e.target = goal)
    (rest : List Nat) :
    g.pathsVia goal free (i :: rest) = [i] :: g.pathsVia goal free rest := by
  rw [pathsVia]
  simp [hedge, hgoal]

theorem pathsVia_cons_free (hedge : g.edges[i]? = some e) (hne : e.target ≠ goal)
    (hfree : e.target ∈ free) (rest : List Nat) :
    g.pathsVia goal free (i :: rest) =
      (g.pathsVia goal (free.erase e.target) (g.outgoing e.target)).map (i :: ·) ++
      g.pathsVia goal free rest := by
  rw [pathsVia]
  simp [hedge, hne, hfree]

theorem pathsVia_cons_none (hedge : g.edges[i]? = none) (rest : List Nat) :
    g.pathsVia goal free (i :: rest) = g.pathsVia goal free rest := by
  rw [pathsVia]
  simp [hedge]

theorem pathsVia_cons_blocked (hedge : g.edges[i]? = some e) (hne : e.target ≠ goal)
    (hfree : e.target ∉ free)
    (rest : List Nat) : g.pathsVia goal free (i :: rest) = g.pathsVia goal free rest := by
  rw [pathsVia]
  simp [hedge, hne, hfree]

/-- A listed path either is one edge to the goal, or it goes on from a free node, which is not
free any more. -/
theorem mem_pathsVia_iff {edges : List Nat} :
    path ∈ g.pathsVia goal free edges ↔ ∃ i ∈ edges, ∃ e rest, g.edges[i]? = some e ∧
    path = i :: rest ∧
      (e.target = goal ∧ rest = [] ∨ e.target ≠ goal ∧ e.target ∈ free ∧
        rest ∈ g.pathsVia goal (free.erase e.target) (g.outgoing e.target)) := by
  induction edges with
  | nil => simp
  | cons j edges ih =>
    simp only [mem_cons, exists_eq_or_imp, ← ih]
    cases hedge : g.edges[j]? with
    | none => simp [pathsVia_cons_none hedge]
    | some e =>
      by_cases hgoal : e.target = goal
      · simp [pathsVia_cons_goal hedge hgoal, hgoal]
      · by_cases hfree : e.target ∈ free
        · simp only [pathsVia_cons_free hedge hgoal hfree, mem_append, mem_map]
          constructor
          · rintro (⟨rest, hrest, rfl⟩ | h)
            · exact .inl ⟨e, rest, rfl, rfl, .inr ⟨hgoal, hfree, hrest⟩⟩
            · exact .inr h
          · rintro (⟨e', rest, he, rfl, ⟨hgoal', -⟩ | ⟨-, -, hrest⟩⟩ | h)
            · cases he
              exact absurd hgoal' hgoal
            · cases he
              exact .inl ⟨rest, hrest, rfl⟩
            · exact .inr h
        · simp [pathsVia_cons_blocked hedge hgoal hfree, hgoal, hfree]

/-- The listed paths out of a node are those to the goal that visit no node twice and, up to
the goal, free nodes only. -/
theorem mem_pathsVia_outgoing_iff (hv : v < g.nodes.length)
    (hnodes : ∀ t ∈ free, t < g.nodes.length) :
    path ∈ g.pathsVia goal free (g.outgoing v) ↔ g.Walk v path goal ∧ path ≠ [] ∧
    (g.targets path).Nodup ∧
      ∀ t ∈ g.targets path, t = goal ∨ t ∈ free := by
  induction path generalizing v free with
  | nil =>
    rw [mem_pathsVia_iff]
    simp
  | cons i rest ih =>
    have herased (t : Nat) : ∀ u ∈ free.erase t, u < g.nodes.length :=
      fun u hu => hnodes u (Finset.mem_of_mem_erase hu)
    rw [mem_pathsVia_iff, walk_cons_iff]
    constructor
    · rintro ⟨j, hj, e, rest', hedge, hpath, hcase⟩
      obtain ⟨rfl, rfl⟩ := List.cons.inj hpath
      obtain ⟨-, e', he', hsource⟩ := mem_outgoing_iff.1 hj
      obtain rfl : e = e' := Option.some.inj (hedge.symm.trans he')
      rw [targets_cons hedge]
      rcases hcase with ⟨hgoal, rfl⟩ | ⟨hne, hfree, hrest⟩
      · exact ⟨⟨e, hedge, hsource, walk_nil_iff.2 hgoal⟩, by simp, by simp, by simp [hgoal]⟩
      · obtain ⟨hwalk, -, hnodup, hall⟩ := (ih (hnodes _ hfree) (herased e.target)).1 hrest
        have hnot : e.target ∉ g.targets rest := by
          intro hmem
          rcases hall _ hmem with h | h
          · exact hne h
          · exact Finset.notMem_erase _ _ h
        refine ⟨⟨e, hedge, hsource, hwalk⟩, by simp, nodup_cons.2 ⟨hnot, hnodup⟩, ?_⟩
        intro t ht
        rcases mem_cons.1 ht with rfl | ht
        · exact .inr hfree
        · exact (hall t ht).imp_right Finset.mem_of_mem_erase
    · rintro ⟨⟨e, hedge, hsource, hwalk⟩, -, hnodup, hall⟩
      rw [targets_cons hedge] at hnodup hall
      obtain ⟨hnot, hnodup⟩ := nodup_cons.1 hnodup
      refine ⟨i, mem_outgoing_iff.2 ⟨hv, e, hedge, hsource⟩, e, rest, hedge, rfl, ?_⟩
      by_cases hgoal : e.target = goal
      · refine .inl ⟨hgoal, ?_⟩
        -- a path that goes on behind the goal comes back to it
        by_contra hne
        exact hnot (hgoal ▸ hwalk.end_mem_targets hne)
      · have hfree := (hall e.target mem_cons_self).resolve_left hgoal
        refine .inr ⟨hgoal, hfree,
          (ih (hnodes _ hfree) (herased e.target)).2 ⟨hwalk, ?_, hnodup, ?_⟩⟩
        · rintro rfl
          exact hgoal (walk_nil_iff.1 hwalk)
        · intro t ht
          refine (hall t (mem_cons_of_mem _ ht)).imp_right fun hmem => ?_
          refine Finset.mem_erase.2 ⟨?_, hmem⟩
          rintro rfl
          exact hnot ht

theorem cons_notMem_pathsVia {edges rest : List Nat} (h : i ∉ edges) :
    i :: rest ∉ g.pathsVia goal free edges := by
  intro hmem
  obtain ⟨j, hj, e, rest', -, hpath, -⟩ := mem_pathsVia_iff.1 hmem
  exact h ((List.cons.inj hpath).1 ▸ hj)

theorem nodup_pathsVia (g : Graph) (goal : Nat) (free : Finset Nat) {edges : List Nat}
    (hedges : edges.Nodup) :
    (g.pathsVia goal free edges).Nodup := by
  induction free, edges using pathsVia.induct g with
  | case1 free => simp
  | case2 free i rest hfirst ih =>
    obtain ⟨hnot, hrest⟩ := nodup_cons.1 hedges
    have htail := ih hrest
    cases hedge : g.edges[i]? with
    | none => rwa [pathsVia_cons_none hedge]
    | some e =>
      by_cases hgoal : e.target = goal
      · rw [pathsVia_cons_goal hedge hgoal]
        exact nodup_cons.2 ⟨cons_notMem_pathsVia hnot, htail⟩
      · by_cases hfree : e.target ∈ free
        · rw [pathsVia_cons_free hedge hgoal hfree]
          have hhead := hfirst e hfree (g.nodup_outgoing e.target)
          refine nodup_append.2 ⟨hhead.map fun _ _ h => (List.cons.inj h).2, htail, ?_⟩
          intro a ha b hb hab
          obtain ⟨p, -, rfl⟩ := mem_map.1 ha
          exact cons_notMem_pathsVia hnot (hab ▸ hb)
        · rwa [pathsVia_cons_blocked hedge hgoal hfree]

theorem mem_pathsVia_iff_simplePath (hrange : ∀ e ∈ g.edges, e.target < g.nodes.length)
    (hv : v < g.nodes.length) (hne : v ≠ goal) :
    path ∈ g.pathsVia goal ((Finset.range g.nodes.length).erase v) (g.outgoing v) ↔
      g.SimplePath v path goal := by
  have hnodes : ∀ t ∈ (Finset.range g.nodes.length).erase v, t < g.nodes.length :=
    fun t ht => Finset.mem_range.1 (Finset.mem_of_mem_erase ht)
  rw [mem_pathsVia_outgoing_iff hv hnodes]
  constructor
  · rintro ⟨hwalk, -, hnodup, hall⟩
    refine ⟨hwalk, nodup_cons.2 ⟨fun hmem => ?_, hnodup⟩⟩
    rcases hall v hmem with h | h
    · exact hne h
    · exact Finset.notMem_erase _ _ h
  · rintro ⟨hwalk, hnodup⟩
    obtain ⟨hnot, hnodup⟩ := nodup_cons.1 hnodup
    refine ⟨hwalk, ?_, hnodup, fun t ht => .inr (Finset.mem_erase.2 ⟨?_, ?_⟩)⟩
    · rintro rfl
      exact hne (walk_nil_iff.1 hwalk)
    · rintro rfl
      exact hnot ht
    · exact Finset.mem_range.2 (lt_of_mem_targets hrange ht)

end Graph

end WitnessReplay.Witness
