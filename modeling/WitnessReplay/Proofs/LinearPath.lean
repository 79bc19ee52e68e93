import WitnessReplay.Proofs.GraphReading
import WitnessReplay.Proofs.SimplePath
import WitnessReplay.Witness.Linear

/-!
# The path of a linear witness

The search for simple paths goes through a list that `Graph.pathsVia` gives at once. Whatever
it has done, the paths it has met and those that its frames still lead to make up that list, in
order. So it can tell no path, one path and several paths apart when it has met two or has
nothing left to try.
-/

namespace WitnessReplay.Witness

open List

namespace Search

variable {g : Graph} {entry goal : Nat} {s s' : Search} {all hits : List (List Nat)}

/-- What one step of the search can do. -/
inductive Move (g : Graph) (goal : Nat) : Search → Search → Prop where
  /-- All edges of the last node have been tried. -/
  | back {node : Nat} {below : List Frame} {edges free : List Nat} {found : Nat}
      {first : Option (List Nat)} :
      Move g goal ⟨⟨node, []⟩ :: below, edges, free, found, first⟩ ⟨below, edges.tail,
      node :: free, found, first⟩
  /-- An edge leads to the goal. -/
  | hit {node i : Nat} {e : Edge} {below : List Frame} {untried edges free : List Nat} {found : Nat}
      {first : Option (List Nat)} (hedge : g.edges[i]? = some e) (hgoal : e.target = goal) :
      Move g goal ⟨⟨node, i :: untried⟩ :: below, edges, free, found, first⟩
        ⟨⟨node, untried⟩ :: below, edges, free, found + 1, first <|> some (i :: edges).reverse⟩
  /-- An edge leads to a free node. -/
  | descend {node i : Nat} {e : Edge} {below : List Frame} {untried edges free : List Nat}
      {found : Nat}
      {first : Option (List Nat)} (hedge : g.edges[i]? = some e) (hgoal : e.target ≠ goal)
      (hfree : e.target ∈ free) :
      Move g goal ⟨⟨node, i :: untried⟩ :: below, edges, free, found, first⟩
        ⟨⟨e.target, g.outgoing e.target⟩ :: ⟨node, untried⟩ :: below, i :: edges,
          free.erase e.target, found, first⟩
  /-- An edge leads to a node of the path. -/
  | skip {node i : Nat} {below : List Frame} {untried edges free : List Nat} {found : Nat}
      {first : Option (List Nat)}
      (hblocked : ∀ e, g.edges[i]? = some e → e.target ≠ goal ∧ e.target ∉ free) :
      Move g goal ⟨⟨node, i :: untried⟩ :: below, edges, free, found, first⟩
        ⟨⟨node, untried⟩ :: below, edges, free, found, first⟩

theorem move_of_step (h : s.step g goal = some s') : Move g goal s s' := by
  obtain ⟨frames, edges, free, found, first⟩ := s
  simp only [step] at h
  split at h
  · cases h
  · cases frames with
    | nil => cases h
    | cons frame below =>
      obtain ⟨node, untried⟩ := frame
      cases untried with
      | nil =>
        cases h
        exact .back
      | cons i untried =>
        simp only [follow, Option.some.injEq] at h
        subst h
        cases hedge : g.edges[i]? with
        | none => exact .skip (by simp [hedge])
        | some e =>
          by_cases hgoal : e.target = goal
          · simp only [hgoal, if_true]
            exact .hit hedge hgoal
          · by_cases hfree : e.target ∈ free
            · simp only [hgoal, hfree, if_true, if_false]
              exact .descend hedge hgoal hfree
            · simp only [hgoal, hfree, if_false]
              refine .skip fun e' he' => ?_
              obtain rfl : e = e' := Option.some.inj (hedge.symm.trans he')
              exact ⟨hgoal, hfree⟩

theorem ended_of_step_eq_none (h : s.step g goal = none) : 1 < s.found ∨ s.frames = [] := by
  unfold step at h
  split at h
  · exact .inl ‹_›
  · split at h
    · exact .inr ‹_›
    · split at h <;> cases h

/-- The paths that frames still lead to: through the untried edges of the last node first, then
through those of the nodes below it. -/
def pathsLeft (g : Graph) (goal : Nat) : List Frame → List Nat → Finset Nat → List (List Nat)
  | [], _, _ => []
  | frame :: below, edges, free =>
    (g.pathsVia goal free frame.untried).map (edges.reverse ++ ·) ++
      pathsLeft g goal below edges.tail (insert frame.node free)

/-- The edge that is tried next. When the last node has none left, a number behind all edges
stands for it. -/
def next (g : Graph) (frames : List Frame) : Nat :=
  (frames.head?.bind (·.untried.head?)).getD g.edges.length

/-- Where the search stands: the edges of the current path, and behind them the one that is
tried next. -/
def position (g : Graph) (s : Search) : List Nat :=
  s.edges.reverse ++ [next g s.frames]

/-- The paths that a step meets. When the count goes up, it is the current path with the edge
that is tried. -/
def met (g : Graph) (s s' : Search) : List (List Nat) :=
  if s.found < s'.found then [s.position g] else []

/-- The nodes are those of the path and the free ones, each once, and the paths met so far are
followed in the list of all paths by those that are left. -/
structure Follows (g : Graph) (goal : Nat) (all : List (List Nat)) (s : Search)
    (hits : List (List Nat)) : Prop where
  nodes : (s.frames.map (·.node) ++ s.free).Perm (List.range g.nodes.length)
  found : s.found = hits.length
  first : s.first = hits.head?
  paths : hits ++ pathsLeft g goal s.frames s.edges s.free.toFinset = all

theorem follows_start (hentry : entry < g.nodes.length) :
    Follows g goal (g.pathsVia goal ((Finset.range g.nodes.length).erase entry)
    (g.outgoing entry)) (start g entry) [] := by
  refine ⟨?_, rfl, rfl, ?_⟩
  · exact (perm_cons_erase (mem_range.2 hentry)).symm
  · have hfree : ((List.range g.nodes.length).erase entry).toFinset =
        (Finset.range g.nodes.length).erase entry := by
      ext v
      rw [mem_toFinset, nodup_range.mem_erase_iff, Finset.mem_erase, mem_range, Finset.mem_range]
    simp [start, pathsLeft, hfree]

theorem Follows.nodup_nodes (h : Follows g goal all s hits) :
    (s.frames.map (·.node) ++ s.free).Nodup :=
  h.nodes.nodup_iff.2 nodup_range

theorem Follows.nodup_free (h : Follows g goal all s hits) : s.free.Nodup :=
  (nodup_append.1 h.nodup_nodes).2.1

theorem Follows.move (h : Follows g goal all s hits) (hmove : Move g goal s s') :
    Follows g goal all s' (hits ++ met g s s') := by
  have hnodup := h.nodup_free
  obtain ⟨hnodes, hfound, hfirst, hpaths⟩ := h
  cases hmove with
  | back =>
    rw [met, if_neg (Nat.lt_irrefl _), append_nil]
    refine ⟨?_, hfound, hfirst, ?_⟩
    · exact perm_middle.trans hnodes
    · simpa [pathsLeft] using hpaths
  | @hit node i e below untried edges free found first hedge hgoal =>
    rw [met, if_pos (Nat.lt_succ_self _)]
    refine ⟨hnodes, ?_, ?_, ?_⟩
    · simpa using hfound
    · cases hits with
      | nil => simp_all [position, next]
      | cons p hits => simp_all
    · simpa [pathsLeft, position, next, Graph.pathsVia_cons_goal hedge hgoal] using hpaths
  | @descend node i e below untried edges free found first hedge hgoal hfree =>
    have herase : (free.erase e.target).toFinset = free.toFinset.erase e.target := by
      ext v
      rw [mem_toFinset, hnodup.mem_erase_iff, Finset.mem_erase, mem_toFinset]
    rw [met, if_neg (Nat.lt_irrefl _), append_nil]
    refine ⟨?_, hfound, hfirst, ?_⟩
    · -- the node goes from the free ones to the path
      have hback := (perm_cons_erase hfree).symm.append_left (node :: below.map (·.node))
      exact (perm_middle.symm.trans hback).trans hnodes
    · simpa [pathsLeft, herase, Graph.pathsVia_cons_free hedge hgoal, hfree,
        Function.comp_def] using hpaths
  | @skip node i below untried edges free found first hblocked =>
    have hskip : g.pathsVia goal free.toFinset (i :: untried) =
        g.pathsVia goal free.toFinset untried := by
      cases hedge : g.edges[i]? with
      | none => exact Graph.pathsVia_cons_none hedge untried
      | some e =>
        obtain ⟨hgoal, hfree⟩ := hblocked e hedge
        exact Graph.pathsVia_cons_blocked hedge hgoal (by simpa using hfree) untried
    rw [met, if_neg (Nat.lt_irrefl _), append_nil]
    refine ⟨hnodes, hfound, hfirst, ?_⟩
    simpa [pathsLeft, hskip] using hpaths

theorem Follows.run (h : Follows g goal all s hits) :
    ∃ hits', Follows g goal all (s.run g goal) hits' ∧
      (1 < (s.run g goal).found ∨ hits' = all) := by
  induction s using Search.run.induct g goal generalizing hits with
  | case1 s hstep =>
    rw [Search.run, hstep]
    refine ⟨hits, h, ?_⟩
    refine (ended_of_step_eq_none hstep).imp_right fun hframes => ?_
    simpa [hframes, pathsLeft] using h.paths
  | case2 s s' hstep ih =>
    rw [Search.run, hstep]
    exact ih (h.move (move_of_step hstep))

end Search

namespace Graph

variable {g : Graph} {entry goal v : Nat} {path : List Nat} {p : Vertex → Bool}

/-- What is counted on the way from one node to another: no simple path, the only one, or
several. -/
theorem simplePaths_cases (hrange : ∀ e ∈ g.edges, e.target < g.nodes.length)
    (hentry : entry < g.nodes.length) (goal : Nat) :
    (∃ path, simplePaths g entry goal = (0, path) ∧ ∀ other, ¬g.SimplePath entry other goal) ∨
    (∃ path, simplePaths g entry goal = (1, path) ∧ g.SimplePath entry path goal ∧
      ∀ other, g.SimplePath entry other goal → other = path) ∨
    (∃ n path, simplePaths g entry goal = (n + 2, path) ∧
      ∃ one other, one ≠ other ∧ g.SimplePath entry one goal ∧ g.SimplePath entry other goal) := by
  by_cases heq : entry = goal
  · subst heq
    refine .inr (.inl ⟨[], by simp [simplePaths], simplePath_self_iff.2 rfl, ?_⟩)
    exact fun other hother => simplePath_self_iff.1 hother
  · have hmem {other : List Nat} :
        other ∈ g.pathsVia goal ((Finset.range g.nodes.length).erase entry) (g.outgoing entry) ↔
          g.SimplePath entry other goal :=
      mem_pathsVia_iff_simplePath hrange hentry heq
    have hnodup := g.nodup_pathsVia goal ((Finset.range g.nodes.length).erase entry)
      (g.nodup_outgoing entry)
    have hstart : Search.Follows g goal _ (Search.start g entry) [] := Search.follows_start hentry
    obtain ⟨hits, hfollows, hend⟩ := hstart.run
    rw [simplePaths, if_neg heq]
    simp only [hfollows.found, hfollows.first] at hend ⊢
    have hpaths := hfollows.paths
    generalize g.pathsVia goal _ (g.outgoing entry) = all at *
    -- with less than two hits the search has met all paths; two hits are different because the
    -- list has no duplicates
    match hits with
    | [] =>
      obtain rfl : [] = all := hend.resolve_left (by simp)
      exact .inl ⟨_, rfl, fun other hother => not_mem_nil (hmem.2 hother)⟩
    | [path] =>
      obtain rfl : [path] = all := hend.resolve_left (by simp)
      refine .inr (.inl ⟨path, rfl, hmem.1 mem_cons_self, fun other hother => ?_⟩)
      exact mem_singleton.1 (hmem.2 hother)
    | one :: other :: hits =>
      subst hpaths
      refine .inr (.inr ⟨hits.length, one, rfl, one, other, ?_, hmem.1 (by simp), hmem.1 (by simp)⟩)
      rintro rfl
      simp at hnodup

def IsOnlyNode (g : Graph) (p : Vertex → Bool) (v : Nat) : Prop :=
  ∀ i, (∃ x, g.nodes[i]? = some x ∧ p x) ↔ i = v

theorem mem_nodesWhere_iff : v ∈ g.nodesWhere p ↔ ∃ x, g.nodes[v]? = some x ∧ p x := by
  simp only [nodesWhere, mem_map, mem_filter, Prod.exists, mem_zipIdx_iff_getElem?]
  constructor
  · rintro ⟨x, i, h, rfl⟩
    exact ⟨x, h⟩
  · rintro ⟨x, h⟩
    exact ⟨x, v, h, rfl⟩

theorem nodup_nodesWhere (g : Graph) (p : Vertex → Bool) : (g.nodesWhere p).Nodup := by
  have hsub : (g.nodesWhere p).Sublist (g.nodes.zipIdx.map (·.2)) := filter_sublist.map _
  refine hsub.nodup ?_
  rw [zipIdx_map_snd]
  exact nodup_range'

theorem length_nodesWhere (g : Graph) (p : Vertex → Bool) :
    (g.nodesWhere p).length = g.nodes.countP p := by
  rw [nodesWhere, length_map, ← countP_eq_length_filter]
  conv_rhs => rw [← zipIdx_map_fst 0 g.nodes, countP_map]
  rfl

theorem nodesWhere_eq_singleton_iff : g.nodesWhere p = [v] ↔ g.IsOnlyNode p v := by
  constructor
  · intro h i
    rw [← mem_nodesWhere_iff, h, mem_singleton]
  · intro h
    apply perm_singleton.1
    apply (perm_ext_iff_of_nodup (g.nodup_nodesWhere p) (nodup_singleton v)).2
    intro i
    rw [mem_nodesWhere_iff, h i, mem_singleton]

theorem IsOnlyNode.countP_eq_one (h : g.IsOnlyNode p v) : g.nodes.countP p = 1 := by
  rw [← length_nodesWhere, nodesWhere_eq_singleton_iff.2 h]
  rfl

theorem IsOnlyNode.lt_length (h : g.IsOnlyNode p v) : v < g.nodes.length := by
  obtain ⟨x, hx, -⟩ := (h v).2 rfl
  exact (List.getElem?_eq_some_iff.1 hx).1

theorem IsOnlyNode.eq {w : Nat} (h : g.IsOnlyNode p v) (h' : g.IsOnlyNode p w) : v = w :=
  (h' v).1 ((h v).2 rfl)

/-- What the check for one execution has to answer: the only simple path from the only entry
node to the only violation node, or else the first of these conditions that fails. -/
inductive Linearity (g : Graph) : Except StructureFault (List Nat) → Prop where
  | entryNodes {n : Nat} (hcount : g.nodes.countP (·.isEntry) = n) (hne : n ≠ 1) :
      Linearity g (.error (.entryNodeCount n))
  | noViolationNode {entry : Nat} (hentry : g.IsOnlyNode (·.isEntry) entry)
      (hcount : g.nodes.countP (·.isViolation) = 0) :
      Linearity g (.error .noViolationNode)
  | violationNodes {entry n : Nat} (hentry : g.IsOnlyNode (·.isEntry) entry)
      (hcount : g.nodes.countP (·.isViolation) = n) (hseveral : 2 ≤ n) :
      Linearity g (.error (.violationNodeCount n))
  | unreachable {entry goal : Nat} (hentry : g.IsOnlyNode (·.isEntry) entry)
      (hgoal : g.IsOnlyNode (·.isViolation) goal)
      (hnone : ∀ path, ¬g.SimplePath entry path goal) :
      Linearity g (.error .unreachable)
  | multiplePaths {entry goal : Nat} {one other : List Nat}
      (hentry : g.IsOnlyNode (·.isEntry) entry)
      (hgoal : g.IsOnlyNode (·.isViolation) goal) (hne : one ≠ other)
      (hone : g.SimplePath entry one goal)
      (hother : g.SimplePath entry other goal) :
      Linearity g (.error .multiplePaths)
  | linear {entry goal : Nat} {path : List Nat} (hentry : g.IsOnlyNode (·.isEntry) entry)
      (hgoal : g.IsOnlyNode (·.isViolation) goal) (hpath : g.SimplePath entry path goal)
      (honly : ∀ other, g.SimplePath entry other goal → other = path) :
      Linearity g (.ok path)

theorem linearity_linearPath (hrange : ∀ e ∈ g.edges, e.target < g.nodes.length) :
    g.Linearity g.linearPath := by
  unfold linearPath
  split
  · rename_i entry goal hentries hgoals
    have hentry := nodesWhere_eq_singleton_iff.1 hentries
    have hgoal := nodesWhere_eq_singleton_iff.1 hgoals
    rcases simplePaths_cases hrange hentry.lt_length goal with
      ⟨path, hcount, hnone⟩ | ⟨path, hcount, hpath, honly⟩ | ⟨n, path, hcount, one, other, hne,
        hone, hother⟩
    · rw [hcount]
      exact .unreachable hentry hgoal hnone
    · rw [hcount]
      exact .linear hentry hgoal hpath honly
    · rw [hcount]
      exact .multiplePaths hentry hgoal hne hone hother
  · rename_i entry hentries hgoals
    refine .noViolationNode (nodesWhere_eq_singleton_iff.1 hentries) ?_
    rw [← length_nodesWhere, hgoals]
    rfl
  · rename_i entry hentries hnotOne hnotNone
    refine .violationNodes (nodesWhere_eq_singleton_iff.1 hentries) (length_nodesWhere g _).symm ?_
    by_contra hfew
    rcases Nat.le_one_iff_eq_zero_or_eq_one.1
      (Nat.lt_succ_iff.1 (Nat.not_le.1 hfew)) with hzero | hone
    · exact hnotNone (length_eq_zero_iff.1 hzero)
    · obtain ⟨goal, hgoal⟩ := length_eq_one_iff.1 hone
      exact hnotOne goal hgoal
  · rename_i hnotOne _ _
    refine .entryNodes (length_nodesWhere g _).symm fun hone => ?_
    obtain ⟨entry, hentry⟩ := length_eq_one_iff.1 hone
    exact hnotOne entry hentry

theorem Linearity.eq {a b : Except StructureFault (List Nat)} (ha : g.Linearity a)
    (hb : g.Linearity b) : a = b := by
  cases ha <;> cases hb <;> grind [IsOnlyNode.countP_eq_one, IsOnlyNode.eq]

/-- **The path of a witness.** A graph that has been read has a path exactly if it has one
entry node, one violation node and one simple path between them; every other graph gets the
error of the first condition that fails. -/
theorem linearPath_eq_iff {text origin : String} (hread : Graph.ofText text origin = .ok g)
    (outcome : Except StructureFault (List Nat)) : g.linearPath = outcome ↔
      g.Linearity outcome := by
  have hrange := fun e he => (endsInRange_ofText hread e he).2
  constructor
  · rintro rfl
    exact linearity_linearPath hrange
  · intro h
    exact (linearity_linearPath hrange).eq h

/-- A document with an edge back to the entry node, and with a node that only edges mention. -/
def loopDocument : List Char :=
  "<graphml><graph>".toList ++ "<node id='a'><data key='isEntryNode'>1</data></node>".toList ++
  "<node id='c'><data key='isViolationNode'>1</data></node>".toList ++
  "<edge source='a' target='b'/>".toList ++
  "<edge source='b' target='a'/>".toList ++ "<edge source='b' target='c'/>".toList ++
  "</graph></graphml>".toList

theorem linearity_loopDocument :
    ∃ g, Graph.ofText (.ofList loopDocument) "loop" = .ok g ∧ g.Linearity (.ok [0, 2]) := by
  have heval : (rootOf? loopDocument).map (fun root =>
      (Graph.ofDocument "loop" root).map (·.linearPath)) =
        some (.ok (.ok [0, 2])) := by
    decide +kernel
  obtain ⟨root, hroot, hlinear⟩ := Option.map_eq_some_iff.1 heval
  obtain ⟨g, hdoc, hpath⟩ := map_eq_ok_iff.1 hlinear
  have hread := ofText_eq_ok_iff.2 ⟨root, (parse?_sanitize_ofList loopDocument).trans hroot, hdoc⟩
  exact ⟨g, hread, (linearPath_eq_iff hread _).1 hpath⟩

end Graph

end WitnessReplay.Witness
