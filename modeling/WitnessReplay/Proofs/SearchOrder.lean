import WitnessReplay.Proofs.LinearPath

/-!
# The order of the search

Edges are told apart by their indices, and the edges out of a node are tried in the order of
these, so the search comes to paths in lexicographic order. At every moment the frames and the
edges describe the place that it has come to, and the paths that it has met are the simple
paths in front of that place.
-/

namespace WitnessReplay.Witness

namespace Search

variable {g : Graph} {entry goal i node : Nat} {e : Edge} {s s' : Search}
    {frames below : List Frame}
  {edges untried path : List Nat} {hits : List (List Nat)}

/-! ### The path of the frames -/

/-- The edges join the nodes of the frames one after the other, from the entry node on; both
are given last one first. Of the edges out of a node a last part is untried, and the edge that
was taken from it stands right in front of that part. When the entry node has been taken off
the path, nothing is left. -/
inductive Joined (g : Graph) (entry : Nat) : List Frame → List Nat → Prop where
  | ended : Joined g entry [] []
  | entry {untried : List Nat} (hout : untried <:+ g.outgoing entry) :
      Joined g entry [⟨entry, untried⟩] []
  | edge {i : Nat} {e : Edge} {below : List Frame} {edges untried untried' : List Nat}
      (hbelow : Joined g entry (⟨e.source, untried⟩ :: below) edges) (hedge : g.edges[i]? = some e)
      (htaken : i :: untried <:+ g.outgoing e.source) (hout : untried' <:+ g.outgoing e.target) :
      Joined g entry (⟨e.target, untried'⟩ :: ⟨e.source, untried⟩ :: below) (i :: edges)

theorem Joined.untried_suffix (h : Joined g entry (⟨node, untried⟩ :: below) edges) :
    untried <:+ g.outgoing node := by
  cases h with
  | entry hout => exact hout
  | edge _ _ _ hout => exact hout

theorem Joined.pass (h : Joined g entry (⟨node, i :: untried⟩ :: below) edges) :
    Joined g entry (⟨node, untried⟩ :: below) edges := by
  have hrest : untried <:+ g.outgoing node := (List.suffix_cons i untried).trans h.untried_suffix
  cases h with
  | entry _ => exact .entry hrest
  | edge hbelow hedge htaken _ => exact .edge hbelow hedge htaken hrest

theorem Joined.leave {frame : Frame} (h : Joined g entry (frame :: below) edges) :
    Joined g entry below edges.tail := by
  cases h with
  | entry _ => exact .ended
  | edge hbelow _ _ _ => exact hbelow

theorem Joined.enter (h : Joined g entry (⟨node, i :: untried⟩ :: below) edges)
    (hedge : g.edges[i]? = some e) :
    Joined g entry (⟨e.target, g.outgoing e.target⟩ :: ⟨node, untried⟩ :: below) (i :: edges) := by
  obtain ⟨-, e', he', rfl⟩ := Graph.mem_outgoing_iff.1 (h.untried_suffix.mem List.mem_cons_self)
  obtain rfl : e = e' := Option.some.inj (hedge.symm.trans he')
  exact .edge h.pass hedge h.untried_suffix List.suffix_rfl

theorem Joined.move (h : Joined g entry s.frames s.edges) (hmove : Move g goal s s') :
    Joined g entry s'.frames s'.edges := by
  cases hmove with
  | back => exact h.leave
  | hit _ _ => exact h.pass
  | descend hedge _ _ => exact h.enter hedge
  | skip _ => exact h.pass

/-! ### Positions in order -/

theorem append_lt_append_iff {front p q : List Nat} : front ++ p < front ++ q ↔ p < q := by
  induction front with
  | nil => rfl
  | cons i front ih => simp [ih]

theorem lt_next (h : i :: untried <:+ g.outgoing node) (below : List Frame) :
    i < next g (⟨node, untried⟩ :: below) := by
  cases untried with
  | nil =>
    obtain ⟨-, e, hedge, -⟩ := Graph.mem_outgoing_iff.1 (h.mem List.mem_cons_self)
    exact (List.getElem?_eq_some_iff.1 hedge).1
  | cons j untried =>
    have hincreasing := (g.outgoing_increasing node).sublist h.sublist
    exact (List.pairwise_cons.1 hincreasing).1 j List.mem_cons_self

theorem append_cons_lt (h : i :: untried <:+ g.outgoing node) (below : List Frame)
    (front rest : List Nat) :
    front ++ i :: rest < front ++ [next g (⟨node, untried⟩ :: below)] := by
  rw [append_lt_append_iff, List.cons_lt_cons_iff]
  exact .inl (lt_next h below)

/-- A step takes the search forward, or it takes the entry node off the path and meets nothing. -/
theorem position_lt_of_move (h : Joined g entry s.frames s.edges) (hmove : Move g goal s s') :
    s.position g < s'.position g ∨ s'.position g = s.position g ∧ met g s s' = [] := by
  cases hmove with
  | back =>
    cases h with
    | entry _ => exact .inr ⟨rfl, if_neg (Nat.lt_irrefl _)⟩
    | edge _ _ htaken _ =>
      -- the node below goes on behind the edge that led to the node taken off
      left
      rw [position, List.reverse_cons, List.append_assoc]
      exact append_cons_lt htaken _ _ _
  | hit _ _ => exact .inl (append_cons_lt h.untried_suffix _ _ [])
  | descend _ _ _ =>
    -- the new position continues the old one
    left
    rw [position, position, List.reverse_cons, List.append_assoc, append_lt_append_iff]
    exact List.cons_lt_cons_iff.2 (.inr ⟨rfl, List.nil_lt_cons _ _⟩)
  | skip _ => exact .inl (append_cons_lt h.untried_suffix _ _ [])

/-- The paths through untried edges are not in front of the place at which the first of these
is tried. -/
theorem not_append_lt_of_mem_pathsVia {free : Finset Nat} (hout : untried <:+ g.outgoing node)
    (hpath : path ∈ g.pathsVia goal free untried) (below : List Frame) (front : List Nat) :
    ¬front ++ path < front ++ [next g (⟨node, untried⟩ :: below)] := by
  obtain ⟨j, hj, e, rest, -, rfl, -⟩ := Graph.mem_pathsVia_iff.1 hpath
  obtain ⟨i, untried, rfl⟩ := List.exists_cons_of_ne_nil (List.ne_nil_of_mem hj)
  have hle : i ≤ j := by
    rcases List.mem_cons.1 hj with rfl | hj
    · exact Nat.le_refl _
    · have hincreasing := (g.outgoing_increasing node).sublist hout.sublist
      exact Nat.le_of_lt ((List.pairwise_cons.1 hincreasing).1 j hj)
  rw [append_lt_append_iff, List.cons_lt_cons_iff]
  rintro (hlt | ⟨-, hlt⟩)
  · exact Nat.not_lt.2 hle hlt
  · exact List.not_lt_nil rest hlt

theorem Joined.not_lt_of_mem_pathsLeft (h : Joined g entry frames edges) {free : Finset Nat}
    (hpath : path ∈ pathsLeft g goal frames edges free) :
    ¬path < edges.reverse ++ [next g frames] := by
  induction h generalizing free with
  | ended => exact absurd hpath List.not_mem_nil
  | entry hout =>
    rw [pathsLeft, pathsLeft, List.append_nil] at hpath
    obtain ⟨rest, hrest, rfl⟩ := List.mem_map.1 hpath
    exact not_append_lt_of_mem_pathsVia hout hrest _ _
  | @edge i e below edges untried untried' hbelow hedge htaken hout ih =>
    rw [pathsLeft] at hpath
    rcases List.mem_append.1 hpath with hpath | hpath
    · obtain ⟨rest, hrest, rfl⟩ := List.mem_map.1 hpath
      exact not_append_lt_of_mem_pathsVia hout hrest _ _
    · -- the place below is further on, because the edge to the last node has been taken there
      intro hlt
      apply ih hpath
      rw [List.reverse_cons, List.append_assoc] at hlt
      exact List.lt_trans hlt (append_cons_lt htaken _ _ _)

/-! ### Every state of the search -/

/-- The states that the search comes to, each with the paths that it has met, in their order. -/
inductive Reached (g : Graph) (entry goal : Nat) : List (List Nat) → Search → Prop where
  | start : Reached g entry goal [] (start g entry)
  | step {hits : List (List Nat)} {s s' : Search} (hs : Reached g entry goal hits s)
      (h : s.step g goal = some s') :
      Reached g entry goal (hits ++ met g s s') s'

theorem Reached.exists_run (h : Reached g entry goal hits s) :
    (∃ hits', Reached g entry goal hits' (s.run g goal)) ∧ (s.run g goal).step g goal = none := by
  induction s using Search.run.induct g goal generalizing hits with
  | case1 s hstep =>
    rw [Search.run, hstep]
    exact ⟨⟨hits, h⟩, hstep⟩
  | case2 s s' hstep ih =>
    rw [Search.run, hstep]
    exact ih (h.step hstep)

theorem Reached.follows (h : Reached g entry goal hits s) (hentry : entry < g.nodes.length) :
    Follows g goal (g.pathsVia goal ((Finset.range g.nodes.length).erase entry)
    (g.outgoing entry)) s hits := by
  induction h with
  | start => exact follows_start hentry
  | step _ hstep ih => exact ih.move (move_of_step hstep)

theorem Reached.joined (h : Reached g entry goal hits s) : Joined g entry s.frames s.edges := by
  induction h with
  | start => exact .entry List.suffix_rfl
  | step _ hstep ih => exact ih.move (move_of_step hstep)

theorem Reached.goal_notMem (h : Reached g entry goal hits s) (hne : entry ≠ goal) :
    goal ∉ s.frames.map (·.node) := by
  induction h with
  | start => exact fun hmem => hne (List.mem_singleton.1 hmem).symm
  | step _ hstep ih =>
    cases move_of_step hstep with
    | back => exact fun hmem => ih (List.mem_cons_of_mem _ hmem)
    | hit _ _ => exact ih
    | descend _ hgoal _ => exact List.not_mem_cons_of_ne_of_not_mem (Ne.symm hgoal) ih
    | skip _ => exact ih

theorem met_sublist (g : Graph) (s s' : Search) : (met g s s').Sublist [s.position g] := by
  unfold met
  split
  · exact List.Sublist.refl _
  · exact List.nil_sublist _

/-- The paths that have been met are in front of the place to which the search has come, in
lexicographic order. -/
theorem Reached.pairwise_lt (h : Reached g entry goal hits s) : (hits ++ [s.position g]).Pairwise
    (· < ·) := by
  induction h with
  | start => exact List.pairwise_singleton _ _
  | @step hits s s' hs hstep ih =>
    rcases position_lt_of_move hs.joined (move_of_step hstep) with hlt | ⟨heq, hmet⟩
    · -- whether or not the old position has been met, it lies between the paths met before and the new one
      have hboth : (hits ++ [s.position g] ++ [s'.position g]).Pairwise (· < ·) := by
        apply List.pairwise_append.2 ⟨ih, List.pairwise_singleton _ _, ?_⟩
        intro p hp q hq
        rw [List.mem_singleton.1 hq]
        rcases List.mem_append.1 hp with hp | hp
        · exact List.lt_trans ((List.pairwise_append.1 ih).2.2 p hp _ List.mem_cons_self) hlt
        · rwa [List.mem_singleton.1 hp]
      exact hboth.sublist (((met_sublist g s s').append_left hits).append_right _)
    · rwa [hmet, heq, List.append_nil]

/-- What holds of a state of the search and the paths that it has met. -/
structure Consistent (g : Graph) (entry goal : Nat) (hits : List (List Nat)) (s : Search) :
    Prop where
  /-- The nodes of the frames are different. -/
  nodup : (s.frames.map (·.node)).Nodup
  goal_notMem : goal ∉ s.frames.map (·.node)
  /-- The nodes on the path are those of the frames. -/
  onPath_iff : ∀ v, v < g.nodes.length ∧ s.onPath v = true ↔ v ∈ s.frames.map (·.node)
  /-- The edges join the frames. -/
  joined : Joined g entry s.frames s.edges
  /-- The paths met are the simple paths in front of the place to which the search has come. -/
  mem_hits_iff : ∀ path, path ∈ hits ↔ g.SimplePath entry path goal ∧ path < s.position g
  /-- Each of them has been met once, in lexicographic order. -/
  increasing : hits.Pairwise (· < ·)
  found : s.found = hits.length
  first : s.first = hits.head?

theorem Follows.onPath_iff {all : List (List Nat)} (h : Follows g goal all s hits) (v : Nat) :
    v < g.nodes.length ∧ s.onPath v = true ↔ v ∈ s.frames.map (·.node) := by
  obtain ⟨-, -, hdisjoint⟩ := List.nodup_append.1 h.nodup_nodes
  rw [← List.mem_range, ← h.nodes.mem_iff, List.mem_append, onPath, Bool.not_eq_true',
    List.contains_eq_mem, decide_eq_false_iff_not]
  constructor
  · rintro ⟨hframe | hfree, hnot⟩
    · exact hframe
    · exact absurd hfree hnot
  · intro hframe
    exact ⟨.inl hframe, fun hfree => hdisjoint v hframe v hfree rfl⟩

theorem Reached.mem_hits_iff (h : Reached g entry goal hits s)
    (hrange : ∀ e ∈ g.edges, e.target < g.nodes.length)
    (hentry : entry < g.nodes.length) (hne : entry ≠ goal) :
    path ∈ hits ↔ g.SimplePath entry path goal ∧ path < s.position g := by
  rw [← Graph.mem_pathsVia_iff_simplePath hrange hentry hne, ← (h.follows hentry).paths,
    List.mem_append]
  constructor
  · intro hmem
    exact ⟨.inl hmem, (List.pairwise_append.1 h.pairwise_lt).2.2 path hmem _ List.mem_cons_self⟩
  · rintro ⟨hmem | hleft, hlt⟩
    · exact hmem
    · exact absurd hlt (h.joined.not_lt_of_mem_pathsLeft hleft)

/-- **The order of the search.** The search for the simple paths from one node to another comes
to an end. In each of its states the frames are different nodes other than the goal, the nodes
on the path are theirs, the edges join them from the entry node on, and the paths met are the
simple paths in front of the place to which the search has come. -/
theorem search_meets_paths_in_order (hrange : ∀ e ∈ g.edges, e.target < g.nodes.length)
    (hentry : entry < g.nodes.length) (hne : entry ≠ goal) :
    ((∃ hits, Reached g entry goal hits ((start g entry).run g goal)) ∧
      ((start g entry).run g goal).step g goal = none) ∧
    ∀ hits s, Reached g entry goal hits s → Consistent g entry goal hits s := by
  refine ⟨Reached.start.exists_run, ?_⟩
  intro hits s h
  have hfollows := h.follows hentry
  exact
    { nodup := (List.nodup_append.1 hfollows.nodup_nodes).1
      goal_notMem := h.goal_notMem hne
      onPath_iff := hfollows.onPath_iff
      joined := h.joined
      mem_hits_iff := fun _ => h.mem_hits_iff hrange hentry hne
      increasing := (List.pairwise_append.1 h.pairwise_lt).1
      found := hfollows.found
      first := hfollows.first }

def twoWays : Graph :=
  { origin := "two ways"
    attributes := ∅
    nodes := [⟨"a", ∅⟩, ⟨"b", ∅⟩, ⟨"c", ∅⟩]
    edges := [⟨0, 1, ∅⟩, ⟨1, 0, ∅⟩, ⟨1, 2, ∅⟩, ⟨0, 2, ∅⟩] }

def backAtEntry : Search :=
  { frames := [⟨0, [3]⟩], edges := [], free := [1, 2], found := 1, first := some [0, 2] }

theorem reached_backAtEntry : Reached twoWays 0 2 [[0, 2]] backAtEntry := by
  have hdescend := Reached.step (Reached.start : Reached twoWays 0 2 [] _) rfl
  have hskip := Reached.step hdescend rfl
  have hhit := Reached.step hskip rfl
  exact Reached.step hhit rfl

theorem backAtEntry_met_first_path :
    ((start twoWays 0).run twoWays 2).step twoWays 2 = none ∧
    Consistent twoWays 0 2 [[0, 2]] backAtEntry := by
  have hrange : ∀ e ∈ twoWays.edges, e.target < twoWays.nodes.length := by decide
  have hentry : 0 < twoWays.nodes.length := by decide
  have hne : 0 ≠ 2 := by decide
  obtain ⟨⟨-, hend⟩, hstates⟩ := search_meets_paths_in_order hrange hentry hne
  exact ⟨hend, hstates _ _ reached_backAtEntry⟩

end Search

end WitnessReplay.Witness
