import WitnessReplay.Witness.Graph

/-!
# Linear witnesses

A witness describes one execution if it has one entry node, one violation node and exactly one
simple path between them. The path is found by a depth-first search that stops at the second
path.
-/

namespace WitnessReplay.Witness

/-- A node on the current path with the edges out of it that are still to be tried. -/
structure Frame where
  node : Nat
  untried : List Nat
deriving DecidableEq, Repr

structure Search where
  /-- The nodes of the current path, last one first. -/
  frames : List Frame
  /-- The edges of the current path, last one first. -/
  edges : List Nat
  /-- The nodes that are not on the current path. -/
  free : List Nat
  /-- How many paths have been found. -/
  found : Nat := 0
  /-- The first path found. -/
  first : Option (List Nat) := none
deriving DecidableEq, Repr

namespace Search

def start (g : Graph) (entry : Nat) : Search :=
  { frames := [⟨entry, g.outgoing entry⟩], edges := [],
    free := (List.range g.nodes.length).erase entry }

def onPath (s : Search) (v : Nat) : Bool :=
  !s.free.contains v

/-- Follows an edge: it may end at the goal, at a free node, which is put on the path, or at a
node of the path. -/
def follow (g : Graph) (goal : Nat) (s : Search) (edge : Nat) : Search :=
  match g.edges[edge]? with
  | none => s
  | some e =>
    if e.target = goal then
      { s with found := s.found + 1, first := s.first <|> some ((edge :: s.edges).reverse) }
    else if e.target ∈ s.free then
      { s with
        frames := ⟨e.target, g.outgoing e.target⟩ :: s.frames
        edges := edge :: s.edges
        free := s.free.erase e.target }
    else s

/-- One step: the next edge of the last node is followed, or the node is taken off the path.
The search ends with an empty path or at the second path found. -/
def step (g : Graph) (goal : Nat) (s : Search) : Option Search :=
  if 1 < s.found then none
  else
    match s.frames with
    | [] => none
    | frame :: below =>
      match frame.untried with
      | [] => some { s with frames := below, edges := s.edges.tail, free := frame.node :: s.free }
      | edge :: untried => some
          (follow g goal { s with frames := ⟨frame.node, untried⟩ :: below } edge)

/-- How heavily a frame counts when a number of nodes is free above it. -/
def weight (width : Nat) : Nat → Nat
  | 0 => 1
  | free + 1 => width * weight width free

theorem weight_pos {width : Nat} (hwidth : 0 < width) (free : Nat) : 0 < weight width free := by
  induction free with
  | zero => exact Nat.one_pos
  | succ free ih => exact Nat.mul_pos hwidth ih

/-- A bound on the steps that are left: every frame counts its untried edges, the more heavily
the more nodes are free above it. -/
def workOf (width : Nat) : Nat → List Frame → Nat
  | _, [] => 0
  | free, frame :: below =>
    (frame.untried.length + 1) * weight width free + workOf width (free + 1) below

def work (g : Graph) (s : Search) : Nat :=
  workOf (g.edges.length + 2) s.free.length s.frames

theorem work_follow_lt (g : Graph) (goal : Nat) (s : Search) (edge : Nat) (node : Nat)
    (untried : List Nat) (below : List Frame) :
    work g (follow g goal { s with frames := ⟨node, untried⟩ :: below } edge) <
      (untried.length + 2) * weight (g.edges.length + 2) s.free.length +
        workOf (g.edges.length + 2) (s.free.length + 1) below := by
  have hpos : 0 < weight (g.edges.length + 2) s.free.length := weight_pos (by omega) _
  have hstay : (untried.length + 1) * weight (g.edges.length + 2) s.free.length +
      workOf (g.edges.length + 2) (s.free.length + 1) below <
      (untried.length + 2) * weight (g.edges.length + 2) s.free.length +
        workOf (g.edges.length + 2) (s.free.length + 1) below := by
    apply Nat.add_lt_add_right
    exact Nat.mul_lt_mul_of_pos_right (by omega) hpos
  unfold follow
  split
  · simp only [work, workOf]; exact hstay
  · rename_i e _
    split
    · simp only [work, workOf]; exact hstay
    · split
      · rename_i hfree
        replace hfree : e.target ∈ s.free := hfree
        obtain ⟨k, hk⟩ : ∃ k, s.free.length = k + 1 := ⟨s.free.length - 1, by
          have := List.length_pos_of_mem hfree; omega⟩
        have herase : (s.free.erase e.target).length = k := by
          rw [List.length_erase_of_mem hfree]; omega
        simp only [work, workOf, herase, hk]
        have hout : (g.outgoing e.target).length + 1 < g.edges.length + 2 := by
          have := g.length_outgoing_le e.target; omega
        have hk' : 0 < weight (g.edges.length + 2) k := weight_pos (by omega) _
        have h₁ : ((g.outgoing e.target).length + 1) * weight (g.edges.length + 2) k <
            weight (g.edges.length + 2) (k + 1) := by
          rw [weight]
          exact Nat.mul_lt_mul_of_pos_right hout hk'
        have h₂ : (untried.length + 2) * weight (g.edges.length + 2) (k + 1) =
            (untried.length + 1) * weight (g.edges.length + 2) (k + 1) +
            weight (g.edges.length + 2) (k + 1) := by
          rw [show untried.length + 2 = (untried.length + 1) + 1 from rfl, Nat.succ_mul]
        omega
      · simp only [work, workOf]; exact hstay

theorem work_step_lt {g : Graph} {goal : Nat} {s s' : Search} (h : s.step g goal = some s') :
    work g s' < work g s := by
  unfold step at h
  split at h
  · cases h
  · split at h
    · cases h
    · rename_i frame below hframes
      split at h
      · cases h
        rename_i huntried
        simp only [work, hframes, workOf, huntried, List.length_cons, List.length_nil]
        have : 0 < weight (g.edges.length + 2) s.free.length := weight_pos (by omega) _
        omega
      · rename_i edge untried huntried
        cases h
        have := work_follow_lt g goal s edge frame.node untried below
        simpa [work, hframes, workOf, huntried] using this

def run (g : Graph) (goal : Nat) (s : Search) : Search :=
  match _h : s.step g goal with
  | none => s
  | some s' => run g goal s'
termination_by work g s
decreasing_by exact work_step_lt _h

end Search

/-- How many simple paths lead from one node to another, counted up to two, and the edges of
the first one. From a node to itself there is the empty path only. -/
def simplePaths (g : Graph) (entry goal : Nat) : Nat × List Nat :=
  if entry = goal then (1, [])
  else
    let s := (Search.start g entry).run g goal
    (s.found, s.first.getD [])

/-- The edges of the path from the entry node to the violation node, if the witness is linear. -/
def Graph.linearPath (g : Graph) : Except StructureFault (List Nat) :=
  match g.nodesWhere (·.isEntry), g.nodesWhere (·.isViolation) with
  | [entry], [goal] =>
    match simplePaths g entry goal with
    | (0, _) => .error .unreachable
    | (1, path) => .ok path
    | _ => .error .multiplePaths
  | [_], [] => .error .noViolationNode
  | [_], violations => .error (.violationNodeCount violations.length)
  | entries, _ => .error (.entryNodeCount entries.length)

structure LinearWitness where
  graph : Graph
  path : List Nat
  isLinear : graph.linearPath = .ok path

namespace LinearWitness

def ofGraph (g : Graph) : Except WitnessError LinearWitness :=
  match h : g.linearPath with
  | .ok path => .ok ⟨g, path, h⟩
  | .error fault => .error (g.error fault)

def producer (w : LinearWitness) : Option String :=
  w.graph.producer

def pathEdges (w : LinearWitness) : List Edge :=
  w.path.filterMap (w.graph.edges[·]?)

end LinearWitness

end WitnessReplay.Witness
