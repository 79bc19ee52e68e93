import Mathlib.Data.Nat.Digits.Defs
import WitnessReplay.Proofs.LinearPath
import WitnessReplay.Witness.Assumption

/-!
# Assumptions along a path

The statements of a linear witness are collected edge by edge. An edge without an assumption,
or without a scope for it, is passed over; of every other edge the position is wanted, whether
or not the filter keeps the statement. So whether the statements can be collected, and which
edge is to blame if not, is decided by the path alone, and the filter picks from the same list.
-/

namespace WitnessReplay.Witness

open List

/-! ### Line numbers -/

def decimalValue (digits : List Char) : Nat :=
  Nat.ofDigits 10 (digits.reverse.map fun d => d.toNat - '0'.toNat)

/-- A text spells a line number: decimal digits, with or without a plus sign in front, whose
value fits into 32 bits. -/
def SpellsLine (text : List Char) (n : Nat) : Prop :=
  ∃ digits, (text = digits ∨ text = '+' :: digits) ∧ digits ≠ [] ∧
    (∀ d ∈ digits, d.isDigit = true) ∧
    n = decimalValue digits ∧ n < 2 ^ 32

theorem foldl_eq_decimalValue (digits : List Char) :
    digits.foldl (fun n d => n * 10 + (d.toNat - '0'.toNat)) 0 = decimalValue digits := by
  rw [decimalValue, Nat.ofDigits_eq_foldr, map_reverse, foldr_reverse, foldl_map]
  congr 1
  funext n d
  rw [Nat.cast_id, Nat.mul_comm, Nat.add_comm]

theorem lineNumber?_of_digits {text digits : List Char}
    (htext : text = digits ∨ text = '+' :: digits) (hdigits : ∀ d ∈ digits, d.isDigit = true) :
    lineNumber? text = if digits = [] ∨ 2 ^ 32 ≤ decimalValue digits then none else
    some (decimalValue digits) := by
  have hunsigned : (if text.head? = some '+' then text.tail else text) = digits := by
    rcases htext with rfl | rfl
    · rw [if_neg]
      intro hplus
      exact absurd (hdigits '+' (mem_of_mem_head? hplus)) (by decide)
    · rfl
  have hall : digits.all Char.isDigit = true := all_eq_true.2 hdigits
  have hsize : UInt32.size = 2 ^ 32 := rfl
  simp only [lineNumber?, hunsigned, foldl_eq_decimalValue, hall, hsize]
  simp

theorem lineNumber?_eq_some_iff {text : List Char} {n : Nat} :
    lineNumber? text = some n ↔ SpellsLine text n := by
  constructor
  · intro h
    have hdigits : ∃ digits, (text = digits ∨ text = '+' :: digits) ∧
        ∀ d ∈ digits, d.isDigit = true := by
      unfold lineNumber? at h
      extract_lets digits value at h
      split at h
      · cases h
      next hgood =>
        have hall : ∀ d ∈ digits, d.isDigit = true := by
          simp only [Bool.or_eq_true, Bool.not_eq_true', not_or, Bool.not_eq_false,
            all_eq_true] at hgood
          exact hgood.1.2
        refine ⟨digits, ?_, hall⟩
        by_cases hplus : text.head? = some '+'
        · obtain ⟨r, rfl⟩ := head?_eq_some_iff.1 hplus
          exact .inr rfl
        · exact .inl (if_neg hplus).symm
    obtain ⟨digits, htext, hall⟩ := hdigits
    rw [lineNumber?_of_digits htext hall] at h
    split at h
    · cases h
    next hgood =>
      cases h
      rw [not_or, Nat.not_le] at hgood
      exact ⟨digits, htext, hgood.1, hall, rfl, hgood.2⟩
  · rintro ⟨digits, htext, hne, hall, rfl, hlt⟩
    rw [lineNumber?_of_digits htext hall, if_neg]
    rintro (hnil | hle)
    · exact hne hnil
    · exact absurd hlt (Nat.not_lt.2 hle)

/-! ### One edge -/

def Edge.isScoped (e : Edge) : Bool :=
  e.data.contains "assumption" && e.data.contains "assumption.scope"

/-- An edge tells the position of its assumption: it names a file and spells a line. -/
def Edge.LocatedAt (e : Edge) (position : Position) : Prop :=
  ∃ file line, e.data.get? "originFileName" = some file ∧ e.data.get? "startline" = some line ∧
    position.file = fileIdentifier (Text.trim file) ∧
    SpellsLine (Text.trimChars line.toList) position.line

/-- Why an edge does not tell the position of its assumption. The file is looked for first. -/
inductive Graph.Unlocated (g : Graph) (e : Edge) : StructureFault → Prop where
  | noFile (hfile : e.data.get? "originFileName" = none) :
      g.Unlocated e (.missingEdgeKey (g.nodeId e.source) (g.nodeId e.target) "originFileName")
  | noLine {file : String}
      (hfile : e.data.get? "originFileName" = some file) (hline : e.data.get? "startline" = none) :
      g.Unlocated e (.missingEdgeKey (g.nodeId e.source) (g.nodeId e.target) "startline")
  | badLine {file line : String} (hfile : e.data.get? "originFileName" = some file)
      (hline : e.data.get? "startline" = some line)
      (hbad : ∀ n, ¬ SpellsLine (Text.trimChars line.toList) n) :
      g.Unlocated e (.invalidLine (g.nodeId e.source) (g.nodeId e.target) line)

/-- What an edge states, and where. -/
structure Edge.States (e : Edge) (s : Statement) : Prop where
  text : e.data.get? "assumption" = some s.text
  scope : e.data.get? "assumption.scope" = some s.scope
  position : e.LocatedAt s.position

variable {g : Graph} {e : Edge} {fault : StructureFault}

theorem edgePosition_eq_ok_iff {position : Position} : g.edgePosition e = .ok position ↔
    e.LocatedAt position := by
  unfold Graph.edgePosition Edge.LocatedAt
  cases hfile : e.data.get? "originFileName" with
  | none => simp
  | some file =>
    cases hline : e.data.get? "startline" with
    | none => simp
    | some line =>
      obtain ⟨name, n⟩ := position
      cases hnumber : lineNumber? (Text.trimChars line.toList) with
      | none => simp [← lineNumber?_eq_some_iff, hnumber]
      | some m => simp [← lineNumber?_eq_some_iff, hnumber, Position.ofPath, eq_comm]

theorem edgePosition_eq_error_iff : g.edgePosition e = .error fault ↔ g.Unlocated e fault := by
  constructor
  · intro h
    unfold Graph.edgePosition at h
    cases hfile : e.data.get? "originFileName" with
    | none =>
      rw [hfile] at h
      cases h
      exact .noFile hfile
    | some file =>
      cases hline : e.data.get? "startline" with
      | none =>
        rw [hfile, hline] at h
        cases h
        exact .noLine hfile hline
      | some line =>
        cases hnumber : lineNumber? (Text.trimChars line.toList) with
        | some n => simp [hfile, hline, hnumber] at h
        | none =>
          simp only [hfile, hline, hnumber, Except.error.injEq] at h
          subst h
          refine .badLine hfile hline fun n hn => ?_
          cases hnumber.symm.trans (lineNumber?_eq_some_iff.2 hn)
  · intro h
    unfold Graph.edgePosition
    cases h with
    | noFile hfile => rw [hfile]
    | noLine hfile hline => rw [hfile, hline]
    | @badLine file line hfile hline hbad =>
      have hnumber : lineNumber? (Text.trimChars line.toList) = none := by
        by_contra hsome
        obtain ⟨n, hn⟩ := Option.ne_none_iff_exists'.1 hsome
        exact hbad n (lineNumber?_eq_some_iff.1 hn)
      rw [hfile, hline]
      simp only [hnumber]

theorem Graph.unlocated_iff : (∃ fault, g.Unlocated e fault) ↔
    ¬ ∃ position, e.LocatedAt position := by
  cases h : g.edgePosition e with
  | ok position =>
    refine iff_of_false ?_ (not_not.2 ⟨position, edgePosition_eq_ok_iff.1 h⟩)
    rintro ⟨fault, hfault⟩
    cases h.symm.trans (edgePosition_eq_error_iff.2 hfault)
  | error fault =>
    refine iff_of_true ⟨fault, edgePosition_eq_error_iff.1 h⟩ ?_
    rintro ⟨position, hposition⟩
    cases h.symm.trans (edgePosition_eq_ok_iff.2 hposition)

theorem Edge.exists_of_isScoped (h : e.isScoped = true) :
    ∃ text scope, e.data.get? "assumption" = some text ∧
      e.data.get? "assumption.scope" = some scope := by
  rw [isScoped, Bool.and_eq_true] at h
  obtain ⟨text, htext⟩ := Option.isSome_iff_exists.1 h.1
  obtain ⟨scope, hscope⟩ := Option.isSome_iff_exists.1 h.2
  exact ⟨text, scope, htext, hscope⟩

variable {f : ScopeFilter} {collected : List Statement}

theorem collect_of_not_isScoped (h : e.isScoped = false) :
    g.collect f collected e = .ok collected := by
  unfold Graph.collect
  rw [Edge.isScoped, OrderedMap.contains, OrderedMap.contains] at h
  split
  next htext hscope => simp [htext, hscope] at h
  · rfl

/-- An edge that tells its position has a statement, which the filter may then keep or not. -/
theorem collect_of_locatedAt {position : Position} (h : e.isScoped = true)
    (hposition : e.LocatedAt position) :
    ∃ s, e.States s ∧ ∀ (g : Graph) (f : ScopeFilter) (collected : List Statement),
      g.collect f collected e = .ok (collected ++ [s].filter f.keeps) := by
  obtain ⟨text, scope, htext, hscope⟩ := Edge.exists_of_isScoped h
  refine ⟨⟨position, text, scope⟩, ⟨htext, hscope, hposition⟩, ?_⟩
  intro g f collected
  unfold Graph.collect
  rw [htext, hscope, edgePosition_eq_ok_iff.2 hposition]
  show Except.ok (if f.keeps ⟨position, text, scope⟩ then _ else _) = _
  by_cases hkeeps : f.keeps ⟨position, text, scope⟩ = true
  · rw [if_pos hkeeps, filter_cons_of_pos hkeeps, filter_nil]
  · rw [if_neg hkeeps, filter_cons_of_neg hkeeps, filter_nil, append_nil]

/-- The position is wanted before the filter is asked, so that no filter spares an edge that
does not tell it. -/
theorem collect_of_unlocated (h : e.isScoped = true) (hfault : g.Unlocated e fault) :
    g.collect f collected e = .error fault := by
  obtain ⟨text, scope, htext, hscope⟩ := Edge.exists_of_isScoped h
  unfold Graph.collect
  rw [htext, hscope, edgePosition_eq_error_iff.2 hfault]
  rfl

/-! ### Edge after edge -/

/-- Every edge that states an assumption with a scope tells its position. -/
def AllLocated (edges : List Edge) : Prop :=
  ∀ e ∈ edges, e.isScoped = true → ∃ position, e.LocatedAt position

/-- The first of some edges that states an assumption with a scope and does not tell its
position, with what is wrong. -/
def Graph.FirstUnlocated (g : Graph) (edges : List Edge) (fault : StructureFault) : Prop :=
  ∃ front e back, edges = front ++ e :: back ∧ AllLocated front ∧ e.isScoped = true ∧
    g.Unlocated e fault

theorem AllLocated.tail {edges : List Edge} (h : AllLocated (e :: edges)) : AllLocated edges :=
  fun d hd => h d (mem_cons_of_mem e hd)

theorem collected_of_allLocated {edges : List Edge} (h : AllLocated edges) :
    ∃ all, List.Forall₂ Edge.States (edges.filter Edge.isScoped) all ∧
      ∀ (g : Graph) (f : ScopeFilter) (collected : List Statement),
        edges.foldlM (g.collect f) collected = .ok (collected ++ all.filter f.keeps) := by
  induction edges with
  | nil =>
    refine ⟨[], .nil, fun g f collected => ?_⟩
    rw [filter_nil, append_nil]
    rfl
  | cons e rest ih =>
    obtain ⟨others, hstates, hothers⟩ := ih h.tail
    cases hscoped : e.isScoped with
    | false =>
      refine ⟨others, ?_, fun g f collected => ?_⟩
      · rwa [filter_cons_of_neg (by simp [hscoped])]
      · rw [foldlM_cons, collect_of_not_isScoped hscoped]
        exact hothers g f collected
    | true =>
      obtain ⟨position, hposition⟩ := h e mem_cons_self hscoped
      obtain ⟨s, hstate, hs⟩ := collect_of_locatedAt hscoped hposition
      refine ⟨s :: others, ?_, fun g f collected => ?_⟩
      · rw [filter_cons_of_pos hscoped]
        exact .cons hstate hstates
      · rw [foldlM_cons, hs]
        refine (hothers g f _).trans ?_
        rw [append_assoc, ← filter_append]
        rfl

/-- The first edge that is not located ends the loop, whatever the filter has kept before it. -/
theorem collected_of_firstUnlocated {edges : List Edge} (h : g.FirstUnlocated edges fault)
    (f : ScopeFilter)
    (collected : List Statement) : edges.foldlM (g.collect f) collected = .error fault := by
  obtain ⟨front, e, back, rfl, hfront, hscoped, hfault⟩ := h
  obtain ⟨all, -, hall⟩ := collected_of_allLocated hfront
  rw [foldlM_append, hall]
  show List.foldlM (g.collect f) _ (e :: back) = _
  rw [foldlM_cons, collect_of_unlocated hscoped hfault]
  rfl

/-- Among edges that are not all located there is a first one that is not. -/
theorem exists_firstUnlocated {edges : List Edge} (h : ¬ AllLocated edges) :
    ∃ fault, g.FirstUnlocated edges fault := by
  induction edges with
  | nil => exact absurd (fun e he => absurd he not_mem_nil) h
  | cons e rest ih =>
    by_cases hfirst : e.isScoped = true → ∃ position, e.LocatedAt position
    · have hrest : ¬ AllLocated rest := by
        intro hrest
        refine h fun d hd => ?_
        rcases mem_cons.1 hd with rfl | hd
        · exact hfirst
        · exact hrest d hd
      obtain ⟨fault, front, d, back, rfl, hfront, hd⟩ := ih hrest
      refine ⟨fault, e :: front, d, back, rfl, fun d' hd' => ?_, hd⟩
      rcases mem_cons.1 hd' with rfl | hd'
      · exact hfirst
      · exact hfront d' hd'
    · obtain ⟨hscoped, hnone⟩ := Classical.not_imp.1 hfirst
      obtain ⟨fault, hfault⟩ := (Graph.unlocated_iff (g := g)).2 hnone
      exact ⟨fault, [], e, rest, rfl, fun d hd => absurd hd not_mem_nil, hscoped, hfault⟩

/-- Statements are collected from edges that are all located; otherwise the first one that is
not decides. -/
theorem collected_eq_error_iff {edges : List Edge} :
    edges.foldlM (g.collect f) collected = .error fault ↔ g.FirstUnlocated edges fault := by
  refine ⟨fun h => ?_, fun h => collected_of_firstUnlocated h f collected⟩
  by_cases hall : AllLocated edges
  · obtain ⟨all, -, hok⟩ := collected_of_allLocated hall
    cases h.symm.trans (hok g f collected)
  · obtain ⟨fault', hfault'⟩ := exists_firstUnlocated (g := g) hall
    cases h.symm.trans (collected_of_firstUnlocated hfault' f collected)
    exact hfault'

theorem exists_collected_iff {edges : List Edge} :
    (∃ all, edges.foldlM (g.collect f) collected = .ok all) ↔ AllLocated edges := by
  constructor
  · rintro ⟨all, hok⟩
    by_contra hall
    obtain ⟨fault, hfault⟩ := exists_firstUnlocated (g := g) hall
    cases hok.symm.trans (collected_of_firstUnlocated hfault f collected)
  · intro hall
    obtain ⟨all, -, hok⟩ := collected_of_allLocated hall
    exact ⟨_, hok g f collected⟩

/-! ### The edges of the path -/

namespace Search

/-- Every index that the search has put on a path is the index of an edge. -/
structure OnEdges (g : Graph) (s : Search) : Prop where
  edges : ∀ i ∈ s.edges, i < g.edges.length
  first : ∀ path ∈ s.first, ∀ i ∈ path, i < g.edges.length

theorem onEdges_start (g : Graph) (entry : Nat) : OnEdges g (start g entry) := by
  refine ⟨fun i hi => absurd hi not_mem_nil, fun path hpath => ?_⟩
  cases hpath

theorem OnEdges.move {goal : Nat} {s s' : Search} (h : OnEdges g s) (hmove : Move g goal s s') :
    OnEdges g s' := by
  cases hmove with
  | back => exact ⟨fun i hi => h.edges i (mem_of_mem_tail hi), h.first⟩
  | @hit node i e below untried edges free found first hedge hgoal =>
    have hpath : ∀ j ∈ (i :: edges).reverse, j < g.edges.length := by
      intro j hj
      rcases mem_cons.1 (mem_reverse.1 hj) with rfl | hj
      · exact (List.getElem?_eq_some_iff.1 hedge).1
      · exact h.edges j hj
    refine ⟨h.edges, fun path hfirst => ?_⟩
    cases first with
    | none =>
      cases hfirst
      exact hpath
    | some old => exact h.first path hfirst
  | descend hedge hgoal hfree =>
    refine ⟨fun j hj => ?_, h.first⟩
    rcases mem_cons.1 hj with rfl | hj
    · exact (List.getElem?_eq_some_iff.1 hedge).1
    · exact h.edges j hj
  | skip => exact ⟨h.edges, h.first⟩

theorem OnEdges.run {s : Search} (h : OnEdges g s) (goal : Nat) : OnEdges g (s.run g goal) := by
  fun_induction Search.run g goal s with
  | case1 s hstep => exact h
  | case2 s s' hstep ih => exact ih (h.move (move_of_step hstep))

end Search

theorem lt_length_of_mem_simplePaths (entry goal : Nat) {i : Nat}
    (hi : i ∈ (simplePaths g entry goal).2) :
    i < g.edges.length := by
  unfold simplePaths at hi
  split at hi
  · cases hi
  · have hrun := (Search.onEdges_start g entry).run goal
    cases hfirst : ((Search.start g entry).run g goal).first with
    | none => simp [hfirst] at hi
    | some path => exact hrun.first path hfirst i (by simpa [hfirst] using hi)

theorem LinearWitness.lt_length_of_mem_path {w : LinearWitness} {i : Nat} (hi : i ∈ w.path) :
    i < w.graph.edges.length := by
  have hlinear := w.isLinear
  unfold Graph.linearPath at hlinear
  split at hlinear
  · rename_i entry goal _ _
    split at hlinear
    · cases hlinear
    next path hpaths =>
      cases hlinear
      exact lt_length_of_mem_simplePaths entry goal (by rwa [hpaths])
    · cases hlinear
  all_goals cases hlinear

theorem LinearWitness.map_path (w : LinearWitness) :
    w.path.map (w.graph.edges[·]?) = w.pathEdges.map some := by
  have hall {path : List Nat} (h : ∀ i ∈ path, i < w.graph.edges.length) :
      path.map (w.graph.edges[·]?) = (path.filterMap (w.graph.edges[·]?)).map some := by
    induction path with
    | nil => rfl
    | cons i path ih =>
      have hedge := getElem?_eq_getElem (h i mem_cons_self)
      rw [map_cons, filterMap_cons, hedge, ih fun j hj => h j (mem_cons_of_mem i hj)]
      rfl
  exact hall fun i hi => w.lt_length_of_mem_path hi

theorem keeps_strict_eq (s : Statement) :
    ScopeFilter.strict.keeps s = decide (s.position.file.toList <:+: s.scope.toList) := by
  rw [Bool.eq_iff_iff, decide_eq_true_iff]
  exact Text.occursIn_iff

/-- **Assumptions in the order of the path.** The statements of a linear witness can be
collected, under either filter, exactly if every edge of the path that states an assumption
with a scope tells its position. Otherwise the error is about the first edge that does not,
under both filters. The lenient filter gives what those edges state, in the order of the path,
and the strict one what is left of that if the scope has to name the file. -/
theorem LinearWitness.statements_in_path_order (w : LinearWitness) :
    w.path.map (w.graph.edges[·]?) = w.pathEdges.map some ∧
    (∀ f, (∃ all, w.statements f = .ok all) ↔
      ∀ e ∈ w.pathEdges, e.isScoped = true → ∃ position, e.LocatedAt position) ∧
    (∀ f err, w.statements f = .error err ↔ ∃ front e back fault, w.pathEdges = front ++ e :: back ∧
      (∀ d ∈ front, d.isScoped = true → ∃ position, d.LocatedAt position) ∧ e.isScoped = true ∧
      w.graph.Unlocated e fault ∧
      err = w.graph.error fault) ∧
    ∀ all, w.statements .lenient = .ok all →
      List.Forall₂ Edge.States (w.pathEdges.filter Edge.isScoped) all ∧
        w.statements .strict =
          .ok (all.filter fun s => s.position.file.toList <:+: s.scope.toList) := by
  refine ⟨w.map_path, fun f => ?_, fun f err => ?_, fun all hall => ?_⟩
  · exact (exists_congr fun all => mapError_eq_ok_iff).trans exists_collected_iff
  · unfold statements
    rw [mapError_eq_error_iff]
    constructor
    · rintro ⟨fault, hfault, rfl⟩
      obtain ⟨front, e, back, hsplit, hfront, hscoped, hunlocated⟩ :=
        collected_eq_error_iff.1 hfault
      exact ⟨front, e, back, fault, hsplit, hfront, hscoped, hunlocated, rfl⟩
    · rintro ⟨front, e, back, fault, hsplit, hfront, hscoped, hunlocated, rfl⟩
      exact ⟨fault, collected_eq_error_iff.2 ⟨front, e, back, hsplit, hfront, hscoped,
        hunlocated⟩, rfl⟩
  · have hlocated := exists_collected_iff.1 ⟨all, mapError_eq_ok_iff.1 hall⟩
    obtain ⟨stated, hstates, hcollected⟩ := collected_of_allLocated hlocated
    have hkept : stated.filter ScopeFilter.lenient.keeps = stated :=
      filter_eq_self.2 fun _ _ => rfl
    obtain rfl : stated = all := by
      have hlenient := hcollected w.graph .lenient []
      rw [hkept, mapError_eq_ok_iff.1 hall] at hlenient
      exact (Except.ok.inj hlenient).symm
    refine ⟨hstates, ?_⟩
    rw [statements, hcollected w.graph .strict [], funext keeps_strict_eq]
    rfl

end WitnessReplay.Witness
