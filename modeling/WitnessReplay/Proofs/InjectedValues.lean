import WitnessReplay.Proofs.OracleText
import WitnessReplay.Proofs.PathAssumptions
import WitnessReplay.Proofs.ValueList
import WitnessReplay.Witness.Extraction

/-!
# The values that a harness hands out

A value goes from an edge of a witness to a line of the oracle through a walk along the path,
the filter for scopes, the grammar for values, the alignment with the input sites, and the list
that is written. Each of these only drops values. What is left is what a plain walk along the
path keeps, and it is left in the order of the path.
-/

namespace WitnessReplay.Witness

open Files Harness

/-- A strict filter wants the scope of an assumption to name the file that the assumption comes
from. -/
def ScopeFilter.Admits (f : ScopeFilter) (scope file : String) : Prop :=
  f = .strict → Text.contains scope file

instance (f : ScopeFilter) (scope file : String) : Decidable (f.Admits scope file) :=
  inferInstanceAs (Decidable (_ → _))

/-- The input that an edge assumes: the edge states an assumption with a scope that the filter
admits, the statement has a value, and the program asks for an input at the edge's position. -/
def Graph.assumedInput? (g : Graph) (grammar : ValueGrammar) (f : ScopeFilter) (sites : SiteMap)
    (e : Edge) :
    Option Input := do
  let statement ← e.data.get? "assumption"
  let scope ← e.data.get? "assumption.scope"
  let position ← (g.edgePosition e).toOption
  guard (f.Admits scope position.file)
  let value ← grammar.value? statement
  let type ← sites.get? position
  return { position, value, type }

variable {g : Graph} {grammar : ValueGrammar} {f : ScopeFilter} {sites : SiteMap} {e : Edge}

/-- The inputs that collected statements lead to, one stage behind the other. -/
def inputsOf (grammar : ValueGrammar) (sites : SiteMap) (statements : List Statement) :
    List Input :=
  (Extraction.aligned sites (statements.filterMap (Statement.assumption? grammar))).inputs

theorem inputsOf_append (statements statements' : List Statement) :
    inputsOf grammar sites (statements ++ statements') =
      inputsOf grammar sites statements ++ inputsOf grammar sites statements' := by
  simp [inputsOf, Extraction.aligned, Extraction.inputs, retained]

theorem inputsOf_singleton (position : Position) (text scope : String) :
    inputsOf grammar sites [⟨position, text, scope⟩] =
      match grammar.value? text, sites.get? position with
      | some value, some type => [⟨position, value, type⟩]
      | _, _ => [] := by
  unfold inputsOf
  cases hvalue : grammar.value? text <;> cases hsite : sites.get? position <;>
    simp [Statement.assumption?, hvalue, Extraction.aligned, Extraction.inputs, retained,
      OrderedMap.contains, hsite]

theorem keeps_iff {position : Position} {text scope : String} :
    f.keeps ⟨position, text, scope⟩ = true ↔ f.Admits scope position.file := by
  cases f <;> simp [ScopeFilter.keeps, ScopeFilter.Admits]

/-- The stages do to what one edge adds to the statements what the plain walk does to the edge. -/
theorem inputsOf_collect {collected collected' : List Statement}
    (h : g.collect f collected e = .ok collected') :
    inputsOf grammar sites collected' =
      inputsOf grammar sites collected ++ (g.assumedInput? grammar f sites e).toList := by
  unfold Graph.collect at h
  unfold Graph.assumedInput?
  cases hstatement : e.data.get? "assumption" with
  | none =>
    rw [hstatement] at h
    cases h
    exact (List.append_nil _).symm
  | some statement =>
    cases hscope : e.data.get? "assumption.scope" with
    | none =>
      rw [hstatement, hscope] at h
      cases h
      exact (List.append_nil _).symm
    | some scope =>
      rw [hstatement, hscope] at h
      obtain ⟨position, hposition, h⟩ := bind_eq_ok_iff.1 h
      cases h
      rw [hposition]
      by_cases hadmits : f.Admits scope position.file
      · rw [if_pos (keeps_iff.2 hadmits), inputsOf_append, inputsOf_singleton]
        cases hvalue : grammar.value? statement <;> cases hsite : sites.get? position <;>
          simp [Except.toOption, guard, hadmits, hvalue, hsite]
      · rw [if_neg (mt keeps_iff.1 hadmits)]
        simp [Except.toOption, guard, hadmits]

theorem inputsOf_collected {edges : List Edge} {collected statements : List Statement}
    (h : edges.foldlM (g.collect f) collected = .ok statements) :
    inputsOf grammar sites statements =
      inputsOf grammar sites collected ++ edges.filterMap (g.assumedInput? grammar f sites) := by
  induction edges generalizing collected with
  | nil =>
    cases h
    exact (List.append_nil _).symm
  | cons e rest ih =>
    rw [List.foldlM_cons] at h
    obtain ⟨collected', he, hrest⟩ := bind_eq_ok_iff.1 h
    rw [ih hrest, inputsOf_collect he, List.append_assoc, List.filterMap_cons]
    cases g.assumedInput? grammar f sites e <;> rfl

theorem LinearWitness.inputs_eq {w : LinearWitness} {language : Language}
    {assumptions : List Assumption}
    (h : w.assumptions language f = .ok assumptions) (sites : SiteMap) :
    (Extraction.aligned sites assumptions).inputs =
      w.pathEdges.filterMap (w.graph.assumedInput? (.select language w.producer) f sites) := by
  obtain ⟨statements, hstatements, rfl⟩ := map_eq_ok_iff.1 h
  exact inputsOf_collected (mapError_eq_ok_iff.1 hstatements)

theorem values_eq_map_inputs (assumptions : List Assumption) :
    (Extraction.aligned sites assumptions).values =
      (Extraction.aligned sites assumptions).inputs.map (·.value) := by
  simp [Extraction.aligned, Extraction.inputs, align]

theorem LinearWitness.graph_of_ofGraph {w : LinearWitness} (h : LinearWitness.ofGraph g = .ok w) :
    w.graph = g := by
  unfold LinearWitness.ofGraph at h
  split at h
  · cases h
    rfl
  · cases h

/-- The edges of the only simple path from the only entry node to the only violation node, in
the order of the path. -/
def Graph.IsViolationPath (g : Graph) (edges : List Edge) : Prop :=
  ∃ entry goal path, g.IsOnlyNode (·.isEntry) entry ∧ g.IsOnlyNode (·.isViolation) goal ∧
    g.SimplePath entry path goal ∧
    (∀ other, g.SimplePath entry other goal → other = path) ∧
    path.map (g.edges[·]?) = edges.map some

theorem LinearWitness.isViolationPath {w : LinearWitness} {text origin : String}
    (hread : Graph.ofText text origin = .ok w.graph) : w.graph.IsViolationPath w.pathEdges := by
  have hrange := fun e he => (endsInRange_ofText hread e he).2
  have hlinearity := Graph.linearity_linearPath hrange
  rw [w.isLinear] at hlinearity
  cases hlinearity with
  | @linear entry goal path hentry hgoal hpath honly =>
    exact ⟨entry, goal, w.path, hentry, hgoal, hpath, honly, w.map_path⟩

/-- **The values that reach the harness.** The oracle file is the template with its placeholder
line replaced by a list, and that list reads back as the values that the edges of the path
assume, in the order of the path. The inputs that are shown are the same ones. -/
theorem oracle_declares_assumed_values {text origin : String} {w : LinearWitness}
    {language : Language}
    {assumptions : List Assumption} {directory : Option Path} {workdir : Path}
    {fs fs' : FileSystem} {paths : HarnessPaths}
    (hread : Graph.ofText text origin = .ok g) (hlinear : LinearWitness.ofGraph g = .ok w)
    (hassume : w.assumptions language f = .ok assumptions)
    (hsynthesize : synthesize directory language workdir
    (Extraction.aligned sites assumptions).values fs = (.ok paths, fs')) :
    ∃ edges inputs, g.IsViolationPath edges ∧
      inputs = edges.filterMap (g.assumedInput? (.select language g.producer) f sites) ∧
      (Extraction.aligned sites assumptions).inputs = inputs ∧
      ∃ original oracle line : String, template fs directory (oracleFile language) = .ok original ∧
        ReplacesLine (placeholder language).toList line.toList original.toList oracle.toList ∧
        Declares language line (inputs.map (·.value)) ∧
        paths.oracle = workdir.join ⟨(oracleFile language).path⟩ ∧
        fs'.lookup paths.oracle = .ok (.file oracle.toUTF8) := by
  obtain rfl := LinearWitness.graph_of_ofGraph hlinear
  have hinputs := w.inputs_eq hassume sites
  obtain ⟨original, oracle, horiginal, hreplaces, hpath, hfile⟩ := oracle_of_synthesize hsynthesize
  refine ⟨w.pathEdges, _, w.isViolationPath hread, rfl, hinputs, original, oracle, _, horiginal,
    hreplaces, ?_, hpath, hfile⟩
  have hvalues : (Extraction.aligned sites assumptions).values = _ :=
    (values_eq_map_inputs _).trans (congrArg _ hinputs)
  rw [hvalues]
  exact declares_listLine language _

def dollarDocument : List Char :=
  "<graphml><graph>".toList ++ "<node id='a'><data key='isEntryNode'>1</data></node>".toList ++
  "<node id='c'><data key='isViolationNode'>1</data></node>".toList ++
  "<edge source='a' target='b'>".toList ++
  "<data key='assumption'>x = 1</data>".toList ++
  "<data key='assumption.scope'>Main</data>".toList ++
  "<data key='originFileName'>Main.kt</data>".toList ++
  "<data key='startline'>2</data></edge>".toList ++
  "<edge source='b' target='c'>".toList ++ "<data key='assumption'>s = $\\</data>".toList ++
  "<data key='assumption.scope'>Main</data>".toList ++
  "<data key='originFileName'>Main.kt</data>".toList ++
  "<data key='startline'>7</data></edge>".toList ++ "</graph></graphml>".toList

def shortTemplates : FileSystem :=
  ((FileSystem.empty.put ["t"] .directory).put ["t", "Test.kt"] (.file .empty)).put ["t",
    "Verifier.kt"]
    (.file (placeholder .kotlin).toUTF8)

theorem synthesize_shortTemplates :
    (synthesize (some ⟨"t"⟩) .kotlin ⟨"work"⟩ [some "$\\"] shortTemplates).1 =
    .ok (harnessPaths ⟨"work"⟩ .kotlin) := by
  decide +kernel

def stringSite : SiteMap :=
  OrderedMap.empty.insert ⟨"Main", 7⟩ "String"

theorem oracle_declares_dollar :
    ∃ g w assumptions paths fs', Graph.ofText (.ofList dollarDocument) "dollar" = .ok g ∧
      LinearWitness.ofGraph g = .ok w ∧ w.assumptions .kotlin .strict = .ok assumptions ∧
      synthesize (some ⟨"t"⟩) .kotlin ⟨"work"⟩ (Extraction.aligned stringSite assumptions).values
      shortTemplates =
        (.ok paths, fs') ∧
      ∃ oracle line : String, fs'.lookup paths.oracle = .ok (.file oracle.toUTF8) ∧
        Declares .kotlin line [some "$\\"] := by
  have heval : (rootOf? dollarDocument).map (fun root =>
      (Graph.ofDocument "dollar" root).map fun g =>
        LinearWitness.ofGraph g >>= (·.assumptions .kotlin .strict)) =
          some (.ok (.ok [⟨⟨"Main", 2⟩, some "1"⟩, ⟨⟨"Main", 7⟩, some "$\\"⟩])) := by
    decide +kernel
  obtain ⟨root, hroot, heval⟩ := Option.map_eq_some_iff.1 heval
  obtain ⟨g, hdoc, heval⟩ := map_eq_ok_iff.1 heval
  obtain ⟨w, hlinear, hassume⟩ := bind_eq_ok_iff.1 heval
  have hread := ofText_eq_ok_iff.2 ⟨root, (parse?_sanitize_ofList dollarDocument).trans hroot, hdoc⟩
  -- only the second assumption is at a site
  have hvalues : (Extraction.aligned stringSite
      [⟨⟨"Main", 2⟩, some "1"⟩, ⟨⟨"Main", 7⟩, some "$\\"⟩]).values = [some "$\\"] := by decide
  have hpaths := synthesize_shortTemplates
  rcases hrun : synthesize (some ⟨"t"⟩) .kotlin ⟨"work"⟩ [some "$\\"] shortTemplates with ⟨result,
    fs'⟩
  rw [hrun] at hpaths
  subst hpaths
  rw [← hvalues] at hrun
  obtain ⟨edges, inputs, -, -, hinputs, original, oracle, line, -, -, hdeclares, -, hfile⟩ :=
    oracle_declares_assumed_values hread hlinear hassume hrun
  rw [← hinputs, ← values_eq_map_inputs, hvalues] at hdeclares
  exact ⟨g, w, _, _, fs', hread, hlinear, hassume, hrun, oracle, line, hfile, hdeclares⟩

end WitnessReplay.Witness
