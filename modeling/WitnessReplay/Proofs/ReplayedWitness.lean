import WitnessReplay.Proofs.RunResults

/-!
# What a replay comes to

The stages of a replay one by one: when each of them succeeds, and what it hands on to the next.
From what is known about stages of any kind it follows when a run of the command line succeeds,
and that its verdict is what the output of the harness says.
-/

namespace WitnessReplay.Witness

variable {g : Graph} {language : Language}

/-- A witness that can be replayed: it is one of a violation, of a program in a language with a
harness, as far as it says. -/
structure Graph.IsReplayable (g : Graph) : Prop where
  type : ∀ type, g.witnessType = some type → Text.trim type = "violation_witness"
  language : ∀ tag, g.sourceLanguage = some tag → ∃ l : Language, l.matchesTag tag = true

theorem any_matchesTag_iff {tag : String} :
    [Language.java, .kotlin].any (·.matchesTag tag) = true ↔
      ∃ l : Language, l.matchesTag tag = true := by
  rw [List.any_eq_true]
  constructor
  · rintro ⟨l, -, h⟩
    exact ⟨l, h⟩
  · rintro ⟨l, h⟩
    exact ⟨l, by cases l <;> simp, h⟩

theorem checkLanguage_fault_iff (g : Graph) (language : Language) :
    (g.checkLanguage language).fault = none ↔
      ∀ tag, g.sourceLanguage = some tag → ∃ l : Language, l.matchesTag tag = true := by
  rw [Graph.checkLanguage]
  cases g.sourceLanguage with
  | none => simp
  | some tag =>
    simp only [Option.some.injEq, forall_eq']
    rw [← any_matchesTag_iff]
    split
    · rename_i h
      exact ⟨fun _ => any_matchesTag_iff.2 ⟨language, h⟩, fun _ => rfl⟩
    · split
      · rename_i h
        exact ⟨fun _ => h, fun _ => rfl⟩
      · rename_i h
        exact ⟨nofun, fun h' => absurd h' h⟩

/-- The language that is selected does not matter for whether a witness is refused. -/
theorem checkAttributes_fault_iff :
    (g.checkAttributes language).fault = none ↔ g.IsReplayable := by
  have hlanguage := checkLanguage_fault_iff g language
  rw [Graph.checkAttributes]
  cases htype : g.witnessType with
  | none =>
    refine hlanguage.trans ⟨fun h => ⟨?_, h⟩, fun h => h.language⟩
    intro type h
    cases htype.symm.trans h
  | some type =>
    simp only
    split
    · rename_i htrim
      refine hlanguage.trans ⟨fun h => ⟨?_, h⟩, fun h => h.language⟩
      intro type' h
      cases htype.symm.trans h
      exact htrim
    · rename_i htrim
      exact ⟨nofun, fun h => absurd (h.type type htype) htrim⟩

end WitnessReplay.Witness

namespace WitnessReplay.Harness

open Files

variable {markers : Markers} {m m' : Machine} {c : Command} {output : Output}
  {language : Language} {tools : Toolchain} {workdir : Path} {v : Verdict}

/-- What an output says about a witness. That an assertion has failed counts more than that
the program has ended. -/
inductive Says (markers : Markers) (output : String) : Verdict → Prop where
  | correct (hfailed : markers.correct.toList <:+: output.toList) : Says markers output .correct
  | spurious (hnot : ¬markers.correct.toList <:+: output.toList)
      (hended : markers.spurious.toList <:+: output.toList) : Says markers output .spurious
  | unknown (hnot : ¬markers.correct.toList <:+: output.toList)
      (hnot' : ¬markers.spurious.toList <:+: output.toList) : Says markers output .unknown

/-- What is printed as errors, or otherwise if there are none. -/
def Tool.shown (t : Tool) : String :=
  if t.output.stderr = "" then t.output.stdout else t.output.stderr

theorem Says.unique {output : String} {v v' : Verdict} (h : Says markers output v)
    (h' : Says markers output v') : v = v' := by
  cases h <;> cases h' <;> first | rfl | contradiction

theorem classify_eq_iff (t : Tool) :
    classify markers t.output.stdout t.output.stderr = v ↔ Says markers t.shown v := by
  have hshown : (if t.output.stderr.isEmpty then t.output.stdout else t.output.stderr) =
      t.shown := by
    simp [Tool.shown]
  have hsays : Says markers t.shown
      (classify markers t.output.stdout t.output.stderr) := by
    rw [classify]
    simp only [hshown, Text.contains, Text.occursIn_iff]
    split
    · exact .correct ‹_›
    · split
      · exact .spurious ‹_› ‹_›
      · exact .unknown ‹_› ‹_›
  constructor
  · rintro rfl
    exact hsays
  · exact hsays.unique

/-- A command can be started, and the tool that is started by it. -/
structure Starts (files : FileSystem) (tools : OrderedMap String Tool) (c : Command)
    (t : Tool) : Prop where
  noNul : ∀ word ∈ c.directory.text :: c.program :: c.arguments, '\x00' ∉ word.toList
  directory : files.isDirectory c.directory = true
  name : '/' ∉ c.program.toList
  short : isTooLong c.program = false
  tool : tools.get? c.program = some t

def Machine.after (m : Machine) (c : Command) : Machine :=
  { m with started := m.started ++ [c.program :: c.arguments] }

theorem tool_eq_ok_iff {directory : Route} {program : String} {t : Tool} :
    m.tool directory program = .ok t ↔
      '/' ∉ program.toList ∧ isTooLong program = false ∧ m.tools.get? program = some t := by
  rw [Machine.tool]
  by_cases hname : '/' ∈ program.toList
  · rw [if_pos (by simpa using hname)]
    refine ⟨?_, fun h => absurd hname h.1⟩
    intro h
    split at h <;> cases h
  · rw [if_neg (by simpa using hname)]
    cases isTooLong program with
    | true => simp
    | false => cases m.tools.get? program <;> simp [hname]

theorem start_eq_ok_iff : start c m = (.ok output, m') ↔
    ∃ t, Starts m.files m.tools c t ∧ output = t.output ∧ m' = m.after c := by
  have hnul : (c.directory.text :: c.program :: c.arguments).any hasNul = true ↔
      ¬∀ word ∈ c.directory.text :: c.program :: c.arguments, '\x00' ∉ word.toList := by
    simp only [List.any_eq_true, hasNul, List.contains_iff_mem, not_forall, not_not, exists_prop]
  rw [start]
  by_cases hwords : (c.directory.text :: c.program :: c.arguments).any hasNul = true
  · rw [if_pos hwords]
    exact ⟨nofun, fun ⟨t, h, _⟩ => absurd h.noNul (hnul.1 hwords)⟩
  · have hwords' := not_not.1 (mt hnul.2 hwords)
    rw [if_neg hwords]
    constructor
    · intro h
      split at h
      · cases h
      · rename_i s hs
        split at h
        · rename_i linked inside t hentry htool
          cases h
          obtain ⟨hname, hshort, hget⟩ := tool_eq_ok_iff.1 htool
          refine ⟨t, ⟨hwords', ?_, hname, hshort, hget⟩, rfl, rfl⟩
          simp [FileSystem.isDirectory, FileSystem.lookup, hs, bind, Except.bind, hentry,
            Entry.node?, Entry.status, Status.node?, pure, Except.pure]
        · cases h
        · cases h
    · rintro ⟨t, h, rfl, rfl⟩
      obtain ⟨r, hr, hdir⟩ := FileSystem.isDirectory_iff.1 h.directory
      obtain ⟨s, hs, rfl⟩ := FileSystem.exists_locate hr
      have htool : m.tool s.route c.program = .ok t :=
        tool_eq_ok_iff.2 ⟨h.name, h.short, h.tool⟩
      have hentry : s.entry.node? = some .directory :=
        (get?_of_at? (FileSystem.locate_eq_ok hs).2).symm.trans hdir
      obtain ⟨trail, entry⟩ := s
      cases entry with
      | directory linked inside =>
        simp only [hs, htool]
        rfl
      | file linked access content => cases hentry
      | broken fillable => cases hentry

theorem task_inspect {ε α : Type} (f : FileSystem → Except ε α) (m : Machine) :
    Task.inspect f m = (f m.files, m) := rfl

theorem task_inspect_eq_ok_iff {ε α : Type} {f : FileSystem → Except ε α} {a : α} :
    Task.inspect f m = (.ok a, m') ↔ f m.files = .ok a ∧ m' = m := by
  rw [task_inspect, Prod.mk.injEq, eq_comm (a := m)]

theorem compile_eq_ok_iff : compile language tools workdir m = (.ok (), m') ↔
    ∃ command t, compileCommand m.files language tools workdir = .ok command ∧
      Starts m.files m.tools command t ∧ t.ending = .exit 0 ∧ m' = m.after command := by
  rw [compile]
  constructor
  · intro h
    obtain ⟨command, m₁, hinspect, hrest⟩ := exceptT_bind_eq_ok_iff.1 h
    obtain ⟨hcommand, rfl⟩ := task_inspect_eq_ok_iff.1 hinspect
    obtain ⟨output, m₂, hstart, hend⟩ := exceptT_bind_eq_ok_iff.1 hrest
    obtain ⟨t, hstarts, rfl, rfl⟩ := start_eq_ok_iff.1 (exceptT_adapt_eq_ok hstart)
    cases hsuccess : t.output.success with
    | false =>
      rw [hsuccess] at hend
      cases hend
    | true =>
      rw [hsuccess] at hend
      cases hend
      exact ⟨command, t, hcommand, hstarts, of_decide_eq_true hsuccess, rfl⟩
  · rintro ⟨command, t, hcommand, hstarts, hexit, rfl⟩
    have hsuccess : t.output.success = true := decide_eq_true hexit
    refine exceptT_bind_eq_ok_iff.2
      ⟨command, m, task_inspect_eq_ok_iff.2 ⟨hcommand, rfl⟩, ?_⟩
    have hstart := start_eq_ok_iff.2 ⟨t, hstarts, rfl, rfl⟩
    refine exceptT_bind_eq_ok_iff.2 ⟨t.output, _, exceptT_adapt hstart _, ?_⟩
    rw [hsuccess]
    rfl

theorem run_eq_ok_iff : run language tools workdir m = (.ok v, m') ↔
    ∃ t, Starts m.files m.tools (runCommand language tools workdir) t ∧
      Says .harness t.shown v ∧ m' = m.after (runCommand language tools workdir) := by
  rw [run]
  constructor
  · intro h
    obtain ⟨output, m₁, hstart, h⟩ := exceptT_bind_eq_ok_iff.1 h
    obtain ⟨t, hstarts, rfl, rfl⟩ := start_eq_ok_iff.1 (exceptT_adapt_eq_ok hstart)
    cases h
    exact ⟨t, hstarts, (classify_eq_iff t).1 rfl, rfl⟩
  · rintro ⟨t, hstarts, hsays, rfl⟩
    have hstart := start_eq_ok_iff.2 ⟨t, hstarts, rfl, rfl⟩
    refine exceptT_bind_eq_ok_iff.2 ⟨t.output, _, exceptT_adapt hstart _, ?_⟩
    rw [(classify_eq_iff t).2 hsays]
    rfl

end WitnessReplay.Harness

namespace WitnessReplay.Validation

open Benchmark Files Harness Witness

variable {c : Config} {workdir : Path} {m : Machine} {s s' : Surroundings}
  {w : LinearWitness} {x : Extraction} {v : Verdict}

/-- A replay from the preparation of the benchmark to the verdict. -/
inductive Replays (c : Config) (workdir : Path) (m : Machine) :
    LinearWitness → Extraction → Verdict → Prop where
  | stages {prepared written : FileSystem} {graph : Graph} {w : LinearWitness}
      {sites : SiteMap} {assumptions : List Assumption} {paths : HarnessPaths}
      {command : Command} {compiler launcher : Tool} {v : Verdict}
      (hprepare : prepare c.language c.roots.all workdir m.files = (.ok (), prepared))
      (hload : Graph.load prepared c.witness = .ok graph) (haccept : graph.IsReplayable)
      (hwitness : LinearWitness.ofGraph graph = .ok w)
      (hsites : Lookup.sites ⟨c.language, c.roots, prepared⟩ = .ok sites)
      (hassume : w.assumptions c.language c.filter = .ok assumptions)
      (hwrite : synthesize c.templateDirectory c.language workdir
        (Extraction.aligned sites assumptions).values prepared = (.ok paths, written))
      (hcommand : compileCommand written c.language c.toolchain workdir = .ok command)
      (hcompile : Starts written m.tools command compiler) (hexit : compiler.ending = .exit 0)
      (hrun : Starts written m.tools (runCommand c.language c.toolchain workdir) launcher)
      (hverdict : Says .harness launcher.shown v) :
      Replays c workdir m w (.aligned sites assumptions) v

section Stages

variable {ε α : Type} {a : α}

theorem onMachine_eq_ok_iff {task : Task ε α} {fault : ε → StageFault} :
    onMachine task fault s = (.ok a, s') ↔
      ∃ m, task s.machine = (.ok a, m) ∧ s' = { s with machine := m } := by
  constructor
  · intro h
    rcases htask : task s.machine with ⟨result, m⟩
    rw [onMachine, htask] at h
    cases result with
    | error e => cases h
    | ok b =>
      cases h
      exact ⟨m, rfl, rfl⟩
  · rintro ⟨m, h, rfl⟩
    rw [onMachine, h]
    rfl

theorem onMachine_ofEdit_eq_ok_iff {edit : Edit ε α} {fault : ε → StageFault} :
    onMachine (.ofEdit edit) fault s = (.ok a, s') ↔
      ∃ files, edit s.machine.files = (.ok a, files) ∧
        s' = { s with machine := { s.machine with files } } := by
  rw [onMachine_eq_ok_iff]
  constructor
  · rintro ⟨m, h, rfl⟩
    rcases hedit : edit s.machine.files with ⟨result, files⟩
    rw [Task.ofEdit, hedit] at h
    cases h
    exact ⟨files, rfl, rfl⟩
  · rintro ⟨files, h, rfl⟩
    refine ⟨_, ?_, rfl⟩
    rw [Task.ofEdit, h]

theorem onMachine_inspect_eq_ok_iff {f : FileSystem → Except ε α} {fault : ε → StageFault} :
    onMachine (Task.inspect f) fault s = (.ok a, s') ↔
      f s.machine.files = .ok a ∧ s' = s := by
  rw [onMachine_eq_ok_iff]
  simp only [task_inspect_eq_ok_iff]
  constructor
  · rintro ⟨m, ⟨h, rfl⟩, rfl⟩
    exact ⟨h, rfl⟩
  · rintro ⟨h, rfl⟩
    exact ⟨_, ⟨h, rfl⟩, rfl⟩

theorem exceptT_mk_eq_ok_iff {σ ε ε' α : Type} {result : Except ε α} {g : ε → ε'} {a : α}
    {s s' : σ} : (ExceptT.mk (return result.mapError g) : ExceptT ε' (StateM σ) α) s =
      (.ok a, s') ↔ result = .ok a ∧ s' = s := by
  constructor
  · intro h
    cases result with
    | error e => cases h
    | ok b =>
      cases h
      exact ⟨rfl, rfl⟩
  · rintro ⟨rfl, rfl⟩
    rfl

/-- The second stage accepts the witnesses that can be replayed and are linear, and leaves the
warnings about them. -/
theorem checkWitness_eq_ok_iff : (replay c workdir).checkWitness s = (.ok w, s') ↔
    ∃ graph, Graph.load s.machine.files c.witness = .ok graph ∧ graph.IsReplayable ∧
      LinearWitness.ofGraph graph = .ok w ∧
      s' = { s with warnings := s.warnings ++ (graph.checkAttributes c.language).warnings } := by
  show checkWitness c.language c.witness s = _ ↔ _
  rw [checkWitness, exceptT_bind_eq_ok_iff]
  constructor
  · rintro ⟨graph, t, hinspect, hrest⟩
    obtain ⟨hload, rfl⟩ := onMachine_inspect_eq_ok_iff.1 hinspect
    obtain ⟨⟨⟩, t', hwarn, hend⟩ := exceptT_bind_eq_ok_iff.1 hrest
    cases hwarn
    cases hfault : (graph.checkAttributes c.language).fault with
    | some fault =>
      rw [hfault] at hend
      cases hend
    | none =>
      rw [hfault] at hend
      obtain ⟨hwitness, rfl⟩ := exceptT_mk_eq_ok_iff.1 hend
      exact ⟨graph, hload, checkAttributes_fault_iff.1 hfault, hwitness, rfl⟩
  · rintro ⟨graph, hload, haccept, hwitness, rfl⟩
    refine ⟨graph, s, onMachine_inspect_eq_ok_iff.2 ⟨hload, rfl⟩, ?_⟩
    refine exceptT_bind_eq_ok_iff.2 ⟨(), _, rfl, ?_⟩
    rw [checkAttributes_fault_iff.2 haccept, hwitness]
    rfl

theorem prepare_replay_eq_ok_iff : (replay c workdir).prepare s = (.ok (), s') ↔
    ∃ files, prepare c.language c.roots.all workdir s.machine.files = (.ok (), files) ∧
      s' = { s with machine := { s.machine with files } } := by
  show onMachine (.ofEdit (prepare c.language c.roots.all workdir)) _ s = _ ↔ _
  rw [onMachine_ofEdit_eq_ok_iff]

theorem resolveSites_eq_ok_iff {sites : SiteMap} :
    (replay c workdir).resolveSites s = (.ok sites, s') ↔
      Lookup.sites ⟨c.language, c.roots, s.machine.files⟩ = .ok sites ∧ s' = s := by
  show onMachine (Task.inspect fun files => Lookup.sites ⟨c.language, c.roots, files⟩) _ s = _ ↔ _
  rw [onMachine_inspect_eq_ok_iff]

theorem extractAssumptions_eq_ok_iff {assumptions : List Assumption} :
    (replay c workdir).extractAssumptions w s = (.ok assumptions, s') ↔
      w.assumptions c.language c.filter = .ok assumptions ∧ s' = s :=
  exceptT_mk_eq_ok_iff

theorem buildHarness_eq_ok_iff {values : List (Option String)} :
    (replay c workdir).buildHarness values s = (.ok (), s') ↔
      ∃ paths written command compiler,
        synthesize c.templateDirectory c.language workdir values s.machine.files =
          (.ok paths, written) ∧
        compileCommand written c.language c.toolchain workdir = .ok command ∧
        Starts written s.machine.tools command compiler ∧ compiler.ending = .exit 0 ∧
        s' = { s with machine := { s.machine with files := written }.after command } := by
  constructor
  · intro h
    obtain ⟨paths, t, hfirst, hsecond⟩ := exceptT_bind_eq_ok_iff.1 h
    obtain ⟨written, hwrite, rfl⟩ := onMachine_ofEdit_eq_ok_iff.1 hfirst
    obtain ⟨m, hcompile, rfl⟩ := onMachine_eq_ok_iff.1 hsecond
    obtain ⟨command, compiler, hcommand, hstarts, hexit, rfl⟩ := compile_eq_ok_iff.1 hcompile
    exact ⟨paths, written, command, compiler, hwrite, hcommand, hstarts, hexit, rfl⟩
  · rintro ⟨paths, written, command, compiler, hwrite, hcommand, hstarts, hexit, rfl⟩
    refine exceptT_bind_eq_ok_iff.2
      ⟨paths, _, onMachine_ofEdit_eq_ok_iff.2 ⟨written, hwrite, rfl⟩, ?_⟩
    exact onMachine_eq_ok_iff.2
      ⟨_, compile_eq_ok_iff.2 ⟨command, compiler, hcommand, hstarts, hexit, rfl⟩, rfl⟩

theorem runHarness_eq_ok_iff : (replay c workdir).runHarness s = (.ok v, s') ↔
    ∃ launcher, Starts s.machine.files s.machine.tools
        (runCommand c.language c.toolchain workdir) launcher ∧
      Says .harness launcher.shown v ∧
      s' = { s with machine := s.machine.after (runCommand c.language c.toolchain workdir) } := by
  show onMachine (Harness.run c.language c.toolchain workdir) _ s = _ ↔ _
  constructor
  · intro h
    obtain ⟨m, hrun, rfl⟩ := onMachine_eq_ok_iff.1 h
    obtain ⟨launcher, hstarts, hverdict, rfl⟩ := run_eq_ok_iff.1 hrun
    exact ⟨launcher, hstarts, hverdict, rfl⟩
  · rintro ⟨launcher, hstarts, hverdict, rfl⟩
    exact onMachine_eq_ok_iff.2 ⟨_, run_eq_ok_iff.2 ⟨launcher, hstarts, hverdict, rfl⟩, rfl⟩

end Stages

theorem completes_replay_iff :
    (∃ t, (replay c workdir).Completes { machine := m } w x v t) ↔
      Replays c workdir m w x v := by
  constructor
  · rintro ⟨t, s₄, s₅, ⟨s₂, s₃, sites, assumptions, ⟨s₁, hfirst, hsecond⟩, hthird, hfourth,
      rfl⟩, hfifth, hsixth⟩
    obtain ⟨prepared, hprepare, rfl⟩ := prepare_replay_eq_ok_iff.1 hfirst
    obtain ⟨graph, hload, haccept, hwitness, rfl⟩ := checkWitness_eq_ok_iff.1 hsecond
    obtain ⟨hsites, rfl⟩ := resolveSites_eq_ok_iff.1 hthird
    obtain ⟨hassume, rfl⟩ := extractAssumptions_eq_ok_iff.1 hfourth
    obtain ⟨paths, written, command, compiler, hwrite, hcommand, hcompile, hexit, rfl⟩ :=
      buildHarness_eq_ok_iff.1 hfifth
    obtain ⟨launcher, hrun, hverdict, -⟩ := runHarness_eq_ok_iff.1 hsixth
    exact .stages hprepare hload haccept hwitness hsites hassume hwrite hcommand hcompile hexit
      hrun hverdict
  · rintro ⟨hprepare, hload, haccept, hwitness, hsites, hassume, hwrite, hcommand, hcompile,
      hexit, hrun, hverdict⟩
    exact ⟨_, _, _, ⟨_, _, _, _, ⟨_, prepare_replay_eq_ok_iff.2 ⟨_, hprepare, rfl⟩,
        checkWitness_eq_ok_iff.2 ⟨_, hload, haccept, hwitness, rfl⟩⟩,
        resolveSites_eq_ok_iff.2 ⟨hsites, rfl⟩,
        extractAssumptions_eq_ok_iff.2 ⟨hassume, rfl⟩, rfl⟩,
      buildHarness_eq_ok_iff.2 ⟨_, _, _, _, hwrite, hcommand, hcompile, hexit, rfl⟩,
      runHarness_eq_ok_iff.2 ⟨_, hrun, hverdict, rfl⟩⟩

end WitnessReplay.Validation

namespace WitnessReplay.CommandLine

open Files Harness Validation Witness

variable {temporary : Temporary} {o : Options} {m : Machine} {w : LinearWitness}
  {x : Extraction} {v : Verdict}

theorem completed_replay_iff : Completed replay temporary o m w x v ↔
    ∃ workdir files, makeWorkdir temporary o m.files = (.ok workdir, files) ∧
      Replays o.config workdir { m with files } w x v := by
  constructor
  · rintro ⟨workdir, m', t, hbegun, hcompletes⟩
    obtain ⟨files, hmade, rfl⟩ := begun?_eq_some_iff.1 hbegun
    exact ⟨workdir, files, hmade, completes_replay_iff.1 ⟨t, hcompletes⟩⟩
  · rintro ⟨workdir, files, hmade, hreplays⟩
    obtain ⟨t, hcompletes⟩ := completes_replay_iff.2 hreplays
    exact ⟨workdir, _, t, begun?_eq_some_iff.2 ⟨files, hmade, rfl⟩, hcompletes⟩

/-- **A run succeeds exactly if the witness is replayed**, and then it reports the verdict that
the output of the harness gives. -/
theorem run_reports_replay (temporary : Temporary) {words : List String}
    (hread : read m.files words = .ok o) :
    let result := (run temporary words m).1
    (result.exitCode = 0 ↔ ∃ workdir files w x v,
      makeWorkdir temporary o m.files = (.ok workdir, files) ∧
        Replays o.config workdir { m with files } w x v) ∧
    ∀ workdir files w x v, makeWorkdir temporary o m.files = (.ok workdir, files) →
      Replays o.config workdir { m with files } w x v →
        (o.format = .text → ∃ table, result.stdout = table ++ verdictText v) ∧
        (o.format = .json → result.stdout =
          Report.text ⟨v, o.config.language, w.producer, x.inputs⟩ ++ "\n") := by
  intro result
  have haccount : Account replay temporary o m result := by
    have hrun : run temporary words m = carryOut replay temporary o m := by
      rw [run, runWith, hread]
    show Account replay temporary o m (run temporary words m).1
    rw [hrun]
    exact account_carryOut replay temporary o m
  refine ⟨?_, ?_⟩
  · rw [haccount.exitCode_eq_zero_iff]
    constructor
    · rintro ⟨w, x, v, h⟩
      obtain ⟨workdir, files, hmade, hreplays⟩ := completed_replay_iff.1 h
      exact ⟨workdir, files, w, x, v, hmade, hreplays⟩
    · rintro ⟨workdir, files, w, x, v, hmade, hreplays⟩
      exact ⟨w, x, v, completed_replay_iff.2 ⟨workdir, files, hmade, hreplays⟩⟩
  · intro workdir files w x v hmade hreplays
    have hcompleted := completed_replay_iff.2 ⟨workdir, files, hmade, hreplays⟩
    refine ⟨?_, ?_⟩
    · intro hformat
      obtain ⟨table, -, hstdout⟩ := haccount.text_of_completed hformat w x v hcompleted
      exact ⟨table, hstdout⟩
    · intro hformat
      exact (haccount.json_of_completed hformat w x v hcompleted).1

end WitnessReplay.CommandLine
