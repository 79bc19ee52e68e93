import WitnessReplay.Benchmark.EntryPoint
import WitnessReplay.Benchmark.Exploration
import WitnessReplay.Harness.Run
import WitnessReplay.Validation.Config
import WitnessReplay.Validation.Report
import WitnessReplay.Validation.Validator
import WitnessReplay.Witness.Loading

/-!
# The stages of a replay

What the stages do for a given configuration and working directory.
-/

namespace WitnessReplay.Validation

open Benchmark Files Harness Witness

/-- The machine on which a replay takes place, and the warnings it has given. -/
structure Surroundings where
  machine : Machine
  warnings : List Warning := []

def warn (warnings : List Warning) : Step Surroundings Unit :=
  modify fun s => { s with warnings := s.warnings ++ warnings }

def onMachine {ε α : Type} (task : Task ε α) (fault : ε → StageFault) : Step Surroundings α :=
  fun s =>
    let (result, machine) := task s.machine
    (result.mapError fault, { s with machine })

def checkWitness (language : Language) (path : Path) : Step Surroundings LinearWitness := do
  let graph ← onMachine (Task.inspect (Graph.load · path)) .witness
  let check := graph.checkAttributes language
  warn check.warnings
  match check.fault with
  | some fault => throw (.witness (graph.error fault))
  | none => ExceptT.mk (return (LinearWitness.ofGraph graph).mapError .witness)

def replay (c : Config) (workdir : Path) : Pipeline Surroundings where
  prepare := onMachine (.ofEdit (prepare c.language c.roots.all workdir)) .preparation
  checkWitness := checkWitness c.language c.witness
  resolveSites := onMachine (Task.inspect fun files =>
    Lookup.sites ⟨c.language, c.roots, files⟩) .resolution
  extractAssumptions witness :=
    ExceptT.mk (return (witness.assumptions c.language c.filter).mapError .witness)
  buildHarness values := do
    let _ ← onMachine (.ofEdit (synthesize c.templateDirectory c.language workdir values)) .harness
    onMachine (compile c.language c.toolchain workdir) .harness
  runHarness := onMachine (Harness.run c.language c.toolchain workdir) .harness

def Validator.report? (v : Validator) (c : Config) : Option Report :=
  v.verdict.map fun verdict =>
    { verdict
      language := c.language
      producer := v.producer
      inputs := (v.extraction.map (·.inputs)).getD [] }

end WitnessReplay.Validation
