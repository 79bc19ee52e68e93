import WitnessReplay.Harness.Verdict
import WitnessReplay.Validation.Error
import WitnessReplay.Witness.Extraction

/-!
# Validators

A validator goes through four operations in a fixed order and keeps what it finds out. Each
operation consists of one or two stages, whose beginning and end an observer is told. A stage
that fails, and an operation that is called out of order, makes the validator fail for good.

What the stages do is a parameter, the pipeline: they act on surroundings of any type and may fail.
-/

namespace WitnessReplay.Validation

open Harness Witness

/-- A validator: where it stands, and what it has found out. -/
structure Validator where
  state : State := .created
  witness : Option LinearWitness := none
  extraction : Option Extraction := none
  verdict : Option Verdict := none

def Validator.producer (v : Validator) : Option String :=
  v.witness.bind (·.producer)

/-- What a stage does to the surroundings, and what comes out of it. -/
abbrev Step (σ α : Type) := ExceptT StageFault (StateM σ) α

structure Pipeline (σ : Type) where
  prepare : Step σ Unit
  checkWitness : Step σ LinearWitness
  resolveSites : Step σ SiteMap
  extractAssumptions : LinearWitness → Step σ (List Assumption)
  buildHarness : List (Option String) → Step σ Unit
  runHarness : Step σ Verdict

/-- A validator at work: what the observer has been told, and the surroundings. -/
structure Session (σ : Type) where
  validator : Validator := {}
  events : List Event := []
  surroundings : σ

abbrev Operate (σ α : Type) := ExceptT ValidationError (StateM (Session σ)) α

namespace Operate

variable {σ α : Type}

def update (f : Validator → Validator) : Operate σ Unit :=
  modify fun s => { s with validator := f s.validator }

def fail (stage : Stage) (cause : Cause) : Operate σ α := do
  update ({ · with state := .failed stage })
  throw ⟨stage, cause⟩

def expect (operation : Operation) : Operate σ Unit := do
  let state := (← get).validator.state
  if state = operation.before then return ()
  else fail operation.stage (.outOfOrder operation state)

def tell (event : Event) : Operate σ Unit :=
  modify fun s => { s with events := s.events ++ [event] }

def perform (stage : Stage) (step : Validator → ExceptT Cause (StateM σ) α) : Operate σ α := do
  tell (.started stage)
  let s ← get
  match step s.validator s.surroundings with
  | (.ok a, surroundings) =>
    set { s with surroundings }
    tell (.succeeded stage)
    return a
  | (.error cause, surroundings) =>
    set { s with surroundings }
    tell (.failed stage)
    fail stage cause

def preprocess (p : Pipeline σ) : Operate σ Unit := do
  expect .preprocess
  perform .filePreprocessing fun _ => p.prepare.adapt .fault
  let witness ← perform .witnessPreprocessing fun _ => p.checkWitness.adapt .fault
  update ({ · with witness := some witness, state := .preprocessed })

def extract (p : Pipeline σ) : Operate σ Extraction := do
  expect .extract
  let sites ← perform .siteResolution fun _ => p.resolveSites.adapt .fault
  let assumptions ← perform .assumptionExtraction fun v =>
    match v.witness with
    | some witness => (p.extractAssumptions witness).adapt .fault
    | none => throw (.outOfOrder .extract v.state)
  let extraction := Extraction.aligned sites assumptions
  update ({ · with extraction := some extraction, state := .assumptionsExtracted })
  return extraction

def build (p : Pipeline σ) : Operate σ Unit := do
  expect .build
  perform .harnessConstruction fun v =>
    (p.buildHarness ((v.extraction.map (·.values)).getD [])).adapt .fault
  update ({ · with state := .harnessBuilt })

def run (p : Pipeline σ) : Operate σ Verdict := do
  expect .run
  let verdict ← perform .harnessExecution fun _ => p.runHarness.adapt .fault
  update ({ · with verdict := some verdict, state := .completed })
  return verdict

def buildAndRun (p : Pipeline σ) : Operate σ Verdict := do
  build p
  run p

def validate (p : Pipeline σ) : Operate σ Verdict := do
  preprocess p
  let _ ← extract p
  buildAndRun p

end Operate

end WitnessReplay.Validation
