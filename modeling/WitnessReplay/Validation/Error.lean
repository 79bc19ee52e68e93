import WitnessReplay.Benchmark.Preparation
import WitnessReplay.Benchmark.Resolution
import WitnessReplay.Harness.Error
import WitnessReplay.Validation.Stage
import WitnessReplay.Witness.Error

/-!
# Failures of a validation

A failure has a stage and a cause. A cause may have further causes, which are listed from the
outermost to the innermost.
-/

namespace WitnessReplay.Validation

open Benchmark Files Harness Witness

inductive Operation where
  | preprocess
  | extract
  | build
  | run
deriving DecidableEq, Repr

def Operation.text : Operation → String
  | preprocess => "preprocess"
  | extract => "extract assumptions"
  | build => "build the harness"
  | run => "run the harness"

def Operation.stage : Operation → Stage
  | preprocess => .filePreprocessing
  | extract => .siteResolution
  | build => .harnessConstruction
  | run => .harnessExecution

/-- Where a validator stands. -/
inductive State where
  | created
  | preprocessed
  | assumptionsExtracted
  | harnessBuilt
  | completed
  | failed (stage : Stage)
deriving DecidableEq, Repr

def State.text : State → String
  | created => "created"
  | preprocessed => "preprocessed"
  | assumptionsExtracted => "assumptions extracted"
  | harnessBuilt => "harness built"
  | completed => "completed"
  | failed stage => s!"failed during {stage.text}"

def Operation.before : Operation → State
  | preprocess => .created
  | extract => .preprocessed
  | build => .assumptionsExtracted
  | run => .harnessBuilt

inductive StageFault where
  | preparation (error : PreparationError)
  | witness (error : WitnessError)
  | resolution (error : ResolveError)
  | harness (error : HarnessError)
deriving DecidableEq, Repr

/-- Why an operation failed: a stage failed, or it was called in the wrong state. -/
inductive Cause where
  | fault (fault : StageFault)
  | outOfOrder (operation : Operation) (state : State)
deriving DecidableEq, Repr

inductive ErrorKind where
  | preprocessing
  | witnessFormat
  | witnessStructure
  | importResolution
  | parse
  | harnessConstruction
  | harnessExecution
  | invalidTransition
deriving DecidableEq, Repr

def walkSources (e : WalkError) : List String :=
  [e.message, e.cause.message]

def preparationSources : PreparationError → List String
  | .uncopied _ _ cause => [cause.message]
  | .unlisted _ cause => walkSources cause
  | .unchanged _ cause => [cause.message]
  | _ => []

def witnessSources (e : WitnessError) : List String :=
  match e.fault with
  | .unreadable cause => [cause.message]
  | .notXml => ["<xml>"]
  | .format _ => []
  | .structural fault => [fault.message]

def resolutionSources : ResolveError → List String
  | .unreadable _ cause => [cause.message]
  | .unlisted _ cause => walkSources cause
  | _ => []

def harnessSources : HarnessError → List String
  | .unreadTemplate _ cause => [cause.message]
  | .unwritten _ cause => [cause.message]
  | .unlistedSources _ cause => walkSources cause
  | .compilerNotStarted _ cause => [cause.message]
  | .notStarted _ cause => [cause.message]
  | _ => []

namespace StageFault

def message : StageFault → String
  | preparation error => error.message
  | witness error => error.message
  | resolution error => error.message
  | harness error => error.message

def sources : StageFault → List String
  | preparation error => preparationSources error
  | witness error => witnessSources error
  | resolution error => resolutionSources error
  | harness error => harnessSources error

def kind : StageFault → ErrorKind
  | preparation (.syntaxError _) => .parse
  | preparation _ => .preprocessing
  | witness error => if error.isFormat then .witnessFormat else .witnessStructure
  | resolution (.syntaxError _) => .parse
  | resolution _ => .importResolution
  | harness error => if error.isExecution then .harnessExecution else .harnessConstruction

end StageFault

namespace Cause

/-- The messages of a cause and of what is behind it, outermost first. -/
def messages : Cause → List String
  | fault f => f.message :: f.sources
  | outOfOrder operation state => [s!"cannot {operation.text} while the validator is {state.text}"]

def kind : Cause → ErrorKind
  | fault f => f.kind
  | outOfOrder _ _ => .invalidTransition

end Cause

structure ValidationError where
  stage : Stage
  cause : Cause
deriving DecidableEq, Repr

namespace ValidationError

def message (e : ValidationError) : String :=
  s!"polywit has encountered an issue during {e.stage.text}"

def kind (e : ValidationError) : ErrorKind :=
  e.cause.kind

def dropRepeats : List String → List String
  | a :: b :: rest => if a = b then dropRepeats (b :: rest) else a :: dropRepeats (b :: rest)
  | l => l

def chain (e : ValidationError) : List String :=
  dropRepeats (e.message :: e.cause.messages)

end ValidationError

end WitnessReplay.Validation
