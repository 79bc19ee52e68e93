import WitnessReplay.Harness.Verdict
import WitnessReplay.Json
import WitnessReplay.Witness.Extraction

/-!
# Reports

The inputs of a replay as a table, and the result of a validation as JSON.
-/

namespace WitnessReplay.Validation

open Harness Witness

def valueText (value : Option String) : String :=
  value.getD "null"

/-- A row of a table: position, value, type. -/
structure Row where
  position : String
  value : String
  type : String
deriving DecidableEq, Repr

def Row.header : Row := ⟨"Position", "Value", "Type"⟩

def Row.ofInput (i : Input) : Row :=
  ⟨i.position.text, valueText i.value, i.type⟩

def width (texts : List String) : Nat :=
  (texts.map String.length).foldl max 0

def padEnd (width : Nat) (s : String) : String :=
  s ++ String.ofList (List.replicate (width - s.length) ' ')

def Row.line (w₁ w₂ w₃ : Nat) (r : Row) : String :=
  padEnd w₁ r.position ++ "  " ++ padEnd w₂ r.value ++ "  " ++ padEnd w₃ r.type ++ "\n"

def Row.rule (w₁ w₂ w₃ : Nat) : Row :=
  let dashes (n : Nat) := String.ofList (List.replicate n '-')
  ⟨dashes w₁, dashes w₂, dashes w₃⟩

def table (inputs : List Input) : String :=
  let rows := inputs.map Row.ofInput
  let w₁ := width ((Row.header :: rows).map (·.position))
  let w₂ := width ((Row.header :: rows).map (·.value))
  let w₃ := width ((Row.header :: rows).map (·.type))
  String.join ((Row.header :: Row.rule w₁ w₂ w₃ :: rows).map (Row.line w₁ w₂ w₃))

structure Report where
  verdict : Verdict
  language : Language
  producer : Option String
  inputs : List Input
deriving DecidableEq, Repr

def inputJson (i : Input) : Json :=
  .object [("position", .string i.position.text), ("value", .ofOption i.value),
    ("type", .string i.type)]

def Report.json (r : Report) : Json :=
  .object
    [("schema_version", .number "1"),
     ("verdict", .string r.verdict.name),
     ("language", .string r.language.name),
     ("producer", .ofOption r.producer),
     ("assumptions", .array (r.inputs.map inputJson))]

def Report.text (r : Report) : String :=
  r.json.pretty

end WitnessReplay.Validation
