import WitnessReplay.Benchmark.Resolution
import WitnessReplay.Harness.Toolchain
import WitnessReplay.Json
import WitnessReplay.Witness.Assumption

/-!
# Configurations

What a validation needs to know apart from its working directory, and how it is read from JSON.
-/

namespace WitnessReplay.Validation

open Benchmark Files Harness Witness

structure Config where
  language : Language
  benchmark : Path
  packages : List Path := []
  witness : Path
  /-- Overrides the language's filter. -/
  scopeFilter : Option ScopeFilter := none
  /-- A directory with other templates for the harness. -/
  templateDirectory : Option Path := none
  toolchain : Toolchain := {}
deriving DecidableEq, Repr

def defaultFilter : Language → ScopeFilter
  | .java => .lenient
  | .kotlin => .strict

namespace Config

def filter (c : Config) : ScopeFilter :=
  c.scopeFilter.getD (defaultFilter c.language)

def roots (c : Config) : Roots :=
  ⟨c.benchmark, c.packages⟩

end Config

/-! ## Reading -/

def readString : Json → Option String
  | .string s => some s
  | _ => none

def readPath (j : Json) : Option Path :=
  (readString j).map (⟨·⟩)

def readOptional {α : Type} (read : Json → Option α) : Json → Option (Option α)
  | .null => some none
  | j => (read j).map some

/-- A name: as a string, or as the only member of an object with the value null. -/
def readName : Json → Option String
  | .string s => some s
  | .object [(name, .null)] => some name
  | _ => none

def readChoice {α : Type} (choices : List (String × α)) (j : Json) : Option α :=
  (readName j).bind (List.lookup · choices)

def readList {α : Type} (read : Json → Option α) : Json → Option (List α)
  | .array elements => elements.mapM read
  | _ => none

/-- A record's fields by name, where the record is an object or lists its fields in order. -/
def readFields (names : List String) : Json → Option (String → Option Json)
  | .object members => some (Json.member? (.object members))
  | .array elements =>
    if elements.length ≤ names.length then some (List.lookup · (names.zip elements)) else none
  | _ => none

def required {α : Type} (field : Option Json) (read : Json → Option α) : Option α :=
  field.bind read

def optional {α : Type} (field : Option Json) (default : α) (read : Json → Option α) : Option α :=
  match field with
  | some j => read j
  | none => some default

def languages : List (String × Language) :=
  [Language.java, .kotlin].map fun l => (l.name, l)

def filters : List (String × ScopeFilter) :=
  [ScopeFilter.lenient, .strict].map fun f => (f.name, f)

def readToolchain (j : Json) : Option Toolchain := do
  let field ← readFields ["javac", "java", "kotlinc"] j
  let javac ← required (field "javac") readString
  let java ← required (field "java") readString
  let kotlinc ← required (field "kotlinc") readString
  return { javac, java, kotlinc }

/-- The configuration that a JSON value describes; unknown members do not matter. -/
def Config.ofJson? (j : Json) : Option Config := do
  let field ← readFields
    ["language", "benchmark", "packages", "witness", "scope_filter", "template_dir", "toolchain"] j
  let language ← required (field "language") (readChoice languages)
  let benchmark ← required (field "benchmark") readPath
  let packages ← optional (field "packages") [] (readList readPath)
  let witness ← required (field "witness") readPath
  let scopeFilter ← optional (field "scope_filter") none (readOptional (readChoice filters))
  let templateDirectory ← optional (field "template_dir") none (readOptional readPath)
  let toolchain ← optional (field "toolchain") {} readToolchain
  return { language, benchmark, packages, witness, scopeFilter, templateDirectory, toolchain }

end WitnessReplay.Validation
