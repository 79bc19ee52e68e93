import WitnessReplay.Benchmark.Provider
import WitnessReplay.Language

/-!
# Imports that are not followed

Imports of platform libraries and of the input provider lead out of the benchmark.
-/

namespace WitnessReplay.Benchmark

open Source

/-- Which imports lead out of the benchmark, and how the others are looked up. -/
structure ImportRules where
  /-- The first segments of the paths of platform libraries. -/
  platforms : List String
  /-- The packages in which the input provider may be. -/
  providerPackages : List String
  /-- Whether an import that names no type may name a member of a package. -/
  importsMembers : Bool
deriving DecidableEq, Repr

namespace ImportRules

def ofLanguage : Language → ImportRules
  | .java =>
    { platforms := ["java", "javax", "jdk", "sun"]
      providerPackages := ["org.sosy_lab.sv_benchmarks"]
      importsMembers := false }
  | .kotlin =>
    { platforms := ["java", "javax", "kotlin", "kotlinx"]
      providerPackages := ["org.polywit.benchmarks", "org.sosy_lab.sv_benchmarks"]
      importsMembers := true }

def isPlatform (rules : ImportRules) (i : Import) : Bool :=
  match i.segments with
  | first :: _ :: _ => rules.platforms.contains first
  | _ => false

def isProvider (rules : ImportRules) (i : Import) : Bool :=
  rules.providerPackages.any fun package =>
    i.path = s!"{package}.{provider}" || (i.wildcard && i.path = package)

def ignores (rules : ImportRules) (i : Import) : Bool :=
  rules.isProvider i || rules.isPlatform i

end ImportRules

end WitnessReplay.Benchmark
