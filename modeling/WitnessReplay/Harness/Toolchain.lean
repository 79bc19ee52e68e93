/-!
# The tools that build and run a harness
-/

namespace WitnessReplay.Harness

structure Toolchain where
  /-- The Java compiler. -/
  javac : String := "javac"
  /-- The launcher for both languages. -/
  java : String := "java"
  /-- The Kotlin compiler. -/
  kotlinc : String := "kotlinc"
deriving DecidableEq, Repr

end WitnessReplay.Harness
