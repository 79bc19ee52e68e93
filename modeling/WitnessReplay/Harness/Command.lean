import WitnessReplay.Harness.Synthesis
import WitnessReplay.Harness.Toolchain

/-!
# Commands

How a harness is compiled and run.
-/

namespace WitnessReplay.Harness

open Files

/-- A program with its arguments, to be started in a directory. -/
structure Command where
  program : String
  arguments : List String
  directory : Path
deriving DecidableEq, Repr

def Command.text (c : Command) : String :=
  " ".intercalate (c.program :: c.arguments)

def archive (workdir : Path) : Path :=
  workdir.join ⟨"Test.jar"⟩

/-- The command that compiles the harness in the working directory. The Java compiler finds the
program by itself, the Kotlin compiler is given all source files. -/
def compileCommand (fs : FileSystem) (language : Language) (tools : Toolchain) (workdir : Path) :
    Except HarnessError Command :=
  match language with
  | .java =>
    .ok ⟨tools.javac, ["-sourcepath", workdir.text, (harnessPaths workdir .java).driver.text],
      workdir⟩
  | .kotlin =>
    match fs.sources workdir Language.kotlin.extension with
    | .error cause => .error (.unlistedSources workdir cause)
    | .ok visits =>
      .ok ⟨tools.kotlinc, visits.map (·.path.text) ++ ["-include-runtime", "-d",
        (archive workdir).text], workdir⟩

def runCommand (language : Language) (tools : Toolchain) (workdir : Path) : Command :=
  match language with
  | .java => ⟨tools.java, ["-cp", workdir.text, "-ea", "Test"], workdir⟩
  | .kotlin => ⟨tools.java, ["-ea", "-jar", (archive workdir).text], workdir⟩

end WitnessReplay.Harness
