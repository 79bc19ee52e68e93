import WitnessReplay.Harness.Machine
import WitnessReplay.Harness.Verdict

/-!
# Compiling and running a harness
-/

namespace WitnessReplay.Harness

open Files

def compile (language : Language) (tools : Toolchain) (workdir : Path) :
    Task HarnessError Unit := do
  let command ← Task.inspect (compileCommand · language tools workdir)
  let output ← (start command).adapt (.compilerNotStarted command.program)
  if !output.success then throw (.compilationFailed output.ending.text output.stderr)

def run (language : Language) (tools : Toolchain) (workdir : Path) : Task HarnessError Verdict := do
  let command := runCommand language tools workdir
  let output ← (start command).adapt (.notStarted command.program)
  return classify .harness output.stdout output.stderr

end WitnessReplay.Harness
