import WitnessReplay.Files.Edit
import WitnessReplay.Harness.Error
import WitnessReplay.Harness.Literal
import WitnessReplay.Harness.Template.Java
import WitnessReplay.Harness.Template.Kotlin

/-!
# Writing a harness

A harness has two files: the driver, written as it is, and the oracle, in which the placeholder
line is replaced by the list of values. Other templates for both may be given in a directory.
-/

namespace WitnessReplay.Harness

open Files

/-- A file of a harness: its path in the working directory and its default template. -/
structure HarnessFile where
  path : String
  template : String
deriving DecidableEq, Repr

def driverFile : Language → HarnessFile
  | .java => ⟨"Test.java", Java.driver⟩
  | .kotlin => ⟨"Test.kt", Kotlin.driver⟩

def oracleFile : Language → HarnessFile
  | .java => ⟨"org/sosy_lab/sv_benchmarks/Verifier.java", Java.oracle⟩
  | .kotlin => ⟨"org/polywit/benchmarks/Verifier.kt", Kotlin.oracle⟩

def placeholder : Language → String
  | .java => "  static String[] assumptionList = \x7b\x7d;"
  | .kotlin => "    var assumptionList = emptyArray<String?>()"

def lineBody (line : List Char) : List Char :=
  Text.dropEndWhile (· == '\r') (Text.dropEndWhile (· == '\n') line)

/-- Copies a line, with its body replaced if it is the first one with the given body. The flag
tells whether that one has been found. -/
def substituteLine (body replacement : List Char) (written : Bool × List Char) (line : List Char) :
    Bool × List Char :=
  if !written.1 && lineBody line = body then
    (true, written.2 ++ replacement ++ line.drop body.length)
  else (written.1, written.2 ++ line)

def substitute (name template placeholder replacement : String) : Except HarnessError String :=
  let (found, text) :=
    (Text.lines template.toList).foldl (substituteLine placeholder.toList replacement.toList)
      (false, [])
  if found then .ok (String.ofList text) else .error (.missingPlaceholder name placeholder)

/-- The template of a file: the default one, or the file of the same name in the template
directory. -/
def template (fs : FileSystem) (directory : Option Path) (file : HarnessFile) :
    Except HarnessError String :=
  match directory with
  | none => .ok file.template
  | some d =>
    let path := d.join ⟨(Path.fileName? ⟨file.path⟩).getD ""⟩
    (fs.readText path).mapError (.unreadTemplate path)

structure HarnessTexts where
  driver : String
  oracle : String
deriving DecidableEq, Repr

def harnessTexts (fs : FileSystem) (directory : Option Path) (language : Language)
    (values : List (Option String)) :
    Except HarnessError HarnessTexts := do
  let driver ← template fs directory (driverFile language)
  let oracle ← template fs directory (oracleFile language)
  let oracle ← substitute (oracleFile language).path oracle (placeholder language)
    (listLine language values)
  return { driver, oracle }

structure HarnessPaths where
  driver : Path
  oracle : Path
deriving DecidableEq, Repr

def harnessPaths (workdir : Path) (language : Language) : HarnessPaths where
  driver := workdir.join ⟨(driverFile language).path⟩
  oracle := workdir.join ⟨(oracleFile language).path⟩

def writeText (path : Path) (text : String) : Edit HarnessError Unit :=
  (Edit.writeBelowNew path text.toUTF8).adapt (.unwritten path)

def synthesize (directory : Option Path) (language : Language) (workdir : Path)
    (values : List (Option String)) :
    Edit HarnessError HarnessPaths := do
  let texts ← Edit.inspect (harnessTexts · directory language values)
  let paths := harnessPaths workdir language
  writeText paths.driver texts.driver
  writeText paths.oracle texts.oracle
  return paths

end WitnessReplay.Harness
