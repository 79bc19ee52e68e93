import WitnessReplay.CommandLine.Options
import WitnessReplay.Text.Terminal
import WitnessReplay.Validation.Replay

/-!
# Running a command line

The stages of a replay are carried out in the working directory. The exit code is 0 if they all
succeed, 1 if one fails, and 2 if the command line is refused.
-/

namespace WitnessReplay.CommandLine

open Files Harness Validation Witness

structure Result where
  exitCode : Nat
  stdout : String := ""
  stderr : String := ""
deriving DecidableEq, Repr

def stageMarks : List String :=
  ["[..]", "[OK]", "[FAIL]"]

def startsWith (start : String) (line : List Char) : Bool :=
  start.toList.isPrefixOf line

def Result.progress (r : Result) : List String :=
  (Text.lineTexts r.stderr).filter fun line => stageMarks.any (startsWith · line.toList)

/-- What is said about an error: the first line if the command line was refused, and all from
the diagnostic on if the run has failed. -/
def Result.errorText (r : Result) : String :=
  match r.exitCode with
  | 0 => ""
  | 1 => String.ofList ((Text.lines r.stderr.toList).dropWhile fun line =>
    !startsWith "Error: " line).flatten
  | _ => (Text.lineTexts r.stderr).headD ""

/-- A word with quotes around it, in which white space is written by its code. -/
def quotedTag (s : String) : String :=
  let escaped (c : Char) : List Char :=
    if c = ' ' || c.isAlpha then [c]
    else if c = '\t' then ['\\', 't']
    else if c = '\n' then ['\\', 'n']
    else if c = '\r' then ['\\', 'r']
    else "\\u\x7b".toList ++ Nat.toDigits 16 c.toNat ++ ['\x7d']
  String.ofList ('"' :: s.toList.flatMap escaped ++ ['"'])

def warningLine (c : Config) (w : Warning) : String :=
  let line := s!"WARN {w.message} witness={c.witness.text}"
  match w with
  | .otherLanguage declared => s!"{line} declared={quotedTag declared} selected={c.language.name}"
  | _ => line

/-- The lines that tell about an event. Where the output is data, only failures are reported. -/
def eventLines (format : Format) : Event → List String
  | .started stage => if format = .text then [s!"[..] {stage.activity}"] else []
  | .succeeded stage => if format = .text then [s!"[OK] {stage.activity}"] else []
  | .failed stage =>
    if format = .text then [s!"[FAIL] {stage.activity}"] else [s!"ERROR failed stage={stage.text}"]

/-- The lines that tell about a run. All warnings are about the witness, and are given while it
is checked. -/
def logLines (format : Format) (events : List Event) (warnings : List String) : List String :=
  events.flatMap fun e =>
    eventLines format e ++ if e = .started .witnessPreprocessing then warnings else []

/-- An error with what it is caused by, and with help and a code if there are any. -/
def diagnostic (message : String) (causes : List String) (footer : List String) : String :=
  Text.unlines (s!"Error: {message}" :: "    Diagnostic severity: error" ::
    causes.map ("    Caused by: " ++ ·) ++
    footer ++ [""])

/-- What is printed about a failed validation. The causes are shown only on request. -/
def failureText (stacktrace : Bool) (e : ValidationError) : String :=
  diagnostic e.message (if stacktrace then e.cause.messages else [])
    ["diagnostic help: retry using --stacktrace to see the full cause",
    "diagnostic code: polywit::validation"]

def tableLine (line : List Char) : String :=
  "  " ++ String.ofList (Text.dropEndWhile Text.isWhiteSpace line) ++ "\n"

def assumptionsText (x : Extraction) : String :=
  "Assumptions:\n" ++ String.join ((Text.lines (table x.inputs).toList).map tableLine)

def verdictText (v : Verdict) : String :=
  s!"polywit: {v.message}\n"

def shownAssumptions (o : Options) (v : Validator) : String :=
  match o.format, o.showAssumptions, v.extraction with
  | .text, true, some x => assumptionsText x
  | _, _, _ => ""

def shownVerdict (o : Options) (v : Validator) (verdict : Verdict) : String :=
  match o.format with
  | .text => verdictText verdict
  | .json => ((v.report? o.config).map fun report => report.text ++ "\n").getD ""

/-- The result of stages that have ended. The warnings are left in the surroundings. -/
def concluded {σ : Type} (o : Options) (warnings : σ → List String) :
    Except ValidationError Verdict × Session σ → Result
  | (outcome, session) =>
    let log := Text.unlines (logLines o.format session.events (warnings session.surroundings))
    let shown := shownAssumptions o session.validator
    match outcome with
    | .ok verdict => { exitCode := 0, stdout := shown ++ shownVerdict o session.validator verdict,
                       stderr := log }
    | .error e => { exitCode := 1, stdout := shown, stderr := log ++ failureText o.stacktrace e }

abbrev Stages := Config → Path → Pipeline Surroundings

def conductIn (stages : Stages) (o : Options) (workdir : Path) (m : Machine) : Result × Machine :=
  let ended := Operate.validate (stages o.config workdir) { surroundings := { machine := m } }
  (concluded o (fun s => s.warnings.map (warningLine o.config)) ended, ended.2.surroundings.machine)

def workdirFailure (message : String) : Result :=
  { exitCode := 1, stderr := diagnostic message [] [] }

/-- How temporary directories are made and removed. Whether a removal has failed is not
told. -/
structure Temporary where
  create : Edit String Path
  remove : Path → FileSystem → FileSystem

/-- Makes the working directory: the given one with all those above it, or a temporary
one. -/
def makeWorkdir (temporary : Temporary) (o : Options) : Edit String Path :=
  match o.workdir with
  | some workdir => do
    (Edit.createDirectories workdir).adapt (·.message)
    return workdir
  | none => temporary.create

def Options.removesWorkdir (o : Options) : Bool :=
  o.workdir.isNone && !o.keepWorkdir

/-- Carries out what options ask for. A temporary working directory is removed afterwards
unless it is to be kept. -/
def carryOut (stages : Stages) (temporary : Temporary) (o : Options) (m : Machine) :
    Result × Machine :=
  match makeWorkdir temporary o m.files with
  | (.error message, files) => (workdirFailure message, { m with files })
  | (.ok workdir, files) =>
    let (result, m') := conductIn stages o workdir { m with files }
    if o.removesWorkdir then
      (result, { m' with files := temporary.remove workdir m'.files })
    else (result, m')

def versionText : String := "polywit 0.3.0\n"

def helpText : String :=
  Text.unlines
    ["Execution-based validator for Java and Kotlin violation witnesses", "",
     "Usage: polywit [OPTIONS] <COMMAND>", "",
     "Commands:",
     "  java    Validate a witness for a Java benchmark",
     "  kotlin  Validate a witness for a Kotlin benchmark",
     "  help    Print this message or the help of the given subcommand(s)"]

/-- The result of a command line that is not run. There is no terminal to show an error on. -/
def Stop.result : Stop → Result
  | .error e => { exitCode := 2, stderr := Text.withoutControls e.message }
  | .help => { exitCode := 0, stdout := helpText }
  | .version => { exitCode := 0, stdout := versionText }

def runWith (stages : Stages) (temporary : Temporary) (words : List String) (m : Machine) :
    Result × Machine :=
  match read m.files words with
  | .ok options => carryOut stages temporary options m
  | .error stop => (stop.result, m)

def run (temporary : Temporary) (words : List String) (m : Machine) : Result × Machine :=
  runWith replay temporary words m

end WitnessReplay.CommandLine
