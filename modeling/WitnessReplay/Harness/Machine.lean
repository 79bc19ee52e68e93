import WitnessReplay.Harness.Command
import WitnessReplay.OrderedMap
import WitnessReplay.Text.Utf8

/-!
# Machines

A file system together with the programs that can be started. A program is known by what it
prints and how it ends; it does not change the files.
-/

namespace WitnessReplay.Harness

open Files

inductive Ending where
  | exit (code : Nat)
  | signal (number : Nat)
deriving DecidableEq, Repr

/-- The end of a program that exits with a code, of which one byte is left. -/
def Ending.ofCode (code : Int) : Ending :=
  .exit (code % 256).toNat

/-- The end of a program that sends itself a signal and then exits with a code. Some signals
are ignored. -/
def Ending.ofSignal (number : Nat) (code : Int) : Ending :=
  if number ∈ [0, 17, 18, 23, 28] then .ofCode code else .signal number

def signalNames : List String :=
  ["SIGHUP", "SIGINT", "SIGQUIT", "SIGILL", "SIGTRAP", "SIGABRT", "SIGBUS", "SIGFPE", "SIGKILL",
    "SIGUSR1", "SIGSEGV",
   "SIGUSR2", "SIGPIPE", "SIGALRM", "SIGTERM", "SIGSTKFLT", "SIGCHLD", "SIGCONT", "SIGSTOP",
   "SIGTSTP", "SIGTTIN", "SIGTTOU",
   "SIGURG", "SIGXCPU", "SIGXFSZ", "SIGVTALRM", "SIGPROF", "SIGWINCH", "SIGIO", "SIGPWR", "SIGSYS"]

def signalName? (number : Nat) : Option String :=
  if number = 0 then none else signalNames[number - 1]?

def Ending.text : Ending → String
  | exit code => s!"exit status: {code}"
  | signal number =>
    match signalName? number with
    | some name => s!"signal: {number} ({name})"
    | none => s!"signal: {number}"

structure Tool where
  ending : Ending := .exit 0
  stdout : ByteArray := .empty
  stderr : ByteArray := .empty

structure Output where
  ending : Ending
  stdout : String
  stderr : String
deriving DecidableEq, Repr

def Output.success (o : Output) : Bool :=
  o.ending = .exit 0

/-- What is left of a tool's run; bytes that are no text are replaced. -/
def Tool.output (t : Tool) : Output :=
  ⟨t.ending, Text.decodeLossy t.stdout, Text.decodeLossy t.stderr⟩

/-- A file system, the tools by their names, and the commands started so far, each as the
program and its arguments. -/
structure Machine where
  files : FileSystem
  tools : OrderedMap String Tool
  started : List (List String) := []

/-- A computation on a machine that may fail with an `ε`. What was changed before a failure
stays. -/
abbrev Task (ε α : Type) := ExceptT ε (StateM Machine) α

namespace Task

variable {ε α : Type}

def ofEdit (edit : Edit ε α) : Task ε α :=
  fun m =>
    let (result, files) := edit m.files
    (result, { m with files })

def inspect (f : FileSystem → Except ε α) : Task ε α :=
  .ofEdit (.inspect f)

end Task

def hasNul (s : String) : Bool :=
  s.toList.contains '\x00'

/-- The tool that a program's name stands for, seen from the directory at a route. A name
with a slash is a path, and no file can be executed. -/
def Machine.tool (m : Machine) (directory : Route) (program : String) :
    Except FileError Tool :=
  if program.toList.contains '/' then
    match m.files.locateFrom directory ⟨program⟩ with
    | .error cause => .error cause
    | .ok _ => .error .permissionDenied
  else if isTooLong program then .error .nameTooLong
  else
    match m.tools.get? program with
    | none => .error .notFound
    | some tool => .ok tool

/-- Starts a command: its directory has to exist, and its program has to be one of the tools. -/
def start (c : Command) : Task FileError Output :=
  fun m =>
    if (c.directory.text :: c.program :: c.arguments).any hasNul then (.error .nulInCommand, m)
    else
      match m.files.locate c.directory with
      | .error cause => (.error cause, m)
      | .ok directory =>
        match directory.entry, m.tool directory.route c.program with
        | .directory _ _, .ok tool =>
          (.ok tool.output, { m with started := m.started ++ [c.program :: c.arguments] })
        | .directory _ _, .error cause => (.error cause, m)
        | _, _ => (.error .notADirectory, m)

end WitnessReplay.Harness
