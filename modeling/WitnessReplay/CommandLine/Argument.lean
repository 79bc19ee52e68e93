/-!
# Arguments of the command line

Which arguments there are and how their values are written.
-/

namespace WitnessReplay.CommandLine

inductive Argument where
  | benchmark
  | witness
  | packages
  | showAssumptions
  | stacktrace
  | scopeFilter
  | workdir
  | keepWorkdir
  | templateDir
  | javac
  | java
  | kotlinc
  | format
  | verbose
  | help
  | version
deriving DecidableEq, Repr

/-- How many values follow an argument. -/
inductive Arity where
  | flag
  | one
  /-- One or more, up to the next argument that starts with a dash. -/
  | many
deriving DecidableEq, Repr

namespace Argument

def name : Argument → String
  | benchmark => "benchmark"
  | witness => "witness"
  | packages => "packages"
  | showAssumptions => "show-assumptions"
  | stacktrace => "stacktrace"
  | scopeFilter => "scope-filter"
  | workdir => "workdir"
  | keepWorkdir => "keep-workdir"
  | templateDir => "template-dir"
  | javac => "javac"
  | java => "java"
  | kotlinc => "kotlinc"
  | format => "format"
  | verbose => "verbose"
  | help => "help"
  | version => "version"

def arity : Argument → Arity
  | showAssumptions | stacktrace | keepWorkdir | verbose | help | version => .flag
  | packages => .many
  | benchmark | witness | scopeFilter | workdir | templateDir | javac | java | kotlinc | format =>
    .one

def valueName (a : Argument) : String :=
  String.ofList (a.name.toList.map fun c => if c = '-' then '_' else c.toUpper)

def text (a : Argument) : String :=
  match a, a.arity with
  | .benchmark, _ => s!"<{a.valueName}>"
  | _, .flag => s!"--{a.name}"
  | _, .one => s!"--{a.name} <{a.valueName}>"
  | _, .many => s!"--{a.name} <{a.valueName}>..."

def general : List Argument :=
  [verbose, help, version]

def specific : List Argument :=
  [witness, packages, showAssumptions, stacktrace, scopeFilter, workdir, keepWorkdir, templateDir,
    javac, java, kotlinc,
    format, verbose, help]

def letter? : Argument → Option Char
  | witness => some 'w'
  | packages => some 'p'
  | help => some 'h'
  | version => some 'V'
  | _ => none

def ofName? (arguments : List Argument) (name : String) : Option Argument :=
  arguments.find? fun a => a.name = name

def ofLetter? (arguments : List Argument) (c : Char) : Option Argument :=
  arguments.find? fun a => a.letter? = some c

end Argument

inductive UsageError where
  | notADirectory (argument : Argument) (value : String)
  | invalidValue (argument : Argument) (value : String)
  | missingValue (argument : Argument)
  | unneededValue (argument : Argument) (value : String)
  | repeated (argument : Argument)
  /-- Something unknown, and whether it may be meant as a value. -/
  | unexpected (text : String) (asValue : Bool)
  | unknownLanguage (text : String)
  | missingArguments
  | missingLanguage
  /-- Nothing was given at all. -/
  | nothing
deriving DecidableEq, Repr

def emphasized (s : String) : String :=
  s!"\x1b[1m{s}\x1b[0m"

def UsageError.complaint : UsageError → String
  | notADirectory argument value =>
    s!"error: invalid value '{emphasized value}' for '{emphasized argument.text}': '{value}' is not a directory"
  | invalidValue argument value =>
    s!"error: invalid value '{emphasized value}' for '{emphasized argument.text}'"
  | missingValue argument =>
    s!"error: a value is required for '{emphasized argument.text}' but none was supplied"
  | unneededValue argument value =>
    s!"error: unexpected value '{emphasized value}' for '{emphasized argument.text}' found; no more were expected"
  | repeated argument =>
    s!"error: the argument '{emphasized argument.text}' cannot be used multiple times"
  | unexpected text _ => s!"error: unexpected argument '{emphasized text}' found"
  | unknownLanguage text => s!"error: unrecognized subcommand '{emphasized text}'"
  | missingArguments => "error: the following required arguments were not provided:"
  | missingLanguage =>
    let program := emphasized "polywit"
    s!"error: '{program}' requires a subcommand but one was not provided"
  | nothing => "Execution-based validator for Java and Kotlin violation witnesses"

def UsageError.advice : UsageError → String
  | unexpected text true =>
    let value := "-- " ++ text
    s!"\n\n  tip: to pass '{emphasized text}' as a value, use '{emphasized value}'"
  | _ => ""

/-- The wording of an error for a terminal, with a hint that follows. -/
def UsageError.message (e : UsageError) : String :=
  e.complaint ++ e.advice ++ "\n\nFor more information, try '" ++ emphasized "--help" ++ "'.\n"

/-- Why a command line is not run: it is refused, or it asks for something else. -/
inductive Stop where
  | error (error : UsageError)
  | help
  | version
deriving DecidableEq, Repr

end WitnessReplay.CommandLine
