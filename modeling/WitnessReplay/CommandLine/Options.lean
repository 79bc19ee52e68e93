import WitnessReplay.CommandLine.Argument
import WitnessReplay.Text.Similarity
import WitnessReplay.Validation.Config

/-!
# Reading a command line

A command line is a language and arguments with values. Values are checked when the argument is
complete, that is, when the next argument begins or the line ends; so the first faulty argument
is reported. What starts with dashes and is no argument is reported at once.
-/

namespace WitnessReplay.CommandLine

open Files Harness Validation Witness

inductive Format where
  | text
  | json
deriving DecidableEq, Repr

def formats : List (String × Format) :=
  [("text", .text), ("json", .json)]

structure Options where
  config : Config
  showAssumptions : Bool := false
  stacktrace : Bool := false
  /-- The working directory, if it is not a temporary one. -/
  workdir : Option Path := none
  keepWorkdir : Bool := false
  format : Format := .text
deriving DecidableEq, Repr

/-- A part of the command line by its form. -/
inductive Word where
  /-- Two dashes, behind which nothing is an argument with a name. -/
  | dashes
  /-- `--name` or `--name=value`. -/
  | long (name : String) (value : Option String)
  /-- A dash and letters. -/
  | letters (letters : List Char)
  | plain
deriving DecidableEq, Repr

def Word.of (s : String) : Word :=
  match s.toList with
  | '-' :: '-' :: [] => .dashes
  | '-' :: '-' :: rest =>
    let name := rest.takeWhile (· != '=')
    match rest.drop name.length with
    | _ :: value => .long (String.ofList name) (some (String.ofList value))
    | [] => .long (String.ofList name) none
  | '-' :: c :: rest => .letters (c :: rest)
  | _ => .plain

def attachedValue : List Char → Option String
  | [] => none
  | '=' :: value => some (String.ofList value)
  | value => some (String.ofList value)

/-- A value is a directory that exists, a text that is not empty, one of several names, or any
text. -/
def checkValue (files : FileSystem) (a : Argument) (value : String) : Except Stop Unit :=
  let choice (known : Bool) : Except Stop Unit :=
    if known then .ok () else if value = "" then .error (.error (.missingValue a)) else
      .error (.error (.invalidValue a value))
  match a with
  | .benchmark | .packages | .templateDir =>
    if files.isDirectory ⟨value⟩ then .ok () else .error (.error (.notADirectory a value))
  | .witness | .workdir => if value = "" then .error (.error (.missingValue a)) else .ok ()
  | .scopeFilter => choice (List.lookup value filters).isSome
  | .format => choice (List.lookup value formats).isSome
  | _ => .ok ()

/-- An argument whose values are still being read. -/
structure Pending where
  argument : Argument
  values : List String
  /-- Whether the next plain word is one of its values. -/
  accepting : Bool
deriving DecidableEq, Repr

/-- What has been read of a command line: the complete arguments with their values, and the one
at the end. -/
structure Reading where
  given : List (Argument × List String) := []
  pending : Option Pending := none
deriving DecidableEq, Repr

namespace Reading

def has (r : Reading) (a : Argument) : Bool :=
  r.given.any fun g => g.1 = a

def values (r : Reading) (a : Argument) : List String :=
  (r.given.filter fun g => g.1 = a).flatMap (·.2)

def value? (r : Reading) (a : Argument) : Option String :=
  (r.values a).head?

def hasBenchmark (r : Reading) : Bool :=
  r.has .benchmark || r.pending.any (·.argument = .benchmark)

/-- Adds a complete argument: it has values if it needs some, it is not repeated unless it
takes many, and its values are checked. -/
def add (files : FileSystem) (r : Reading) (a : Argument) (values : List String) :
    Except Stop Reading := do
  if a.arity ≠ .flag ∧ values = [] then throw (.error (.missingValue a))
  if a.arity ≠ .many ∧ r.has a then throw (.error (.repeated a))
  values.forM (checkValue files a)
  return { given := r.given ++ [(a, values)] }

def complete (files : FileSystem) (r : Reading) : Except Stop Reading :=
  match r.pending with
  | none => .ok r
  | some p => { r with pending := none }.add files p.argument p.values

/-- Begins an argument, which may have a value attached. Help and version stop the reading. -/
def begin (files : FileSystem) (r : Reading) (a : Argument) (attached : Option String) :
    Except Stop Reading := do
  let r ← r.complete files
  match a, a.arity, attached with
  | .help, _, _ => throw .help
  | .version, _, _ => throw .version
  | _, .flag, _ => r.add files a []
  | _, _, some value => r.add files a [value]
  | _, _, none => return { r with pending := some ⟨a, [], true⟩ }

/-- Whether something unknown may be meant as a value: there has to be an argument without a
name, and none with a similar one. -/
def mayBeValue (known : List Argument) (name : String) : Bool :=
  known.contains .witness && !known.any fun a => Text.isSimilar name a.name

def long (files : FileSystem) (known : List Argument) (r : Reading) (name : String)
    (value : Option String) :
    Except Stop Reading :=
  match Argument.ofName? known name with
  | none => .error (.error (.unexpected s!"--{name}" (mayBeValue known name)))
  | some a =>
    match a.arity, value with
    | .flag, some v => .error (.error (.unneededValue a v))
    | _, _ => r.begin files a value

/-- Reads letters. All but the last one are flags; what follows a letter that needs a value is
its value. -/
def letters (files : FileSystem) (known : List Argument) (r : Reading) :
    List Char → Except Stop Reading
  | [] => .ok r
  | c :: rest =>
    match Argument.ofLetter? known c with
    | none => .error (.error (.unexpected (String.ofList ['-', c]) (known.contains .witness)))
    | some a =>
      match a.arity with
      | .flag => do (← r.begin files a none).letters files known rest
      | _ => r.begin files a (attachedValue rest)

/-- Reads a word that is no argument with a name: a value of the pending argument, or the
benchmark. -/
def plain (files : FileSystem) (r : Reading) (word : String) (afterDashes : Bool) :
    Except Stop Reading :=
  match r.pending with
  | some p =>
    if p.accepting ∧ !afterDashes then
      .ok { r with pending := some ⟨p.argument, p.values ++ [word], p.argument.arity = .many⟩ }
    else positional
  | none => positional
where
  /-- Takes the word as the benchmark, unless there is one. -/
  positional : Except Stop Reading := do
    if r.hasBenchmark then throw (.error (.unexpected word false))
    return { ← r.complete files with pending := some ⟨.benchmark, [word], false⟩ }

def words (files : FileSystem) (r : Reading) (afterDashes : Bool) :
    List String → Except Stop Reading
  | [] => r.complete files
  | word :: rest => do
    if afterDashes then (← r.plain files word true).words files true rest
    else
      match Word.of word with
      | .dashes => r.words files true rest
      | .long name value => (← r.long files Argument.specific name value).words files false rest
      | .letters cs => (← r.letters files Argument.specific cs).words files false rest
      | .plain => (← r.plain files word false).words files false rest

def options (r : Reading) (language : Language) : Except Stop Options :=
  match r.value? .benchmark, r.value? .witness with
  | some benchmark, some witness =>
    .ok
      { config :=
          { language
            benchmark := ⟨benchmark⟩
            packages := (r.values .packages).map (⟨·⟩)
            witness := ⟨witness⟩
            scopeFilter := (r.value? .scopeFilter).bind (List.lookup · filters)
            templateDirectory := (r.value? .templateDir).map (⟨·⟩)
            toolchain :=
              { javac := (r.value? .javac).getD "javac"
                java := (r.value? .java).getD "java"
                kotlinc := (r.value? .kotlinc).getD "kotlinc" } }
        showAssumptions := r.has .showAssumptions
        stacktrace := r.has .stacktrace
        workdir := (r.value? .workdir).map (⟨·⟩)
        keepWorkdir := r.has .keepWorkdir
        format := ((r.value? .format).bind (List.lookup · formats)).getD .text }
  | _, _ => .error (.error .missingArguments)

end Reading

def isCommand (word : String) : Bool :=
  (List.lookup word languages).isSome || word = "help"

/-- Reads the words behind a request for help: at most one, the command that help is wanted
about. -/
def helpFor : List String → Stop
  | [] => .help
  | word :: rest =>
    if !isCommand word then .error (.unknownLanguage word)
    else
      match rest with
      | [] => .help
      | next :: _ => .error (.unknownLanguage next)

/-- What is wrong with a command line that ends in front of the language. -/
def withoutLanguage (r : Reading) : UsageError :=
  if r.given.isEmpty then .nothing else .missingLanguage

def readWords (files : FileSystem) (r : Reading) : List String → Except Stop Options
  | [] => .error (.error (withoutLanguage r))
  | word :: rest =>
    match List.lookup word languages with
    | some language => do (← Reading.words files {} false rest).options language
    | none =>
      if word = "help" then .error (helpFor rest)
      else
        match Word.of word with
        | .dashes =>
          match rest with
          | [] => .error (.error (withoutLanguage r))
          | next :: _ =>
            .error (.error (if isCommand next then .unexpected next false else
              .unknownLanguage next))
        | .long name value => do readWords files (← r.long files Argument.general name value) rest
        | .letters cs => do readWords files (← r.letters files Argument.general cs) rest
        | .plain => .error (.error (.unknownLanguage word))

/-- Reads a command line. Directories are looked up in the file system. -/
def read (files : FileSystem) (words : List String) : Except Stop Options :=
  readWords files {} words

end WitnessReplay.CommandLine
