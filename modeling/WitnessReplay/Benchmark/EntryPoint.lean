import WitnessReplay.Benchmark.Preparation

/-!
# The entry point of a Kotlin program

The driver of the harness has a `main` of its own and calls the program's under another name,
with arguments. So the only top-level `main` of the program is renamed, and gets a parameter if
it has none.
-/

namespace WitnessReplay.Benchmark

open Files Source

def renamedMain : String := "polywit_main"

def mainParameters : String := "(args: Array<String>)"

def splitAtByte : Nat → List Char → List Char × List Char
  | _, [] => ([], [])
  | 0, cs => ([], cs)
  | n + 1, c :: cs =>
    let (front, back) := splitAtByte (n + 1 - c.utf8Size) cs
    (c :: front, back)

def replaceSpan (text : List Char) (span : Text.Span) (replacement : String) : List Char :=
  (splitAtByte span.start text).1 ++ replacement.toList ++ (splitAtByte span.stop text).2

/-- The text of a file whose entry point is renamed and takes arguments. The parameters are
behind the name, so they are replaced first. -/
def renameMain (source : String) (main : Function) : String :=
  let text := source.toList
  let text := if main.paramCount = 0 then replaceSpan text main.paramsSpan mainParameters else text
  String.ofList (replaceSpan text main.nameSpan renamedMain)

/-- A top-level `main`, where it was found, and the text and package of its file. -/
structure EntryPoint where
  path : Path
  source : String
  package : Option String
  main : Function
deriving Repr

def mains (o : Outline) : List Function :=
  o.functions.filter Kotlin.isMain

def entryPointsIn (fs : FileSystem) (path : Path) : Except PreparationError (List EntryPoint) :=
  match fs.readText path with
  | .error cause => .error (.unchanged path cause)
  | .ok source =>
    match parse .kotlin source path.text with
    | .error error => .error (.syntaxError error)
    | .ok outline => .ok ((mains outline).map fun main =>
      { path, source, package := outline.package, main })

/-- The entry points in files, in order, up to the first file that cannot be read. -/
def entryPoints (fs : FileSystem) : List Path → Except PreparationError (List EntryPoint)
  | [] => .ok []
  | path :: rest => do
    let found ← entryPointsIn fs path
    return found ++ (← entryPoints fs rest)

/-- The only entry point of the files; it must not be in a package. -/
def entryPoint (fs : FileSystem) (paths : List Path) : Except PreparationError EntryPoint := do
  match ← entryPoints fs paths with
  | [found] =>
    match found.package with
    | none => return found
    | some package => throw (.packagedEntryPoint found.path package)
  | found => throw (.entryPointCount found.length)

def kotlinRoutes (fs : FileSystem) : List Path → Except PreparationError (List Route)
  | [] => .ok []
  | root :: rest =>
    match fs.sources root Language.kotlin.extension with
    | .error cause => .error (.unlisted root cause)
    | .ok visits => (kotlinRoutes fs rest).map (visits.map (·.relative) ++ ·)

/-- The Kotlin files that a copy of directories puts into the working directory, in the order
of their routes. -/
def copiedSources (fs : FileSystem) (sources : List Path) (target : Path) :
    Except PreparationError (List Path) :=
  (kotlinRoutes fs sources).map fun routes =>
    (routes.eraseDups.mergeSort fun a b => !b.lex a).map fun r => target.join ⟨"/".intercalate r⟩

def renameEntryPoint (sources : List Path) (target : Path) : Edit PreparationError Unit := do
  let paths ← Edit.inspect (copiedSources · sources target)
  let found ← Edit.inspect (entryPoint · paths)
  let text := renameMain found.source found.main
  (Edit.change (·.write found.path text.toUTF8)).adapt (.unchanged found.path)

/-- Prepares a program in the working directory: its directories are copied, and in Kotlin the
entry point is renamed. -/
def prepare (language : Language) (sources : List Path) (target : Path) :
    Edit PreparationError Unit := do
  copyAll sources target
  match language with
  | .java => return ()
  | .kotlin => renameEntryPoint sources target

end WitnessReplay.Benchmark
