import WitnessReplay.Benchmark.ImportRules
import WitnessReplay.Benchmark.Sites
import WitnessReplay.Files.Walk
import WitnessReplay.Source.Parse

/-!
# Following imports

The program of a benchmark consists of all source files below its directory and of all files
that these import, directly or through others. An import is looked up in the benchmark and in
the package directories; it has to have one meaning.
-/

namespace WitnessReplay.Benchmark

open Files Source Witness

/-- Why the sources of a program could not be found or read. -/
inductive ResolveError where
  | missingBenchmark (path : Path)
  | unreadable (path : Path) (cause : FileError)
  | unlisted (path : Path) (cause : WalkError)
  | syntaxError (error : SyntaxError)
  | noDefinition (path : String) (file : Path)
  | ambiguous (path : String) (file : Path) (candidates : List Path)
deriving DecidableEq, Repr

def ResolveError.message : ResolveError → String
  | missingBenchmark path => s!"benchmark directory {path.text} does not exist"
  | unreadable path cause => s!"failed to read {path.text}: {cause.message}"
  | unlisted path cause => s!"failed to list {path.text}: {cause.message}"
  | syntaxError error => error.message
  | noDefinition path file => s!"no definition found for import '{path}' in {file.text}"
  | ambiguous path file candidates =>
    s!"import '{path}' in {file.text} is ambiguous: " ++ ", ".intercalate (candidates.map (·.text))

/-- The directories in which a program is looked up. -/
structure Roots where
  benchmark : Path
  packages : List Path
deriving DecidableEq, Repr

def Roots.all (roots : Roots) : List Path :=
  roots.benchmark :: roots.packages

structure Lookup where
  language : Language
  roots : Roots
  files : FileSystem

namespace Lookup

def rules (l : Lookup) : ImportRules :=
  .ofLanguage l.language

def sourcesBelow (l : Lookup) (directory : Path) : Except ResolveError (List Path) :=
  match l.files.sources directory l.language.extension with
  | .ok visits => .ok (visits.map (·.path))
  | .error cause => .error (.unlisted directory cause)

/-- The relative path of the file that declares a type; there is none for the empty name. -/
def typeFile? (l : Lookup) (segments : List String) : Option Path :=
  segments.getLast?.map fun last =>
    (Path.ofParts segments.dropLast).join ⟨s!"{last}.{l.language.extension}"⟩

/-- The files that may declare a type: those of the benchmark whose paths end with the type's
path, and if there are none, those at the type's path below the package directories. -/
def typeCandidates (l : Lookup) (benchmarkFiles : List Path) (segments : List String) : List Path :=
  match l.typeFile? segments with
  | none => []
  | some relative =>
    match benchmarkFiles.filter (·.endsWith relative) with
    | [] => (l.roots.packages.map (·.join relative)).filter l.files.isFile
    | found => found

def addNew (paths : List Path) (p : Path) : List Path :=
  if p.isAmong paths then paths else paths ++ [p]

/-- The directories that may hold a package: those at the package's path below any directory,
and the package directories whose own paths end with it. -/
def packageCandidates (l : Lookup) (segments : List String) : List Path :=
  let relative := Path.ofParts segments
  let nested := (l.roots.all.map (·.join relative)).filter l.files.isDirectory
  let named := l.roots.packages.filter (·.endsWith relative)
  (nested ++ named).foldl addNew []

/-- The only candidate for an import in a file, if there is any. -/
def unique? (i : Import) (file : Path) : List Path → Except ResolveError (Option Path)
  | [] => .ok none
  | [p] => .ok (some p)
  | candidates => .error (.ambiguous i.path file candidates)

def packageFiles (l : Lookup) (i : Import) (file : Path) (segments : List String) :
    Except ResolveError (List Path) :=
  match unique? i file (l.packageCandidates segments) with
  | .ok (some directory) => l.sourcesBelow directory
  | .ok none => .error (.noDefinition i.path file)
  | .error e => .error e

def typeSegments (i : Import) : List String :=
  if i.isStatic && !i.wildcard then i.segments.dropLast else i.segments

def importedFiles (l : Lookup) (benchmarkFiles : List Path) (file : Path) (i : Import) :
    Except ResolveError (List Path) :=
  if l.rules.ignores i then .ok []
  else if i.wildcard && !i.isStatic then l.packageFiles i file i.segments
  else
    let segments := typeSegments i
    match unique? i file (l.typeCandidates benchmarkFiles segments) with
    | .ok (some declaration) => .ok [declaration]
    | .ok none =>
      if l.rules.importsMembers && 1 < segments.length then l.packageFiles i file segments.dropLast
      else .error (.noDefinition i.path file)
    | .error e => .error e

def dependencies (l : Lookup) (benchmarkFiles : List Path) (file : Path) :
    List Import → Except ResolveError (List Path)
  | [] => .ok []
  | i :: rest => do
    let found ← l.importedFiles benchmarkFiles file i
    return found ++ (← l.dependencies benchmarkFiles file rest)

def outline (l : Lookup) (path : Path) : Except ResolveError Outline :=
  match l.files.readText path with
  | .error cause => .error (.unreadable path cause)
  | .ok source =>
    match parse l.language source path.text with
    | .ok outline => .ok outline
    | .error error => .error (.syntaxError error)

end Lookup

end WitnessReplay.Benchmark
