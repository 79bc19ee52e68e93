import WitnessReplay.Benchmark.Provider
import WitnessReplay.Witness.SiteMap

/-!
# Input sites of a program

A site is a line with a call to the input provider. A function without parameters that returns
such an input at once is a wrapper, and the lines that call it by name are sites too.
-/

namespace WitnessReplay.Benchmark

open Source Witness

/-- A source file of a program: what positions call it, and its outline. -/
structure SourceFile where
  identifier : String
  outline : Outline
deriving Repr

def positionedCalls (files : List SourceFile) : List (Position × Call) :=
  files.flatMap fun f => f.outline.calls.map fun c => (⟨f.identifier, c.line⟩, c)

/-- The sites with a call to the provider. Of several calls on a line the last one counts. -/
def directSites (files : List SourceFile) : SiteMap :=
  .ofList ((positionedCalls files).filterMap fun (p, c) => (providedType? c).map (p, ·))

def wrappedSite? (direct : SiteMap) (f : SourceFile) (function : Function) : Option Position :=
  if function.paramCount ≠ 0 then none
  else
    match function.firstReturnLine with
    | some line => if direct.contains ⟨f.identifier, line⟩ then some ⟨f.identifier, line⟩ else none
    | none => none

/-- The wrappers by their names, with the sites that they return. Of several wrappers with one
name the last one counts. -/
def wrappers (direct : SiteMap) (files : List SourceFile) : OrderedMap String Position :=
  .ofList (files.flatMap fun f => f.outline.functions.filterMap fun function =>
    (wrappedSite? direct f function).map (function.name, ·))

def wrapperCalls (direct : SiteMap) (files : List SourceFile) : List (Position × String) :=
  (positionedCalls files).filterMap fun (p, c) =>
    ((wrappers direct files).get? c.name).bind fun site => (direct.get? site).map (p, ·)

/-- The sites of a program. A call to a wrapper decides the type at its line. -/
def collectSites (files : List SourceFile) : SiteMap :=
  let direct := directSites files
  (wrapperCalls direct files).foldl (fun sites e => sites.insert e.1 e.2) direct

end WitnessReplay.Benchmark
