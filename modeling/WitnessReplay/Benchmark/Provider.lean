import WitnessReplay.Source.Outline
import WitnessReplay.Text.Lowercase
import WitnessReplay.Text.Occurrence

/-!
# The input provider

Benchmarks get their nondeterministic inputs from the methods of a class called `Verifier`, one
method per type: `Verifier.nondetInt()` and so on.
-/

namespace WitnessReplay.Benchmark

open Source

def provider : String := "Verifier"

def providerMethodStart : String := "nondet"

/-- Whether a call asks the provider for a value: its qualifier mentions the provider, and its
name says a type. -/
def isProviderCall (c : Call) : Bool :=
  c.qualifier.any (fun q => Text.contains q provider) &&
    providerMethodStart.toList.isPrefixOf c.name.toList &&
      providerMethodStart.length < c.name.length

/-- The type of the value that a provider's method gives: its name without the common start, in
lowercase. -/
def valueType (method : String) : String :=
  if providerMethodStart.toList.isPrefixOf method.toList then
    Text.lowercase (String.ofList (method.toList.drop providerMethodStart.length))
  else Text.lowercase method

def providedType? (c : Call) : Option String :=
  if isProviderCall c then some (valueType c.name) else none

end WitnessReplay.Benchmark
