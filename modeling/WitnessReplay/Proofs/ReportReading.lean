import WitnessReplay.Proofs.JsonReading
import WitnessReplay.Proofs.OccurrencePlaces
import WitnessReplay.Validation.Config
import WitnessReplay.Validation.Report

/-!
# Reading reports

The printed form of a report is JSON from which the report can be read back: its verdict, its
language, its producer, and its inputs in their order. A position is shown as one text, but the
line is what stands behind the last colon, so the file may have colons and digits in its name.
Hence no two reports have the same printed form.
-/

namespace WitnessReplay

/-! ### Positions -/

namespace Witness.Position

/-- The position that a text shows: the line behind its last colon, and the file in front of
that. -/
def ofText? (text : String) : Option Position :=
  match Text.splitAtLast? [':'] text.toList with
  | some (file, line) =>
    if Json.isDigits line then some ⟨String.ofList file, Nat.ofDigitChars 10 line 0⟩ else none
  | none => none

theorem splitAtLast?_colon {file digits : List Char} (hdigits : ':' ∉ digits) :
    Text.splitAtLast? [':'] (file ++ ':' :: digits) = some (file, digits) := by
  have hnone : Text.splitAtLast? [':'] digits = none := by
    cases hsplit : Text.splitAtLast? [':'] digits with
    | none => rfl
    | some split =>
      obtain ⟨before, behind⟩ := split
      refine absurd ?_ hdigits
      rw [Text.eq_of_splitAtLast? hsplit]
      simp
  have hcolon : Text.splitAtLast? [':'] (':' :: digits) = some ([], digits) := by
    rw [Text.splitAtLast?, hnone]
    rfl
  simpa using Text.splitAtLast?_append_iff.2 hcolon

theorem toList_text (p : Position) :
    p.text.toList = p.file.toList ++ ':' :: Nat.toDigits 10 p.line := by
  have htext : p.text = p.file ++ ":" ++ toString p.line := rfl
  rw [htext, String.toList_append, String.toList_append, Nat.toString_eq_repr, Nat.toList_repr,
    List.append_assoc]
  rfl

/-- **Positions.** A position is read back from its text, whatever its file is called. -/
theorem ofText?_text (p : Position) : ofText? p.text = some p := by
  have hdigit {c : Char} (hc : c ∈ Nat.toDigits 10 p.line) : c.isDigit = true :=
    Nat.isDigit_of_mem_toDigits (by decide) (by decide) hc
  have hcolon : ':' ∉ Nat.toDigits 10 p.line := fun hc => absurd (hdigit hc) (by decide)
  have hdigits : Json.isDigits (Nat.toDigits 10 p.line) = true := by
    rw [Json.isDigits, Bool.and_eq_true, Bool.not_eq_true', List.isEmpty_eq_false_iff,
      List.all_eq_true]
    exact ⟨Nat.toDigits_ne_nil, fun c hc => hdigit hc⟩
  rw [ofText?, toList_text, splitAtLast?_colon hcolon]
  simp only [hdigits, if_true, Nat.ofDigitChars_ten_toDigits, String.ofList_toList]

end Witness.Position

namespace Validation

open Harness Witness

/-! ### Reports -/

def verdicts : List (String × Verdict) :=
  [Verdict.correct, .spurious, .unknown].map fun v => (v.name, v)

def readInput (j : Json) : Option Input := do
  let position ← required (j.member? "position") fun j => (readString j).bind Position.ofText?
  let value ← required (j.member? "value") (readOptional readString)
  let type ← required (j.member? "type") readString
  return { position, value, type }

def Report.ofJson? (j : Json) : Option Report := do
  let verdict ← required (j.member? "verdict") (readChoice verdicts)
  let language ← required (j.member? "language") (readChoice languages)
  let producer ← required (j.member? "producer") (readOptional readString)
  let inputs ← required (j.member? "assumptions") (readList readInput)
  return { verdict, language, producer, inputs }

theorem readOptional_ofOption (value : Option String) :
    readOptional readString (.ofOption value) = some value := by
  cases value <;> rfl

theorem readInput_inputJson (i : Input) : readInput (inputJson i) = some i := by
  have hposition : required ((inputJson i).member? "position") (fun j =>
      (readString j).bind Position.ofText?) = some i.position :=
    Position.ofText?_text i.position
  have hvalue : required ((inputJson i).member? "value") (readOptional readString) =
      some i.value := readOptional_ofOption i.value
  have htype : required ((inputJson i).member? "type") readString = some i.type := rfl
  rw [readInput, hposition, hvalue, htype]
  rfl

theorem readList_inputJson (inputs : List Input) :
    readList readInput (.array (inputs.map inputJson)) = some inputs := by
  rw [readList]
  induction inputs with
  | nil => rfl
  | cons i inputs ih =>
    rw [List.map_cons, List.mapM_cons, readInput_inputJson, ih]
    rfl

theorem ofJson?_json (r : Report) : Report.ofJson? r.json = some r := by
  have hverdict : required (r.json.member? "verdict") (readChoice verdicts) = some r.verdict := by
    obtain ⟨verdict, language, producer, inputs⟩ := r
    cases verdict <;> rfl
  have hlanguage :
      required (r.json.member? "language") (readChoice languages) = some r.language := by
    obtain ⟨verdict, language, producer, inputs⟩ := r
    cases language <;> rfl
  have hproducer : required (r.json.member? "producer") (readOptional readString) =
      some r.producer := readOptional_ofOption r.producer
  have hinputs : required (r.json.member? "assumptions") (readList readInput) = some r.inputs :=
    readList_inputJson r.inputs
  rw [Report.ofJson?, hverdict, hlanguage, hproducer, hinputs]
  rfl

theorem proper_json (r : Report) : r.json.Proper := by
  have hoption (value : Option String) : (Json.ofOption value).Proper := by
    cases value with
    | none => exact .null
    | some s => exact .string s
  have hinput (i : Input) : (inputJson i).Proper := by
    refine .object fun m hm => ?_
    simp only [List.mem_cons, List.not_mem_nil, or_false] at hm
    rcases hm with rfl | rfl | rfl
    · exact .string _
    · exact hoption i.value
    · exact .string _
  refine .object fun m hm => ?_
  simp only [List.mem_cons, List.not_mem_nil, or_false] at hm
  rcases hm with rfl | rfl | rfl | rfl | rfl
  · exact .number (by decide)
  · exact .string _
  · exact .string _
  · exact hoption r.producer
  · refine .array fun e he => ?_
    obtain ⟨i, -, rfl⟩ := List.mem_map.1 he
    exact hinput i

/-- **Reports.** The printed form of a report is a JSON text of its value, the report is read
back from that value with its verdict, language, producer and inputs, and each of its positions
from the text of the position. So different reports have different printed forms. -/
theorem report_of_text :
    (∀ r : Report, Json.read? r.text = some r.json ∧ Report.ofJson? r.json = some r ∧
      ∀ i ∈ r.inputs, Position.ofText? i.position.text = some i.position) ∧
    Function.Injective Report.text := by
  have hread (r : Report) : Json.read? r.text = some r.json := Json.read?_pretty (proper_json r)
  refine ⟨fun r => ⟨hread r, ofJson?_json r, fun i _ => Position.ofText?_text i.position⟩,
    fun r r' htext => ?_⟩
  have hjson : r.json = r'.json := by
    apply Option.some.inj
    rw [← hread r, ← hread r', htext]
  apply Option.some.inj
  rw [← ofJson?_json r, ← ofJson?_json r', hjson]

/-- A report with an input in a file whose name looks like a position, with the text `null` for
a value, and with a control character and quotes in the name of its producer. -/
def colonReport : Report :=
  ⟨.correct, .java, some "a\x01\"\\é",
    [⟨⟨"A:1", 23⟩, some "null", "int"⟩, ⟨⟨"A", 123⟩, none, "int"⟩]⟩

theorem report_of_colonReport :
    (⟨⟨"A:1", 23⟩, some "null", "int"⟩ : Input) ∈ colonReport.inputs ∧
      (Json.read? colonReport.text).bind Report.ofJson? = some colonReport ∧
      Position.ofText? "A:1:23" = some ⟨"A:1", 23⟩ := by
  obtain ⟨hread, hjson, hpositions⟩ := report_of_text.1 colonReport
  refine ⟨List.mem_cons_self, ?_, hpositions _ List.mem_cons_self⟩
  rw [hread, Option.bind_some, hjson]

end Validation

end WitnessReplay
